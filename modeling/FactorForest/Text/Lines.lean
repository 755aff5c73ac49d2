import FactorForest.Text.Classes

set_option autoImplicit false

namespace FactorForest.Text

/-- The lines of a text whose current line has begun, its characters so far held in reverse. A
return and the line feed after it end one line; a break at the end of the text opens no further
line. -/
def linesFrom : List Char → List Char → List (List Char)
  | [], [] => []
  | c :: cs, [] => [(c :: cs).reverse]
  | line, '\r' :: '\n' :: rest => line.reverse :: linesFrom [] rest
  | line, c :: rest =>
    if isLineBreak c then line.reverse :: linesFrom [] rest else linesFrom (c :: line) rest

def lines (cs : List Char) : List (List Char) := linesFrom [] cs

def foldReturns : List Char → List Char
  | [] => []
  | '\r' :: '\n' :: rest => '\n' :: foldReturns rest
  | c :: rest => (if c = '\r' then '\n' else c) :: foldReturns rest

def trimBy (p : Char → Bool) (cs : List Char) : List Char :=
  ((cs.dropWhile p).reverse.dropWhile p).reverse

def isMargin (c : Char) : Bool := c == ' ' || c == '\t' || c == '\r' || c == '\n'

def trim (cs : List Char) : List Char := trimBy isMargin cs

def words (cs : List Char) : List (List Char) :=
  go [] cs
where
  go : List Char → List Char → List (List Char)
    | [], [] => []
    | c :: cs, [] => [(c :: cs).reverse]
    | word, c :: rest =>
      if isBlank c then
        match word with
        | [] => go [] rest
        | _ => word.reverse :: go [] rest
      else go (c :: word) rest

/-- The pieces between the occurrences of `sep`: one more than there are occurrences. -/
def pieces (sep : Char) : List Char → List (List Char)
  | [] => [[]]
  | c :: rest =>
    if c = sep then [] :: pieces sep rest
    else
      match pieces sep rest with
      | [] => [[c]]
      | p :: ps => (c :: p) :: ps

def cutAt (mark : List Char) : List Char → Option (List Char × List Char)
  | [] => none
  | c :: rest =>
    if mark.isPrefixOf (c :: rest) then some ([], (c :: rest).drop mark.length)
    else (cutAt mark rest).map fun p => (c :: p.1, p.2)

def cutAtLast (sep : Char) (cs : List Char) : Option (List Char × List Char) :=
  if cs.contains sep then
    let tail := (cs.reverse.takeWhile (· ≠ sep)).reverse
    some (cs.take (cs.length - tail.length - 1), tail)
  else none

end FactorForest.Text
