import FactorForest.Number.Decimal

set_option autoImplicit false

namespace FactorForest.Grid

def cellName (i j : Nat) : String := s!"X{i}{j}"

def coupling : String := "0.5 -0.5 -0.5 0.5"

def factorLine (a b : String) : String := a ++ "/" ++ b ++ "// " ++ coupling

def factorLines (n i j : Nat) : List String :=
  (if j + 1 < n then [factorLine (cellName i j) (cellName i (j + 1))] else []) ++
    (if i + 1 < n then [factorLine (cellName i j) (cellName (i + 1) j)] else [])

def cells (n : Nat) : List (Nat × Nat) :=
  (List.range n).flatMap fun i => (List.range n).map fun j => (i, j)

def text (n : Nat) : String :=
  let lines := "variables:" :: (cells n).map (fun c => cellName c.1 c.2 ++ "\t2") ++
    "factors:" :: (cells n).flatMap fun c => factorLines n c.1 c.2
  "\n".intercalate lines ++ "\n"

end FactorForest.Grid
