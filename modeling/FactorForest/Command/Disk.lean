import FactorForest.Command.SystemFault
import FactorForest.Text.Lines

set_option autoImplicit false

namespace FactorForest.Command

def pathSteps (path : String) : List String :=
  ((Text.pieces '/' path.toList).map String.ofList).filter (· ≠ "")

def pathNames (path : String) : List String := (pathSteps path).filter (· ≠ ".")

/-- The slashes that a path starts with and keeps: none, one, or exactly two. -/
def pathRoot (path : String) : String :=
  match path.toList with
  | '/' :: '/' :: '/' :: _ => "/"
  | '/' :: '/' :: _ => "//"
  | '/' :: _ => "/"
  | _ => ""

def pathOf (root : String) (names : List String) : String :=
  let whole := root ++ "/".intercalate names
  if whole = "" then "." else whole

def plainPath (path : String) : String := pathOf (pathRoot path) (pathNames path)

def inFolder (folder file : String) : String :=
  if folder = "." then file
  else if pathNames folder = [] then folder ++ file
  else folder ++ "/" ++ file

def nameLimit : Nat := 255

def pathLimit : Nat := 4095

/-- Folders and files by the names that lead to them from the root, and the current folder. That
folder is a fresh one among the temporary files, and its name is one that no path can give. -/
structure Disk where
  here : List String := ["tmp", ""]
  folders : List (List String) := []
  files : List (List String × List UInt8) := []
deriving DecidableEq

namespace Disk

def systemFolders : List (List String) :=
  ["bin", "boot", "dev", "etc", "home", "lib", "media", "mnt", "opt", "proc", "root", "run", "sbin",
    "srv", "sys", "tmp", "usr", "var"].map ([·])
  ++ ["bin", "lib", "local", "sbin", "share"].map (["usr", ·])
  ++ ["lib", "log", "tmp"].map (["var", ·])

def nullDevice : List String := ["dev", "null"]

def fullDevice : List String := ["dev", "full"]

def isFolder (d : Disk) (place : List String) : Bool :=
  place.isPrefixOf d.here || systemFolders.contains place || d.folders.contains place

def file? (d : Disk) (place : List String) : Option (List UInt8) :=
  if place = nullDevice ∨ place = fullDevice then some [] else d.files.lookup place

def origin (d : Disk) (path : String) : List String := if pathRoot path = "" then d.here else []

/-- Follows steps from a folder; above the root is the root. Only the last of them may lead to a
file or to nothing. -/
def follow (d : Disk) (place : List String) : List String → Except SystemFault (List String)
  | [] => .ok place
  | step :: rest =>
    if step = "." then follow d place rest
    else if step = ".." then follow d place.dropLast rest
    else if nameLimit < step.utf8ByteSize then .error .nameTooLong
    else
      let next := place ++ [step]
      if d.isFolder next then follow d next rest
      else if rest = [] then .ok next
      else if (d.file? next).isSome then .error .notFolder
      else .error .notFound

def locate (d : Disk) (path : String) (steps : List String) : Except SystemFault (List String) :=
  if path = "" then .error .notFound
  else if pathLimit < path.utf8ByteSize then .error .nameTooLong
  else d.follow (d.origin path) steps

def read (d : Disk) (path : String) : Except SystemFault (List UInt8) :=
  match d.locate path (pathSteps path) with
  | .error e => .error e
  | .ok place =>
    if d.isFolder place then .error .isFolder
    else
      match d.file? place with
      | none => .error .notFound
      | some bytes => if path.endsWith "/" then .error .notFolder else .ok bytes

/-- Whether a slash follows the last name of a path, so that it can only name a folder. -/
def asksFolder (path : String) : Bool :=
  path.endsWith "/" && ((pathSteps path).getLast?.any fun step => step ≠ "." && step ≠ "..")

/-- Where a file is to be written. Whether a path can only name a folder is seen before its last
name is looked up. -/
def target (d : Disk) (path : String) : Except SystemFault (List String) :=
  if asksFolder path then
    match d.locate path ((pathSteps path).dropLast ++ ["."]) with
    | .error e => .error e
    | .ok _ => .error .isFolder
  else
    match d.locate path (pathSteps path) with
    | .error e => .error e
    | .ok place => if d.isFolder place then .error .isFolder else .ok place

def write (d : Disk) (path : String) (bytes : List UInt8) : Except SystemFault Disk :=
  match d.target path with
  | .error e => .error e
  | .ok place =>
    if place = fullDevice ∧ bytes ≠ [] then .error .noSpace
    else .ok { d with files := (place, bytes) :: d.files.filter (·.1 ≠ place) }

def makeFolder (d : Disk) (path : String) : Except SystemFault Disk :=
  match d.locate path (pathSteps path) with
  | .error e => .error e
  | .ok place =>
    if d.isFolder place then .ok d
    else if (d.file? place).isSome then .error .exists
    else .ok { d with folders := place :: d.folders }

def ofFiles (files : List (String × List UInt8)) : Disk :=
  files.foldl (fun d f =>
    let names := pathNames f.1
    let above := (List.range names.length).tail.map fun n => d.here ++ names.take n
    { d with folders := above ++ d.folders, files := (d.here ++ names, f.2) :: d.files }) {}

def listing (d : Disk) : List (String × List UInt8) :=
  d.files.filterMap fun f =>
    (d.here.isPrefixOf? f.1).map fun names => ("/".intercalate names, f.2)

end Disk
end FactorForest.Command
