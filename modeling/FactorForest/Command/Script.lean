import FactorForest.Command.Disk
import FactorForest.Fault

/-!
Scripts: what a command does to the outside, as data. A script says text, reads and writes files,
makes folders, and ends with a result. Played on a disk it is a function.
-/

set_option autoImplicit false

namespace FactorForest.Command

inductive Script (α : Type)
  | done (result : Except Fault α)
  | say (text : String) (next : Script α)
  | read (path : String) (next : Except SystemFault (List UInt8) → Script α)
  | write (path : String) (bytes : List UInt8) (next : Except SystemFault Unit → Script α)
  | makeFolder (path : String) (next : Except SystemFault Unit → Script α)

namespace Script

variable {α β : Type}

def bind (s : Script α) (f : α → Script β) : Script β :=
  match s with
  | .done (.ok a) => f a
  | .done (.error e) => .done (.error e)
  | .say text next => .say text (next.bind f)
  | .read path next => .read path fun r => (next r).bind f
  | .write path bytes next => .write path bytes fun r => (next r).bind f
  | .makeFolder path next => .makeFolder path fun r => (next r).bind f

instance : Monad Script where
  pure a := .done (.ok a)
  bind := bind

def caught (s : Script α) : Script (Except Fault α) :=
  match s with
  | .done r => .done (.ok r)
  | .say text next => .say text next.caught
  | .read path next => .read path fun r => (next r).caught
  | .write path bytes next => .write path bytes fun r => (next r).caught
  | .makeFolder path next => .makeFolder path fun r => (next r).caught

def ofExcept (r : Except Fault α) : Script α := .done r

def line (text : String) : Script Unit := .say (text ++ "\n") (pure ())

def onPath (path : String) (r : Except SystemFault α) : Script α :=
  match r with
  | .ok a => pure a
  | .error e => .done (.error (.system e path))

def guardPath (path : String) : Script Unit :=
  if path.toList.contains '\x00' then .done (.error .nulInPath) else pure ()

def readFile (path : String) : Script (List UInt8) := do
  guardPath path
  .read path (onPath path)

def writeFile (path : String) (bytes : List UInt8) : Script Unit := do
  guardPath path
  .write path bytes (onPath path)

/-- Makes the folder of names under a root, the innermost first. Where the folder above it is
missing, that is made before; a folder made on the way stays. -/
def foldersUp (root : String) : List String → Script Unit
  | [] => pure ()
  | name :: outer =>
    let path := pathOf root (name :: outer).reverse
    .makeFolder path fun r =>
      match r with
      | .error .notFound => (foldersUp root outer).bind fun _ => .makeFolder path (onPath path)
      | r => onPath path r

def folder (path : String) : Script Unit := do
  guardPath path
  foldersUp (pathRoot path) (pathNames path).reverse

structure Played (α : Type) where
  said : String
  disk : Disk
  result : Except Fault α

def play (s : Script α) (said : String) (d : Disk) : Played α :=
  match s with
  | .done r => ⟨said, d, r⟩
  | .say text next => next.play (said ++ text) d
  | .read path next => (next (d.read path)).play said d
  | .write path bytes next =>
    match d.write path bytes with
    | .ok d' => (next (.ok ())).play said d'
    | .error e => (next (.error e)).play said d
  | .makeFolder path next =>
    match d.makeFolder path with
    | .ok d' => (next (.ok ())).play said d'
    | .error e => (next (.error e)).play said d

end Script
end FactorForest.Command
