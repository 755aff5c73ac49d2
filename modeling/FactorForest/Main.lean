import FactorForest.Command.Run

set_option autoImplicit false

namespace FactorForest.Command

def errorNumber (code : UInt32) : UInt32 := if code < 0x80000000 then code else 0 - code

def refusal (e : IO.Error) : IO SystemFault :=
  match e with
  | .noFileOrDirectory .. => pure .notFound
  | .alreadyExists .. => pure .exists
  | .inappropriateType _ code _ => pure (if errorNumber code = 20 then .notFolder else .isFolder)
  | .invalidArgument file code details =>
    if errorNumber code = 36 then pure .nameTooLong
    else throw (.invalidArgument file code details)
  | .resourceExhausted file code details =>
    if errorNumber code = 28 then pure .noSpace
    else throw (.resourceExhausted file code details)
  | e => throw e

def attempt {α : Type} (act : IO α) : IO (Except SystemFault α) := do
  try
    let a ← act
    pure (.ok a)
  catch e =>
    let f ← refusal e
    pure (.error f)

def makeOne (path : String) : IO (Except SystemFault Unit) := do
  match ← attempt (IO.FS.createDir path) with
  | .error .exists => attempt (IO.FS.createDirAll path)
  | r => pure r

def playOut {α : Type} (s : Script α) : IO (Except Fault α) :=
  match s with
  | .done r => pure r
  | .say text next => do
    IO.print text
    playOut next
  | .read path next => do
    let r ← attempt (IO.FS.readBinFile path)
    playOut (next (r.map (·.toList)))
  | .write path bytes next => do
    let r ← attempt (IO.FS.writeBinFile path (ByteArray.mk bytes.toArray))
    playOut (next r)
  | .makeFolder path next => do
    let r ← makeOne path
    playOut (next r)

def seedOf (args : List String) : IO Int :=
  match Request.ofArgs args with
  | .run _ c =>
    match c.source.seed with
    | some n => pure n
    | none => do
      let n ← IO.rand 0 (2 ^ 62)
      pure n
  | _ => pure 0

end FactorForest.Command

open FactorForest FactorForest.Command in
def main (args : List String) : IO UInt32 := do
  let seed ← seedOf args
  match ← playOut (run args (Draws.ofSeed seed)) with
  | .ok (.code n) => pure n.toUInt32
  | .ok (.exit 2) => do
    IO.eprintln usageText
    pure 2
  | .ok (.exit n) => pure n.toUInt32
  | .error e => do
    IO.eprintln e.message
    pure 1
