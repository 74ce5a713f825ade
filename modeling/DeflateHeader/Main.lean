import DeflateHeader.Cli.Run

/-!
# The program

Runs the command line on real files.
-/

namespace DeflateHeader.Cli

/-- The cause behind an operating system's refusal. -/
def FileError.ofSystem : IO.Error → FileError
  | .noFileOrDirectory .. => .notFound
  | .inappropriateType _ code _ => if code = 21 then .isDirectory else .notDirectory
  | .permissionDenied .. => .other "Permission denied (os error 13)"
  | e => .other (toString e)

/-- Stores the content of a file that is open. -/
def storeContent (handle : IO.FS.Handle) (content : List UInt8) : IO (Except WriteError Unit) := do
  try
    handle.write (ByteArray.mk content.toArray)
    handle.flush
    return .ok ()
  catch e =>
    return .error (.storing (.ofSystem e))

/-- File access to real files. -/
instance : FileAccess IO where
  readFile path := do
    try
      let content ← IO.FS.readBinFile path
      return .ok content.toList
    catch e =>
      return .error (.ofSystem e)
  isPresent path := do
    try
      discard <| IO.FS.realPath path
      return true
    catch _ =>
      return false
  writeFile path content := do
    try
      storeContent (← IO.FS.Handle.mk path .write) content
    catch e =>
      return .error (.opening (.ofSystem e))

end DeflateHeader.Cli

open DeflateHeader.Cli in
/-- Runs the program and passes its outcome on. -/
def main (args : List String) : IO UInt32 := do
  let outcome ← (run args : IO Outcome)
  let out ← IO.getStdout
  out.write (ByteArray.mk outcome.stdout.toArray)
  out.flush
  let err ← IO.getStderr
  err.putStr outcome.errorText
  err.flush
  return UInt32.ofNat outcome.code
