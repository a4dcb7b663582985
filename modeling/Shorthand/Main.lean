import Shorthand.CommandLine.Run

/-! # The program

Reads the files and the input that a run looks at, and prints its outcome. -/

namespace Shorthand.CommandLine

/-- The file at a path, if it can be read. -/
def readFile? (path : String) : IO (Option Config.File) := do
  try return some ⟨path, ← IO.FS.readFile path⟩ catch _ => return none

/-- The bytes of a stream up to its end. -/
partial def readAll (stream : IO.FS.Stream) (read : ByteArray) : IO ByteArray := do
  let bytes ← stream.read 65536
  if bytes.isEmpty then return read else readAll stream (read ++ bytes)

end Shorthand.CommandLine

open Shorthand.CommandLine in
def main (arguments : List String) : IO UInt32 := do
  let files ← (places arguments).filterMapM readFile?
  let input ← if readsInput arguments then readAll (← IO.getStdin) .empty else pure .empty
  let outcome := run arguments files input
  (← IO.getStdout).putStr outcome.stdout
  (← IO.getStderr).putStr outcome.stderr
  return outcome.code.toUInt32
