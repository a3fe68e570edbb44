import MeteredWasm.CommandLine.Command

/-!
# The program

Reads the input file, if the command has one, and carries out what the command comes to.
-/

namespace MeteredWasm.CommandLine

/-- The contents of a file, if it can be read. -/
def readFile (path : String) : IO (Option (List UInt8)) := do
  try
    return some (← IO.FS.readBinFile path).data.toList
  catch _ =>
    return none

/-- Carry out an outcome; the exit code tells whether everything could be written. -/
def Outcome.perform (o : Outcome) : IO UInt32 := do
  try
    if let some (path, bytes) := o.file then
      IO.FS.writeBinFile path bytes.toByteArray
    let stdout ← IO.getStdout
    stdout.write o.output.toByteArray
    stdout.flush
    IO.eprint o.complaint
    return o.exit
  catch e =>
    IO.eprintln ("Error: " ++ toString e)
    return 1

end MeteredWasm.CommandLine

/-- The program. -/
def main (words : List String) : IO UInt32 := do
  let contents ← match MeteredWasm.CommandLine.inputOf words with
    | some path => MeteredWasm.CommandLine.readFile path
    | none => pure none
  (MeteredWasm.CommandLine.run (fun _ => contents) words).perform
