import MeteredWasm.CommandLine.Arguments
import MeteredWasm.Sandbox.Running

/-!
# Commands

What each command reads, prints and writes. A command that fails prints nothing but a complaint.
-/

namespace MeteredWasm.CommandLine

/-- What a run of the program does: its exit code, what it prints, a file it writes, and a
complaint for the error stream. -/
structure Outcome where
  exit : UInt32
  output : List UInt8
  file : Option (String × List UInt8)
  complaint : String
deriving Inhabited

namespace Outcome

/-- Print a text. -/
def print (text : String) : Outcome :=
  ⟨0, Text.Utf8.encode text, none, ""⟩

/-- Fail with a complaint. -/
def fail (complaint : String) : Outcome :=
  ⟨1, [], none, "Error: " ++ complaint ++ "\n"⟩

end Outcome

/-- A line of the table of prices: an opcode and its price. -/
def priceLine (opcode : UInt8) : String :=
  "0x" ++ Text.hexByteUpper opcode ++ "\t" ++ toString (Gas.price opcode) ++ "\n"

/-- The opcodes that are not free, with their prices. -/
def priceTable : String :=
  String.join (((List.range 256).map UInt8.ofNat).filterMap fun opcode =>
    if 0 < Gas.price opcode then some (priceLine opcode) else none)

/-- A number is turned into a name, and anything else is read as a name and turned into a
number. -/
def convertName (value : String) : Except Fault String :=
  match word64? value with
  | some n => .ok (Name.mk n).text
  | none => do return toString (← Name.parse value).value.toNat

/-- The outcome of a computation that may fail. -/
def outcomeOf {α : Type} (done : α → Outcome) : Except Fault α → Outcome
  | .ok a => done a
  | .error f => .fail f.message

/-- Do something with the contents of a file. -/
def reading (read : String → Option (List UInt8)) (path : String)
    (f : List UInt8 → Outcome) : Outcome :=
  match read path with
  | some bytes => f bytes
  | none => .fail ("failed to read " ++ path)

/-- Carry out a command, given what files contain. -/
def Command.run (read : String → Option (List UInt8)) : Command → Outcome
  | .instrument input output maxPages => reading read input fun wasm =>
    outcomeOf (fun i => match output with
      | some path => ⟨0, [], some (path, i.wasm), ""⟩
      | none => ⟨0, i.wasm, none, ""⟩) (Metering.instrument wasm maxPages)
  | .validate input => reading read input fun wasm =>
    outcomeOf (fun () => .print (input ++ ": ok\n")) (MeteredWasm.validate wasm)
  | .gasTable => .print priceTable
  | .name value => outcomeOf (fun text => .print (text ++ "\n")) (convertName value)

/-- The name and the version of the program. -/
def versionText : String := "gasket 0.1.0\n"

/-- How the program is used. -/
def usageText : String :=
  "Usage: gasket instrument INPUT [-o OUTPUT] [--max-memory-pages N]\n" ++
  "       gasket validate INPUT\n" ++
  "       gasket gas-table\n" ++
  "       gasket name VALUE\n"

/-- Answer words that make no command. -/
def Refusal.outcome : Refusal → Outcome
  | .usage => ⟨2, [], none, usageText⟩
  | .help => .print usageText
  | .version => .print versionText

/-- Run the program on the words of the command line, given what files contain. -/
def run (read : String → Option (List UInt8)) (words : List String) : Outcome :=
  match parse words with
  | .ok command => command.run read
  | .error refusal => refusal.outcome

/-- The file that the words of the command line name as input, if any. -/
def inputOf (words : List String) : Option String :=
  match parse words with
  | .ok (.instrument input _ _) | .ok (.validate input) => some input
  | _ => none

end MeteredWasm.CommandLine
