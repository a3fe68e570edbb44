import MeteredWasm.Metering.Instrument

/-!
# Arguments of the command line

The words of the command line are read from left to right; the first that cannot be accepted decides.
A word that starts with a dash is an option unless two dashes alone came before it. The value of an
option stands in the same word, after an equals sign or right after a one-letter name, or in the
next word, which then must not look like an option itself.
-/

namespace MeteredWasm.CommandLine

-- Powers of numbers are the core library's, whatever algebra is in scope.
attribute [local instance (high)] instPowNat

/-! ## §1 Numbers -/

/-- The number that decimal digits spell; at least one digit is needed. -/
def digits? (text : List Char) : Option Nat :=
  if text.isEmpty || !text.all Char.isDigit then none
  else some (text.foldl (fun n c => n * 10 + (c.toNat - '0'.toNat)) 0)

/-- An unsigned number of 64 bits, with or without a plus sign. -/
def word64? (text : String) : Option UInt64 :=
  let digits := match text.toList with
    | '+' :: rest => rest
    | all => all
  match digits? digits with
  | some n => if n < 2 ^ (64 : Nat) then some (UInt64.ofNat n) else none
  | none => none

/-- A number of pages: 32 bits, with or without a sign, so that minus zero is zero. -/
def pages? (text : String) : Option Nat :=
  match text.toList with
  | '-' :: rest => (digits? rest).bind fun n => if n = 0 then some 0 else none
  | '+' :: rest => (digits? rest).bind fun n => if n < 2 ^ (32 : Nat) then some n else none
  | all => (digits? all).bind fun n => if n < 2 ^ (32 : Nat) then some n else none

/-! ## §2 Commands -/

/-- What the program can be asked to do. -/
inductive Command where
  | instrument (input : String) (output : Option String) (maxPages : Nat)
  | validate (input : String)
  | gasTable
  | name (value : String)
deriving DecidableEq, Repr

/-- The first word of a command. -/
inductive Verb where
  | instrument
  | validate
  | gasTable
  | name
deriving DecidableEq, Repr

/-- The verb that a word spells. -/
def Verb.ofText? : String → Option Verb
  | "instrument" => some .instrument
  | "validate" => some .validate
  | "gas-table" => some .gasTable
  | "name" => some .name
  | _ => none

/-- Why no command comes of the words. -/
inductive Refusal where
  | usage
  | help
  | version
deriving DecidableEq, Repr

/-- The options that take a value. -/
inductive ValueOption where
  | output
  | maxPages
deriving DecidableEq, Repr

/-- What the words after the verb have told so far. -/
structure Scan where
  operand : Option String
  output : Option String
  maxPages : Option Nat
  /-- An option whose value must be the next word. -/
  waiting : Option ValueOption
  /-- Only operands follow. -/
  operandsOnly : Bool
deriving DecidableEq, Repr

namespace Scan

/-- Nothing has been read yet. -/
def start : Scan :=
  ⟨none, none, none, none, false⟩

/-- Accept an operand: one for each verb but one that takes none. Only names may be empty. -/
def addOperand (verb : Verb) (s : Scan) (text : String) : Except Refusal Scan :=
  if verb = .gasTable ∨ s.operand.isSome ∨ (text.isEmpty ∧ verb ≠ .name) then .error .usage
  else .ok { s with operand := some text }

/-- Accept the value of an option. No option comes twice. -/
def addValue (s : Scan) (option : ValueOption) (text : String) : Except Refusal Scan :=
  match option, s.output, s.maxPages, pages? text with
  | .output, none, _, _ =>
    if text.isEmpty then .error .usage else .ok { s with output := some text, waiting := none }
  | .maxPages, _, none, some n => .ok { s with maxPages := some n, waiting := none }
  | _, _, _, _ => .error .usage

/-- An option with its value in the same word, or else in the next one. -/
def addOption (s : Scan) (option : ValueOption) (value : Option String) : Except Refusal Scan :=
  match value with
  | some text => s.addValue option text
  | none => .ok { s with waiting := some option }

/-- Split a word at its first equals sign. -/
def splitValue (word : List Char) : String × Option String :=
  let name := word.takeWhile (· != '=')
  match word.drop name.length with
  | [] => (String.ofList name, none)
  | _ :: value => (String.ofList name, some (String.ofList value))

/-- A word after two dashes. -/
def addLong (verb : Verb) (s : Scan) (word : List Char) : Except Refusal Scan :=
  match splitValue word, verb with
  | ("help", none), _ => .error .help
  | ("output", value), .instrument => s.addOption .output value
  | ("max-memory-pages", value), .instrument => s.addOption .maxPages value
  | _, _ => .error .usage

/-- A word after one dash. -/
def addShort (verb : Verb) (s : Scan) (word : List Char) : Except Refusal Scan :=
  match word, verb with
  | 'h' :: _, _ => .error .help
  | ['o'], .instrument => s.addOption .output none
  | 'o' :: '=' :: value, .instrument => s.addOption .output (some (String.ofList value))
  | 'o' :: value, .instrument => s.addOption .output (some (String.ofList value))
  | _, _ => .error .usage

/-- Read one word. -/
def addWord (verb : Verb) (s : Scan) (text : String) : Except Refusal Scan :=
  if s.operandsOnly then s.addOperand verb text
  else
    match text.toList, s.waiting with
    | ['-', '-'], _ => .ok { s with operandsOnly := true }
    | '-' :: '-' :: word, none => s.addLong verb word
    | '-' :: c :: word, none => s.addShort verb (c :: word)
    | '-' :: _ :: _, some _ => .error .usage
    | _, some option => s.addValue option text
    | _, none => s.addOperand verb text

/-- The command that all words together tell. -/
def command (verb : Verb) (s : Scan) : Except Refusal Command :=
  match s.waiting, verb, s.operand with
  | none, .instrument, some input =>
    .ok (.instrument input s.output (s.maxPages.getD Metering.defaultMaxPages))
  | none, .validate, some input => .ok (.validate input)
  | none, .gasTable, none => .ok .gasTable
  | none, .name, some value => .ok (.name value)
  | _, _, _ => .error .usage

end Scan

/-! ## §3 The command line -/

/-- Help about the program, or about one of its verbs. -/
def helpTopic : List String → Refusal
  | [] | ["help"] => .help
  | [topic] => if (Verb.ofText? topic).isSome then .help else .usage
  | _ => .usage

/-- A first word that is no verb. -/
def refuse (text : String) : Refusal :=
  match text.toList with
  | '-' :: 'h' :: _ => .help
  | '-' :: 'V' :: _ => .version
  | _ =>
    match text with
    | "--help" => .help
    | "--version" => .version
    | _ => .usage

/-- The command that the words of the command line ask for. -/
def parse : List String → Except Refusal Command
  | [] => .error .usage
  | "help" :: topics => .error (helpTopic topics)
  | first :: words =>
    match Verb.ofText? first with
    | none => .error (refuse first)
    | some verb => do (← words.foldlM (Scan.addWord verb) Scan.start).command verb

end MeteredWasm.CommandLine
