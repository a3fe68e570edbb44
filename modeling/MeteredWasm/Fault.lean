import MeteredWasm.Text.Hex
import MeteredWasm.Text.Utf8
import MeteredWasm.Wasm.Signature

/-!
# Faults

Every way in which decoding, instrumenting or running a contract can fail, as a cause. What is
reported about a cause is derived from it: its kind, its status code and its message. An embedder
(the engine, the host) may report a fault of any kind in its own words.
-/

namespace MeteredWasm

open Wasm (Signature)

/-! ## §1 Causes -/

/-- Faults of single memory accesses and arithmetic operations. -/
inductive Trap where
  | outOfBounds
  | divisionByZero
  | integerOverflow
deriving DecidableEq, Inhabited, Repr

/-- The words for a trap. -/
def Trap.message : Trap → String
  | .outOfBounds => "access violation"
  | .divisionByZero => "divide by zero"
  | .integerOverflow => "integer overflow in float conversion"

/-- The kinds into which faults are sorted; the status code depends on nothing else. -/
inductive FaultKind where
  | invalidName
  | invalidAddress
  | runtime
  | serialization
  | overlappingMemory
  | crypto
  | arithmetic
deriving DecidableEq, Inhabited, Repr

/-- Why bytes are not a module of the accepted language. -/
inductive Malformed where
  | unexpectedEnd
  | badHeader
  | integerTooLong
  | integerTooLarge
  | badText
  | sectionOrder
  | unknownSection
  | trailingBytes
  | badType
  | badFlags
  | tooMany
  | unknownOpcode (opcode : UInt8)
  | nonzeroReserved
  | alignment
  | unknownIndex
  | inconsistentLengths
  | duplicateExport
  | badLimits
  | notConstant
  | immutableGlobal
  | typeMismatch
  | badStart
  | missingEnd
  | codeAfterEnd
  | elseWithoutIf
deriving DecidableEq, Inhabited, Repr

/-- The words for a malformed module. -/
def Malformed.message : Malformed → String
  | .unexpectedEnd => "unexpected end of input"
  | .badHeader => "not a version 1 module"
  | .integerTooLong => "integer representation too long"
  | .integerTooLarge => "integer too large"
  | .badText => "malformed UTF-8 text"
  | .sectionOrder => "section out of order"
  | .unknownSection => "unknown section"
  | .trailingBytes => "trailing bytes"
  | .badType => "unknown type"
  | .badFlags => "unknown flags"
  | .tooMany => "too many items"
  | .unknownOpcode opcode => "unknown opcode 0x" ++ Text.hexWord 2 opcode.toNat
  | .nonzeroReserved => "reserved byte is not zero"
  | .alignment => "alignment larger than natural"
  | .unknownIndex => "index out of range"
  | .inconsistentLengths => "sections have inconsistent lengths"
  | .duplicateExport => "duplicate export name"
  | .badLimits => "limits out of range"
  | .notConstant => "constant expression required"
  | .immutableGlobal => "global is immutable"
  | .typeMismatch => "type mismatch"
  | .badStart => "start function has parameters or a result"
  | .missingEnd => "control frames remain at the end of a function"
  | .codeAfterEnd => "code after the end of a function"
  | .elseWithoutIf => "else without if"

/-- The two kinds of segment whose offset must be a plain constant. -/
inductive SegmentKind where
  | data
  | element
deriving DecidableEq, Inhabited, Repr

/-- The word for a kind of segment. -/
def SegmentKind.name : SegmentKind → String
  | .data => "data"
  | .element => "element"

/-- Everything that can go wrong. `exit` is not a fault but travels the same way: it stops the
running module, and the call boundary turns it into a normal completion. -/
inductive Fault where
  | nameTooLong (text : String)
  | nameNotNormal (text normalized : String)
  | addressLength (length : Nat)
  | addressArgument
  | payloadTooShort (length : Nat)
  | malformed (cause : Malformed)
  | passiveDataSegment
  | segmentOffset (kind : SegmentKind)
  | trap (cause : Trap)
  | outOfGas (need have_ : Nat)
  | callDepth (depth limit : UInt32)
  | initialMemory (initial ceiling : Nat)
  | dataWithoutMemory
  | dataOutsideMemory
  | unknownFloatOpcode (opcode : UInt8)
  | unresolvedImport (namespace_ name : String)
  | importSignature (namespace_ name : String) (declared provided : Signature)
  | importWithoutType (name : String)
  | importNotFunction (namespace_ name : String)
  | argumentTypes (namespace_ name : String) (expected : Signature)
  | unmatchedArguments
  | exportArity (name : String) (expected given : Nat)
  | entryPointParameter (name : String)
  | assertionMessage (message : List UInt8)
  | assertionCode (code : UInt64)
  | aborted
  | overlappingCopy
  | signatureLength (length : Nat)
  | malformedSignature
  | recoveryId (id : UInt8)
  | keyRecovery
  | keyMismatch
  | keyBufferTooSmall (length : Nat)
  | hashMismatch
  | exit (code : Int32)
  | reported (kind : FaultKind) (text : String)
deriving DecidableEq, Repr

instance : Inhabited Fault := ⟨.aborted⟩

/-! ## §2 What is reported -/

/-- The kind of a fault; an exit has none. -/
def Fault.kind? : Fault → Option FaultKind
  | .nameTooLong _ | .nameNotNormal _ _ => some .invalidName
  | .addressLength _ | .addressArgument => some .invalidAddress
  | .payloadTooShort _ | .malformed _ | .passiveDataSegment | .segmentOffset _ =>
    some .serialization
  | .trap .divisionByZero => some .arithmetic
  | .trap .outOfBounds | .trap .integerOverflow
  | .outOfGas _ _ | .callDepth _ _ | .initialMemory _ _ | .dataWithoutMemory | .dataOutsideMemory
  | .unknownFloatOpcode _ | .unresolvedImport _ _ | .importSignature _ _ _ _ | .importWithoutType _
  | .importNotFunction _ _ | .argumentTypes _ _ _ | .unmatchedArguments
  | .exportArity _ _ _ | .entryPointParameter _ | .assertionMessage _ | .assertionCode _
  | .aborted => some .runtime
  | .overlappingCopy => some .overlappingMemory
  | .signatureLength _ | .malformedSignature | .recoveryId _ | .keyRecovery | .keyMismatch
  | .keyBufferTooSmall _ | .hashMismatch => some .crypto
  | .exit _ => none
  | .reported kind _ => some kind

/-- The words in front of every message of a kind. -/
def FaultKind.heading : FaultKind → String
  | .invalidName => "invalid name: "
  | .invalidAddress => "invalid address: "
  | .runtime => "runtime error: "
  | .serialization => "serialization error: "
  | .overlappingMemory => "overlapping memory: "
  | .crypto => "crypto error: "
  | .arithmetic => "arithmetic error: "

/-- The status code of a kind. -/
def FaultKind.code : FaultKind → Nat
  | .invalidName => 20001
  | .invalidAddress => 20002
  | .runtime => 20003
  | .serialization => 20004
  | .overlappingMemory => 20005
  | .crypto => 20006
  | .arithmetic => 20007

/-- The status code of a fault; an exit counts as success. -/
def Fault.code (f : Fault) : Nat :=
  match f.kind? with
  | some kind => kind.code
  | none => 0

/-- What happened, without the heading of its kind. -/
def Fault.detail : Fault → String
  | .nameTooLong text => s!"name is longer than 13 characters ({text})"
  | .nameNotNormal text normalized =>
    s!"name not properly normalized (name: {text}, normalized: {normalized})"
  | .addressLength length => s!"expected 20 bytes, got {length}"
  | .addressArgument => "address exception"
  | .payloadTooShort length => s!"action payload of {length} bytes is shorter than its name"
  | .malformed cause => cause.message
  | .passiveDataSegment => "unsupported data segment"
  | .segmentOffset kind => kind.name ++ " segment offset must be i32.const"
  | .trap cause => cause.message
  | .outOfGas need have_ => s!"gas limit exceeded: need {need}, have {have_}"
  | .callDepth depth limit => s!"call depth {depth} exceeds the limit of {limit}"
  | .initialMemory initial ceiling =>
    s!"initial memory of {initial} pages exceeds the limit of {ceiling} pages"
  | .dataWithoutMemory => "data segments without a memory"
  | .dataOutsideMemory => "data segment outside of valid memory range"
  | .unknownFloatOpcode opcode =>
    "unknown opcode in injection: 0x" ++ Text.hexWord 2 opcode.toNat
  | .unresolvedImport namespace_ name => s!"unresolved import {namespace_}.{name}"
  | .importSignature namespace_ name declared provided =>
    s!"import {namespace_}.{name} declared as " ++ declared.text ++ ", but the host provides "
      ++ provided.text
  | .importWithoutType name => s!"import {name} has no type"
  | .importNotFunction namespace_ name =>
    s!"unresolved import {namespace_}.{name}: only functions can be imported"
  | .argumentTypes namespace_ name expected =>
    s!"type mismatch calling {namespace_}.{name}: expected " ++ expected.text
  | .unmatchedArguments => "missing or mistyped argument"
  | .exportArity name expected given =>
    s!"export {name} takes {expected} arguments, got {given}"
  | .entryPointParameter name => s!"{name} must take an i64 action name"
  | .assertionMessage message =>
    "assertion failure with message: " ++ Text.Utf8.decodeLossy message
  | .assertionCode code => s!"assertion failure with error code: {code}"
  | .aborted => "abort() called"
  | .overlappingCopy => "memcpy can only accept non-aliasing pointers"
  | .signatureLength length => s!"signature must be 65 bytes, got {length}"
  | .malformedSignature => "malformed signature: signature error"
  | .recoveryId id => s!"invalid recovery id {id}"
  | .keyRecovery => "key recovery failed: signature error"
  | .keyMismatch => "public key does not match the recovered key"
  | .keyBufferTooSmall length => s!"public key buffer of {length} bytes is too small"
  | .hashMismatch => "hash mismatch"
  | .exit code => s!"module exited with code {code}"
  | .reported _ text => text

/-- The whole message of a fault. -/
def Fault.message (f : Fault) : String :=
  match f.kind? with
  | some kind => kind.heading ++ f.detail
  | none => f.detail

/-- A fault the running module or its engine reports in its own words. -/
def Fault.runtime (text : String) : Fault :=
  .reported .runtime text

end MeteredWasm
