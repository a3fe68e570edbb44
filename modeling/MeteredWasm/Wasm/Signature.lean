/-!
# Value types, signatures and values

The four number types of WebAssembly, function signatures with at most one result, and the values
that cross the boundary between a module and its host. Float values are carried as bit patterns,
so the payload and the signalling bit of a NaN are never lost.
-/

namespace MeteredWasm.Wasm

/-! ## §1 Types -/

/-- The number types. -/
inductive ValueType where
  | i32
  | i64
  | f32
  | f64
deriving DecidableEq, Inhabited, Repr

/-- A type's name in the text format. -/
def ValueType.name : ValueType → String
  | .i32 => "i32"
  | .i64 => "i64"
  | .f32 => "f32"
  | .f64 => "f64"

/-- The two types whose arithmetic a module must not leave to the machine. -/
def ValueType.isFloat : ValueType → Bool
  | .f32 | .f64 => true
  | .i32 | .i64 => false

/-- A function signature: any number of parameters and at most one result. -/
structure Signature where
  params : List ValueType
  result : Option ValueType
deriving DecidableEq, Inhabited, Repr

/-- The text of a signature: the parameters in parentheses, then an arrow and the result, if any. -/
def Signature.text (s : Signature) : String :=
  let params := "(" ++ ", ".intercalate (s.params.map ValueType.name) ++ ")"
  match s.result with
  | none => params
  | some r => params ++ " -> " ++ r.name

/-! ## §2 Values -/

/-- A value, as the word that represents it: two's complement for the integers, the interchange
encoding for the floats. -/
inductive Value where
  | i32 (bits : UInt32)
  | i64 (bits : UInt64)
  | f32 (bits : UInt32)
  | f64 (bits : UInt64)
deriving DecidableEq, Inhabited, Repr

/-- The type of a value. -/
def Value.type : Value → ValueType
  | .i32 _ => .i32
  | .i64 _ => .i64
  | .f32 _ => .f32
  | .f64 _ => .f64

/-- The `i32` that stands for a truth value. -/
def Value.ofBool (b : Bool) : Value :=
  .i32 (if b then 1 else 0)

/-- The `i32` whose two's complement value is `i`, modulo `2 ^ 32`. -/
def Value.ofInt32 (i : Int32) : Value :=
  .i32 i.toUInt32

/-- Arguments fit a signature when there are as many as parameters and each has its type. -/
def Signature.accepts (s : Signature) (args : List Value) : Bool :=
  args.map Value.type == s.params

end MeteredWasm.Wasm
