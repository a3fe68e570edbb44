import MeteredWasm.Fault

/-!
# Accounts, digests and state keys

Fixed-width byte strings that identify accounts and contents, and the opaque handle by which the
host recognises an invocation.
-/

namespace MeteredWasm

/-- The address of an account: twenty bytes. -/
structure Address where
  bytes : Vector UInt8 20
deriving DecidableEq

instance : Inhabited Address := ⟨⟨.replicate 20 0⟩⟩

namespace Address

/-- The length of an address in bytes. -/
def length : Nat := 20

/-- An address from bytes, which must be exactly twenty. -/
def ofBytes (bytes : List UInt8) : Except Fault Address :=
  if h : bytes.length = 20 then .ok ⟨⟨bytes.toArray, by simpa using h⟩⟩
  else .error (.addressLength bytes.length)

/-- The bytes of an address. -/
def toBytes (a : Address) : List UInt8 :=
  a.bytes.toList

end Address

/-- A content digest: thirty-two bytes. -/
structure Digest where
  bytes : Vector UInt8 32
deriving DecidableEq

instance : Inhabited Digest := ⟨⟨.replicate 32 0⟩⟩

namespace Digest

/-- The bytes of a digest. -/
def toBytes (d : Digest) : List UInt8 :=
  d.bytes.toList

/-- A digest from bytes, when there are thirty-two. -/
def ofBytes? (bytes : List UInt8) : Option Digest :=
  if h : bytes.length = 32 then some ⟨⟨bytes.toArray, by simpa using h⟩⟩ else none

/-- A digest in hexadecimal. -/
def text (d : Digest) : String :=
  Text.hexBytes d.toBytes

end Digest

/-- The handle of an invocation, passed back to the host with every callback. -/
structure StateKey where
  value : UInt64
deriving DecidableEq, Inhabited

end MeteredWasm
