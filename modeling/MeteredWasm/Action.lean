import MeteredWasm.Endian
import MeteredWasm.Name

/-!
# Actions

A payload names the action to run and carries its data: eight bytes of name, least significant
first, then the data.
-/

namespace MeteredWasm

/-- A request to a contract. -/
structure Action where
  name : Name
  data : List UInt8
deriving DecidableEq, Inhabited

namespace Action

/-- Split a payload into its name and its data. -/
def ofPayload (payload : List UInt8) : Except Fault Action :=
  if payload.length < 8 then .error (.payloadTooShort payload.length)
  else .ok ⟨⟨UInt64.ofNat (ofLittleEndian (payload.take 8))⟩, payload.drop 8⟩

/-- The payload of an action. -/
def payload (a : Action) : List UInt8 :=
  littleEndian 8 a.name.value.toNat ++ a.data

end Action

end MeteredWasm
