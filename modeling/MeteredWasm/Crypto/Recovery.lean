import MeteredWasm.Account
import MeteredWasm.Crypto.Secp256k1
import MeteredWasm.Endian

/-!
# Key recovery

The public key under which a signature of a digest is valid. A signature is two scalars of
thirty-two bytes and a recovery id, which tells the point behind the first scalar from the others
it could come from.
-/

namespace MeteredWasm.Crypto

open Secp256k1

-- Powers of numbers are the core library's, whatever algebra is in scope.
attribute [local instance (high)] instPowNat

/-- The length of a signature in bytes. -/
def signatureLength : Nat := 65

/-- The length of a public key in bytes. -/
def publicKeyLength : Nat := 33

/-- A public key: a point in compressed form. -/
abbrev PublicKey := Vector UInt8 publicKeyLength

/-- The compressed form of a point: the parity of its ordinate and its abscissa. -/
def compressed (x y : Nat) : PublicKey :=
  Vector.ofFn fun i =>
    if i.val = 0 then UInt8.ofNat (2 + y % 2) else UInt8.ofNat (x / 256 ^ (32 - i.val) % 256)

/-- A recovery id as it is meant: 27 and 28 stand for zero and one. -/
def plainRecoveryId (id : UInt8) : UInt8 :=
  if id = 27 ∨ id = 28 then id - 27 else id

/-- The point behind the first scalar. The low bit of the recovery id is the parity of its ordinate,
and the next one tells that its abscissa was reduced. -/
def noncePoint? (r : Nat) (id : Nat) : Option Point :=
  Point.lift? (if id < 2 then r else r + order) (id % 2 == 1)

/-- The key point: what makes the signature of `z` with the given scalars valid. -/
def keyPoint (nonce : Point) (r s z : Nat) : Point :=
  let inv := inverse order r
  (Point.times 256 (subMod order 0 (inv * z)) .generator).add
    (Point.times 256 (inv * s % order) nonce)

/-- The public key that signed a digest. Scalars are positive and less than the order, and the
second one at most half of it. -/
def recoverKey (digest : Digest) (signature : List UInt8) : Except Fault PublicKey := do
  if signature.length ≠ signatureLength then throw (.signatureLength signature.length)
  let r := ofBigEndian (signature.take 32)
  let s := ofBigEndian ((signature.drop 32).take 32)
  if r = 0 ∨ order ≤ r ∨ s = 0 ∨ order ≤ s then throw .malformedSignature
  let id := plainRecoveryId (signature.getD 64 0)
  if 3 < id then throw (.recoveryId id)
  match noncePoint? r id.toNat with
  | none => throw .keyRecovery
  | some nonce =>
    match keyPoint nonce r s (ofBigEndian digest.toBytes) with
    | .infinity => throw .keyRecovery
    | .affine x y => if order / 2 < s then throw .keyRecovery else return compressed x y

end MeteredWasm.Crypto
