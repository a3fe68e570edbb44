import MeteredWasm.Proofs.Metering.Outcome

/-!
# Charges in a body

A charge is a constant that is pushed for a call of the first function. Taking all charges out of a
metered body leaves the image of each instruction, in order.
-/

namespace MeteredWasm.Metering

open Wasm (Instr)

/-! ## §1 Amounts -/

/-- The amount that an instruction pushes, if it pushes a 64-bit constant. -/
def amount? (i : Instr) : Option Nat :=
  match i.operator? with
  | some (.const (.i64 bits)) => some bits.toNat
  | _ => none

/-- No instruction is dearer than a square root. -/
theorem price_le (opcode : UInt8) : Gas.price opcode ≤ 2000 := by
  have htable : ∀ opcode : UInt8, Gas.price opcode ≤ 2000 :=
    Wasm.forall_byte (by decide +kernel)
  exact htable opcode

/-- What may be pending before some code, so that no charge is too large for a signed word. -/
def Fits (pending : Nat) (code : List Instr) : Prop :=
  pending + 2000 * code.length < 2 ^ 63

theorem Fits.tail {pending : Nat} {i : Instr} {rest : List Instr}
    (h : Fits pending (i :: rest)) : Fits (pendingAfter pending i) rest := by
  have hprice := price_le i.opcode
  unfold Fits pendingAfter at *
  rw [List.length_cons] at h
  split_ifs <;> omega

theorem Fits.cost {pending : Nat} {i : Instr} {rest : List Instr}
    (h : Fits pending (i :: rest)) : pending + Gas.price i.opcode < 2 ^ 63 := by
  have hprice := price_le i.opcode
  unfold Fits at h
  rw [List.length_cons] at h
  omega

/-- No body is so long that a charge in it could get too large. -/
theorem Metered.fits {m m' : Wasm.Module} {k : Nat} {image : Instr → Instr}
    (h : Metered m k image m') {f : Wasm.Function} (hf : f ∈ m.functions) : Fits 0 f.body := by
  have hlength := (h.spelled f hf).length
  unfold Fits
  omega

/-- A charge is spelled by its constant, as long as a signed word can hold it. -/
theorem constI64_spelled {amount : Nat} (h : amount < 2 ^ 63) :
    (Instr.constI64 amount).Spelled (.const (.i64 (UInt64.ofInt amount))) := by
  -- the constant is written as a signed integer, and its bits are those of the amount
  have hrange : -(2 ^ (64 - 1)) ≤ (amount : Int) ∧ (amount : Int) < 2 ^ (64 - 1) := by
    omega
  exact ⟨0x42, Wasm.Leb.signed amount, .i64Const (Wasm.Parser.signed_reads hrange), rfl⟩

theorem amount?_constI64 {amount : Nat} (h : amount < 2 ^ 63) :
    amount? (.constI64 amount) = some amount := by
  rw [amount?, (constI64_spelled h).operator?]
  show some (UInt64.ofInt amount).toNat = some amount
  rw [UInt64.ofInt, UInt64.toNat_ofNat']
  congr 1
  omega

/-! ## §2 Taking charges out -/

/-- The instructions without the pairs of a pushed amount and a call of the first function. -/
def uncharge : List Instr → List Instr
  | [] => []
  | [i] => [i]
  | i :: j :: rest =>
    if (amount? i).isSome ∧ j = .call 0 then uncharge rest else i :: uncharge (j :: rest)

theorem uncharge_pair {amount : Nat} (h : amount < 2 ^ 63) (rest : List Instr) :
    uncharge (.constI64 amount :: .call 0 :: rest) = uncharge rest := by
  rw [uncharge, amount?_constI64 h, if_pos ⟨rfl, rfl⟩]

/-- An instruction stays when no call of the first function follows it. -/
theorem uncharge_cons {i : Instr} {rest : List Instr} (h : rest.head? ≠ some (.call 0)) :
    uncharge (i :: rest) = i :: uncharge rest := by
  cases rest with
  | nil => rfl
  | cons j rest =>
    rw [uncharge, if_neg]
    intro hpair
    exact h (by rw [hpair.2]; rfl)

/-- No charge is left of the charge in front of an instruction. -/
theorem uncharge_chargeFor {pending : Nat} {i : Instr} {rest : List Instr}
    (hcost : pending + Gas.price i.opcode < 2 ^ 63) :
    uncharge (chargeFor pending i ++ rest) = uncharge rest := by
  rcases chargeFor_cases pending i with ⟨-, -, hfor⟩ | ⟨hfor, -, -⟩
  · rw [hfor, List.cons_append, List.cons_append, List.nil_append, uncharge_pair hcost]
  · rw [hfor, List.nil_append]

/-- A metered body does not start with a call of the first function. -/
theorem head?_meter {image : Instr → Instr} {pending : Nat} {code : List Instr}
    (himage : ∀ i ∈ code, image i ≠ .call 0) :
    (meter image pending code).head? ≠ some (.call 0) := by
  intro hfirst
  cases code with
  | nil => cases hfirst
  | cons i rest =>
    rw [meter] at hfirst
    rcases chargeFor_cases pending i with ⟨-, -, hfor⟩ | ⟨hfor, -, -⟩
    · rw [hfor] at hfirst
      cases hfirst
    · rw [hfor] at hfirst
      exact himage i List.mem_cons_self (Option.some.inj hfirst)

/-- Without its charges, a metered body is the image of the body. -/
theorem uncharge_meter {image : Instr → Instr} {pending : Nat} {code : List Instr}
    (himage : ∀ i ∈ code, image i ≠ .call 0) (hfits : Fits pending code) :
    uncharge (meter image pending code) = code.map image := by
  -- what is pending changes from one instruction to the next
  induction code generalizing pending with
  | nil => rfl
  | cons i rest ih =>
    have hrest : ∀ i ∈ rest, image i ≠ .call 0 :=
      fun i' hi' => himage i' (List.mem_cons_of_mem _ hi')
    rw [meter, uncharge_chargeFor hfits.cost, uncharge_cons (head?_meter hrest),
      ih hrest hfits.tail, List.map_cons]

end MeteredWasm.Metering
