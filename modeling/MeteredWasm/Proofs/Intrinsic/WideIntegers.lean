import MeteredWasm.Proofs.Intrinsic.MemoryRoutines
import MeteredWasm.Proofs.Wide.Integers

/-!
# Wide integers through the memory

The calls that shift, multiply and divide wide integers take them as halves and write their result
to the memory: sixteen bytes, the least significant first, of an integer modulo the width. A divisor
of zero is found before anything is written, and a position that does not lie in the memory after the
result is known; neither changes anything but the gas.

* `WideCall.stores_writeWide`: what writing a wide result does;
* `Intrinsic.wide_call_exact`: calls of all nine.
-/

namespace MeteredWasm

open Wasm (Value)
open Wide (unsigned signed IsDivision)

variable {ω : Type}

/-! ## §1 Outcomes -/

/-- A trap of some kind, which changes nothing. -/
def Context.Traps (c : Context ω) (t : Trap) (kind : FaultKind) (outcome : CallOutcome ω) : Prop :=
  (Fault.trap t).kind? = some kind ∧ outcome = (.error (.trap t), c)

/-- The sixteen bytes of an integer in two's complement are written, the least significant first,
and nothing else is changed; but if the memory does not hold the position, the call traps. -/
def Context.Stores (c : Context ω) (start : UInt32) (n : Int) (outcome : CallOutcome ω) : Prop :=
  (c.memory.Holds start 16 → ∃ c',
    c.Rewritten start 16 (fun k => UInt8.ofNat ((n % 2 ^ 128).toNat / 256 ^ k)) c' ∧
      outcome = (.ok none, c')) ∧
    (¬c.memory.Holds start 16 → c.Traps .outOfBounds .runtime outcome)

namespace WideCall

open Session (exec_bind_ok exec_bind_error exec_trap)

variable {c : Context ω} {start : UInt32}

/-! ## §2 Calls that are paid for -/

theorem stores_writeWide (c : Context ω) (start : UInt32) {w : Wide.Word} {n : Int}
    (hw : w = BitVec.ofInt 128 n) : c.Stores start n ((writeWide start w).exec c) := by
  subst hw
  let data := littleEndian 16 (BitVec.ofInt 128 n).toNat
  have hlength : data.length = 16 := length_littleEndian 16 _
  have hbytes : ∀ k < data.length, data[k]? = some (UInt8.ofNat ((n % 2 ^ 128).toNat / 256 ^ k)) := by
    intro k hk
    rw [← Wide.toNat_ofInt]
    exact getElem?_littleEndian _ (hlength ▸ hk)
  have hshown : LinearMemory.shown (c.memory.changed (c.memory.write start.toNat data)) =
      c.memory.view.changeIf (c.memory.Holds start 16) (c.memory.view.patch start.toNat
        (16 : UInt32).toNat fun k => UInt8.ofNat ((n % 2 ^ 128).toNat / 256 ^ k)) := by
    rw [LinearMemory.shown_write _ _ data _ (hlength.symm ▸ by decide) hbytes, hlength,
      LinearMemory.size_view]
    rfl
  obtain ⟨hin, hout⟩ := Session.exec_rewrite (f := fun m => m.write start.toNat data) none hshown
  exact ⟨hin, fun hpast => ⟨rfl, hout hpast⟩⟩

end WideCall

namespace Intrinsic

open WideCall (writeWide stores_writeWide)
open Session (exec_bind_ok exec_bind_error exec_trap)

variable {op : WideCall} {c : Context ω} {start : UInt32} {lowA highA lowB highB : UInt64}

/-- A shift writes the shifted word. -/
theorem stores_shift {f : Wide.Word → Nat → Wide.Word} (hrule : op.rule = .shift f)
    (hgas : Gas.callBase ≤ c.gas) (host : Host ω) {amount : UInt32} {n : Int}
    (hw : f (Wide.join lowA highA) amount.toNat = BitVec.ofInt 128 n) :
    (charged c).Stores start n
      (((wide op).call host [.i32 start, .i64 lowA, .i64 highA, .i32 amount]).exec c) := by
  have hargs : (wide op).signature.accepts [.i32 start, .i64 lowA, .i64 highA, .i32 amount] := by
    show op.rule.signature.accepts _
    rw [hrule]
    rfl
  rw [exec_call_paid hargs hgas, run, WideCall.run, hrule]
  exact stores_writeWide (charged c) start hw

section Binary

variable {f : Wide.Word → Wide.Word → Except Trap Wide.Word}

/-- An operation on two words comes first, and then its result is written. -/
theorem exec_binary (hrule : op.rule = .binary f) (hgas : Gas.callBase ≤ c.gas) (host : Host ω) :
    ((wide op).call host [.i32 start, .i64 lowA, .i64 highA, .i64 lowB, .i64 highB]).exec c =
      (Session.trap (f (Wide.join lowA highA) (Wide.join lowB highB)) >>= writeWide start).exec
        (charged c) := by
  have hargs : (wide op).signature.accepts
      [.i32 start, .i64 lowA, .i64 highA, .i64 lowB, .i64 highB] := by
    show op.rule.signature.accepts _
    rw [hrule]
    rfl
  rw [exec_call_paid hargs hgas, run, WideCall.run, hrule]
  rfl

theorem stores_binary (hrule : op.rule = .binary f) (hgas : Gas.callBase ≤ c.gas) (host : Host ω)
    {n : Int}
    (hresult : f (Wide.join lowA highA) (Wide.join lowB highB) = .ok (BitVec.ofInt 128 n)) :
    (charged c).Stores start n (((wide op).call host
      [.i32 start, .i64 lowA, .i64 highA, .i64 lowB, .i64 highB]).exec c) := by
  rw [exec_binary hrule hgas, hresult, exec_bind_ok (exec_trap _)]
  exact stores_writeWide (charged c) start rfl

/-- A trap comes before anything is written. -/
theorem traps_binary (hrule : op.rule = .binary f) (hgas : Gas.callBase ≤ c.gas) (host : Host ω)
    {t : Trap} {kind : FaultKind} (hkind : (Fault.trap t).kind? = some kind)
    (hresult : f (Wide.join lowA highA) (Wide.join lowB highB) = .error t) :
    (charged c).Traps t kind (((wide op).call host
      [.i32 start, .i64 lowA, .i64 highA, .i64 lowB, .i64 highB]).exec c) := by
  rw [exec_binary hrule hgas, hresult, exec_bind_error (exec_trap _)]
  exact ⟨hkind, rfl⟩

end Binary

/-! ## §3 Calls -/

/-- The outcome of a call with enough gas. Shifts write the number multiplied or divided, rounded
down, by a power of two; from 128 on no bit of it is left, but the sign when that is kept. Products
are written modulo the width. Quotients and remainders without signs are those of natural numbers;
with signs the quotient goes toward zero, and the one that is too great for a word wraps. Dividing
by zero traps, wherever the result should go. -/
theorem wide_call_exact (host : Host ω) (c : Context ω) (start : UInt32)
    (lowA highA lowB highB : UInt64) (amount : UInt32) (hgas : Gas.callBase ≤ c.gas) :
    let paid := charged c
    let shifted (op : WideCall) :=
      ((wide op).call host [.i32 start, .i64 lowA, .i64 highA, .i32 amount]).exec c
    let combined (op : WideCall) :=
      ((wide op).call host [.i32 start, .i64 lowA, .i64 highA, .i64 lowB, .i64 highB]).exec c
    let shifts (left right : Nat) (signedRight : Int) :=
      paid.Stores start left (shifted .shiftLeft) ∧
        paid.Stores start left (shifted .logicalShiftLeft) ∧
        paid.Stores start right (shifted .logicalShiftRight) ∧
        paid.Stores start signedRight (shifted .shiftRight)
    let a := unsigned lowA highA
    let b := unsigned lowB highB
    let x := signed lowA highA
    let y := signed lowB highB
    (shifts (a * 2 ^ amount.toNat) (a / 2 ^ amount.toNat) (x / (2 ^ amount.toNat : Nat)) ∧
      (128 ≤ amount.toNat → shifts 0 0 (if x < 0 then -1 else 0))) ∧
    paid.Stores start (a * b : Nat) (combined .multiply) ∧
    (b ≠ 0 → ∃ q r : Nat, a = q * b + r ∧ r < b ∧
      paid.Stores start q (combined .divideUnsigned) ∧
      paid.Stores start r (combined .remainderUnsigned)) ∧
    (b ≠ 0 → ∃ q r : Int, IsDivision x y q r ∧
      paid.Stores start q (combined .divide) ∧
      paid.Stores start r (combined .remainder)) ∧
    (b = 0 → ∀ op ∈ [.divide, .divideUnsigned, .remainder, .remainderUnsigned],
      paid.Traps .divisionByZero .arithmetic (combined op)) := by
  intro paid shifted combined shifts a b x y
  have ha : (Wide.join lowA highA).toNat = a := Wide.toNat_join lowA highA
  have hb : (Wide.join lowB highB).toNat = b := Wide.toNat_join lowB highB
  have hx : (Wide.join lowA highA).toInt = x := Wide.toInt_join lowA highA
  have hy : (Wide.join lowB highB).toInt = y := Wide.toInt_join lowB highB
  have hzero : Wide.join lowB highB = 0 ↔ b = 0 := by
    rw [← hb, ← BitVec.toNat_inj]
    rfl
  refine ⟨⟨?shifts, ?oversized⟩, ?product, ?unsigned, ?signed, ?zero⟩
  case shifts =>
    rw [← ha, ← hx]
    exact ⟨stores_shift rfl hgas host (Wide.shl_eq _ _), stores_shift rfl hgas host (Wide.shl_eq _ _),
      stores_shift rfl hgas host (Wide.lshr_eq _ _), stores_shift rfl hgas host (Wide.ashr_eq _ _)⟩
  case oversized =>
    intro hamount
    have hleft : Wide.shl (Wide.join lowA highA) amount.toNat = 0 := if_neg (Nat.not_lt.mpr hamount)
    have hright : Wide.lshr (Wide.join lowA highA) amount.toNat = 0 :=
      if_neg (Nat.not_lt.mpr hamount)
    refine ⟨stores_shift rfl hgas host hleft, stores_shift rfl hgas host hleft,
      stores_shift rfl hgas host hright, stores_shift rfl hgas host ?_⟩
    rw [Wide.ashr_eq, Wide.toInt_div_two_pow _ (Nat.le_of_succ_le hamount), hx]
  case product =>
    rw [← ha, ← hb]
    exact stores_binary rfl hgas host (congrArg Except.ok (Wide.mul_eq _ _))
  case unsigned =>
    intro hb0
    have hq := Wide.divUnsigned_eq (Wide.join lowA highA) (hzero.not.mpr hb0)
    have hr := Wide.remUnsigned_eq (Wide.join lowA highA) (hzero.not.mpr hb0)
    rw [ha, hb] at hq hr
    exact ⟨a / b, a % b, (Nat.div_add_mod' a b).symm, Nat.mod_lt a (Nat.pos_of_ne_zero hb0),
      stores_binary rfl hgas host hq, stores_binary rfl hgas host hr⟩
  case signed =>
    intro hb0
    have hdivision := Wide.isDivision (Wide.join lowA highA) (hzero.not.mpr hb0)
    rw [hx, hy] at hdivision
    exact ⟨_, _, hdivision,
      stores_binary rfl hgas host (Wide.divSigned_eq _ (hzero.not.mpr hb0)),
      stores_binary rfl hgas host (Wide.remSigned_eq _ (hzero.not.mpr hb0))⟩
  case zero =>
    intro hb0
    have hv := hzero.mpr hb0
    have htraps {op : WideCall} {quotient : Wide.Word → Wide.Word → Wide.Word}
        (hrule : op.rule = .binary fun u v => Wide.dividing v (quotient u v)) :
        paid.Traps .divisionByZero .arithmetic (combined op) := by
      apply traps_binary hrule hgas host rfl
      rw [hv, Wide.dividing_zero]
    simp only [List.forall_mem_cons, List.not_mem_nil]
    exact ⟨htraps rfl, htraps rfl, htraps rfl, htraps rfl, nofun⟩

/-- The least integer by minus one, with the last sixteen bytes of a page for the result: the quotient
wraps, and nothing remains. -/
theorem wide_call_exact_least :
    let c := Context.start () (.withPages 1) 100 default default default
    Gas.callBase ≤ c.gas ∧
      ∀ host : Host Unit,
        let outcome (op : WideCall) := ((wide op).call host [.i32 65520, .i64 0,
          .i64 9223372036854775808, .i64 18446744073709551615, .i64 18446744073709551615]).exec c
        c.memory.Holds 65520 16 ∧ (charged c).Stores 65520 (-2 ^ 127) (outcome .divide) ∧
          (charged c).Stores 65520 0 (outcome .remainder) := by
  intro c
  have hgas : Gas.callBase ≤ c.gas := by decide
  refine ⟨hgas, ?_⟩
  intro host outcome
  have hholds : c.memory.Holds 65520 16 := by
    show _ ≤ (LinearMemory.withPages 1).size
    rw [LinearMemory.size_eq]
    decide
  obtain ⟨-, -, -, hsigned, -⟩ := wide_call_exact host c 65520 0 9223372036854775808
    18446744073709551615 18446744073709551615 0 hgas
  obtain ⟨q, r, hdivision, hq, hr⟩ := hsigned (by decide)
  obtain ⟨rfl, rfl⟩ := hdivision.overflow (by decide) (by decide)
  exact ⟨hholds, hq, hr⟩

end Intrinsic

end MeteredWasm
