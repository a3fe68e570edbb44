import MeteredWasm.Proofs.Intrinsic.Effects
import MeteredWasm.Proofs.Memory.Refinement

/-!
# What the memory routines do

Copying, moving, comparing and filling are said of plain bytes: which ranges must lie in the memory,
which bytes stand where afterwards, and which byte decides a comparison. A price by the length is
taken first, and a routine that fails changes nothing but the gas.

* `MemoryCall.overlap_iff`: when two ranges have an offset in common;
* `MemoryCall.verdict_order`: the first difference decides;
* `MemoryCall.exec_move`, `exec_copy`, `exec_compare`, `exec_fill`: the routines, once they are paid;
* `Intrinsic.memory_call_exact`: calls of all four.
-/

namespace MeteredWasm

open Wasm (Value)

/-! ## §1 Ranges -/

/-- An offset inside a range. -/
def Covers (start length : UInt32) (i : Nat) : Prop :=
  start.toNat ≤ i ∧ i < start.toNat + length.toNat

/-- A range that lies in a memory. -/
def LinearMemory.Holds (m : LinearMemory) (start length : UInt32) : Prop :=
  start.toNat + length.toNat ≤ m.size

instance (m : LinearMemory) (start length : UInt32) : Decidable (m.Holds start length) :=
  inferInstanceAs (Decidable (_ ≤ _))

/-- Other bytes in one range of the memory, each given by its distance from the start, and nothing
else changed. -/
def Context.Rewritten {ω : Type} (c : Context ω) (start length : UInt32) (f : Nat → UInt8)
    (c' : Context ω) : Prop :=
  ∃ memory, memory.view = c.memory.view.patch start.toNat length.toNat f ∧
    c' = { c with memory := memory }

/-- A change of the memory that means overwriting a range under a condition. -/
theorem Session.exec_rewrite {ω : Type} {c : Context ω} {start length : UInt32}
    {f : LinearMemory → Except Trap LinearMemory} {fits : Prop} [Decidable fits]
    {bytes : Nat → UInt8} (result : Option Value)
    (h : LinearMemory.shown (c.memory.changed (f c.memory)) =
      c.memory.view.changeIf fits (c.memory.view.patch start.toNat length.toNat bytes)) :
    let x : Session ω (Option Value) := do
      Session.changeMemory f
      return result
    (fits → ∃ c', c.Rewritten start length bytes c' ∧ x.exec c = (.ok result, c')) ∧
      (¬fits → x.exec c = (.error (.trap .outOfBounds), c)) := by
  intro x
  unfold PagedBytes.changeIf at h
  cases hchange : f c.memory with
  | ok memory =>
    rw [hchange] at h
    split_ifs at h with hfits
    · have hview := congrArg Prod.snd h
      exact ⟨fun _ => ⟨_, ⟨memory, hview, rfl⟩, exec_bind_ok (exec_changeMemory_ok hchange)⟩,
        absurd hfits⟩
    · cases congrArg Prod.fst h
  | error t =>
    rw [hchange] at h
    split_ifs at h with hfits
    · cases congrArg Prod.fst h
    · cases congrArg Prod.fst h
      exact ⟨fun h => absurd h hfits, fun _ => exec_bind_error (exec_changeMemory_error hchange)⟩

/-- Ranges of one length share an offset when their starts are closer than the length. The greater
start is shared then, and neither range is empty. -/
theorem MemoryCall.overlap_iff {a b length : UInt32} :
    overlap a b length = true ↔ ∃ i, Covers a length i ∧ Covers b length i := by
  unfold overlap Covers
  rw [decide_eq_true_iff]
  constructor
  · intro hclose
    refine ⟨max a.toNat b.toNat, ?_, ?_⟩ <;> omega
  · rintro ⟨i, ha, hb⟩
    omega

/-! ## §2 The first difference -/

/-- The result of comparing: zero for equal bytes, and else the sign of the first difference. -/
def MemoryCall.Verdict (x y : Nat → UInt8) (length : Nat) (result : Int32) : Prop :=
  ((∀ k < length, x k = y k) ∧ result = 0) ∨
    ∃ k < length, (∀ j < k, x j = y j) ∧ x k ≠ y k ∧ result = if x k < y k then -1 else 1

theorem MemoryCall.order_cons (x y : UInt8) (xs ys : List UInt8) :
    order (x :: xs) (y :: ys) = if x = y then order xs ys else if x < y then -1 else 1 := by
  unfold order
  simp only [List.cons_lt_cons_iff, List.cons.injEq]
  by_cases hxy : x = y
  · subst hxy
    simp only [UInt8.lt_irrefl, false_or, true_and, if_true]
  · simp only [hxy, false_and, or_false, if_false]

/-- Bytes that agree in front are compared behind. -/
theorem MemoryCall.Verdict.cons {x y : Nat → UInt8} {length : Nat} {result : Int32}
    (hfirst : x 0 = y 0) (h : Verdict (fun k => x (k + 1)) (fun k => y (k + 1)) length result) :
    Verdict x y (length + 1) result := by
  have hfront {bound : Nat} (hsame : ∀ j < bound, x (j + 1) = y (j + 1)) :
      ∀ j < bound + 1, x j = y j := by
    intro j hj
    cases j with
    | zero => exact hfirst
    | succ j => exact hsame j (Nat.lt_of_succ_lt_succ hj)
  rcases h with ⟨hsame, hresult⟩ | ⟨k, hk, hsame, hdiffer, hresult⟩
  · exact .inl ⟨hfront hsame, hresult⟩
  · exact .inr ⟨k + 1, Nat.succ_lt_succ hk, hfront hsame, hdiffer, hresult⟩

/-- The order of two stretches of bytes is decided by their first difference. -/
theorem MemoryCall.verdict_order (byte : Nat → UInt8) (a b length : Nat) :
    Verdict (fun k => byte (a + k)) (fun k => byte (b + k)) length
      (order (stretch byte a length) (stretch byte b length)) := by
  induction length generalizing a b with
  | zero => exact .inl ⟨nofun, rfl⟩
  | succ length ih =>
    rw [stretch_succ, stretch_succ, order_cons]
    split_ifs with hfirst hless
    · apply Verdict.cons hfirst
      have hrest := ih (a + 1) (b + 1)
      simp only [Nat.add_right_comm _ 1] at hrest
      exact hrest
    · exact .inr ⟨0, Nat.succ_pos length, nofun, hfirst, (if_pos hless).symm⟩
    · exact .inr ⟨0, Nat.succ_pos length, nofun, hfirst, (if_neg hless).symm⟩

/-! ## §3 Routines that are paid for -/

namespace MemoryCall

open Session (exec_bind_ok exec_bind_error exec_slice)
open LinearMemory (shown_copyWithin shown_fill)

variable {ω : Type} {c : Context ω} {dst src length : UInt32}

theorem exec_move (c : Context ω) (dst src length : UInt32) :
    let x : Session ω (Option Value) := move.run [.i32 dst, .i32 src, .i32 length]
    (c.memory.Holds src length ∧ c.memory.Holds dst length →
      ∃ c', c.Rewritten dst length (fun k => c.memory.view.byte (src.toNat + k)) c' ∧
        x.exec c = (.ok (some (.i32 dst)), c')) ∧
      (¬(c.memory.Holds src length ∧ c.memory.Holds dst length) →
        x.exec c = (.error (.trap .outOfBounds), c)) := by
  have hshown := shown_copyWithin c.memory dst.toNat src.toNat length.toNat
  rw [LinearMemory.size_view] at hshown
  exact Session.exec_rewrite (some (.i32 dst)) hshown

theorem exec_fill (c : Context ω) (dst value length : UInt32) :
    let x : Session ω (Option Value) := fill.run [.i32 dst, .i32 value, .i32 length]
    (c.memory.Holds dst length →
      ∃ c', c.Rewritten dst length (fun _ => UInt8.ofNat (value.toNat % 256)) c' ∧
        x.exec c = (.ok (some (.i32 dst)), c')) ∧
      (¬c.memory.Holds dst length → x.exec c = (.error (.trap .outOfBounds), c)) := by
  have hlow : UInt8.ofNat (value.toNat % 256) = value.toUInt8 := by
    apply UInt8.toNat_inj.mp
    rw [UInt8.toNat_ofNat', UInt32.toNat_toUInt8, Nat.mod_mod]
  have hshown := shown_fill c.memory dst.toNat value.toUInt8 length.toNat
  rw [LinearMemory.size_view] at hshown
  rw [hlow]
  exact Session.exec_rewrite (some (.i32 dst)) hshown

/-- Copying is moving, unless the ranges share an offset. -/
theorem exec_copy (c : Context ω) (dst src length : UInt32) :
    let args : List Value := [.i32 dst, .i32 src, .i32 length]
    (copy.run args : Session ω _).exec c =
      if overlap dst src length then (.error .overlappingCopy, c)
      else (move.run args : Session ω _).exec c := by
  intro args
  cases hoverlap : overlap dst src length <;> simp only [args, run, hoverlap] <;> rfl

theorem exec_slice_bind (c : Context ω) (start length : UInt32)
    (f : List UInt8 → Session ω (Option Value)) :
    (Session.slice start length >>= f).exec c =
      if c.memory.Holds start length then
        (f (stretch c.memory.view.byte start.toNat length.toNat)).exec c
      else (.error (.trap .outOfBounds), c) := by
  have hslice : c.memory.slice start.toNat length.toNat =
      if c.memory.Holds start length then
        .ok (stretch c.memory.view.byte start.toNat length.toNat)
      else .error .outOfBounds := LinearMemory.slice_eq _ _ _
  have hexec := exec_slice (c := c) start length
  rw [hslice] at hexec
  split_ifs at hexec ⊢
  · exact exec_bind_ok hexec
  · exact exec_bind_error hexec

theorem exec_compare (c : Context ω) (a b length : UInt32) :
    let x : Session ω (Option Value) := compare.run [.i32 a, .i32 b, .i32 length]
    (c.memory.Holds a length ∧ c.memory.Holds b length →
      ∃ result, Verdict (fun k => c.memory.view.byte (a.toNat + k))
          (fun k => c.memory.view.byte (b.toNat + k)) length.toNat result ∧
        x.exec c = (.ok (some (.ofInt32 result)), c)) ∧
      (¬(c.memory.Holds a length ∧ c.memory.Holds b length) →
        x.exec c = (.error (.trap .outOfBounds), c)) := by
  intro x
  have hx : x.exec c = if c.memory.Holds a length then
      if c.memory.Holds b length then
        (.ok (some (.ofInt32 (order (stretch c.memory.view.byte a.toNat length.toNat)
          (stretch c.memory.view.byte b.toNat length.toNat)))), c)
      else (.error (.trap .outOfBounds), c)
      else (.error (.trap .outOfBounds), c) := by
    rw [show x = Session.slice a length >>= fun first => Session.slice b length >>= fun second =>
      pure (some (.ofInt32 (order first second))) from rfl, exec_slice_bind, exec_slice_bind]
    rfl
  rw [hx]
  constructor
  · rintro ⟨ha, hb⟩
    rw [if_pos ha, if_pos hb]
    exact ⟨_, verdict_order _ _ _ _, rfl⟩
  · intro hnot
    split_ifs with ha hb
    · exact absurd ⟨ha, hb⟩ hnot
    · rfl
    · rfl

end MemoryCall

/-! ## §4 Calls -/

/-- The outcome of a call with enough gas. Moving needs both ranges in the memory; the destination
then holds what the source held before, and nothing else has changed. Copying is moving, except that
ranges with a common offset are refused first, wherever they lie. Comparing changes nothing, and the
first byte that differs decides. Filling writes the low byte of a value, as often as asked for. What
cannot be done traps. All but comparing give the destination back. -/
theorem Intrinsic.memory_call_exact {ω : Type} (host : Host ω) (c : Context ω)
    (dst other length : UInt32)
    (hgas : Gas.callBase + Gas.memoryByte * length.toNat ≤ c.gas) :
    let outcome (op : MemoryCall) :=
      ((memory op).call host [.i32 dst, .i32 other, .i32 length]).exec c
    let paid := c.withGas (c.gas - (Gas.callBase + Gas.memoryByte * length.toNat))
    let trapped : Except Fault (Option Value) × Context ω := (.error (.trap .outOfBounds), paid)
    let before := c.memory.view.byte
    let holds (start : UInt32) := c.memory.Holds start length
    let shared := ∃ i, Covers dst length i ∧ Covers other length i
    ((holds other ∧ holds dst →
        ∃ c', paid.Rewritten dst length (fun k => before (other.toNat + k)) c' ∧
          outcome .move = (.ok (some (.i32 dst)), c')) ∧
      (¬(holds other ∧ holds dst) → outcome .move = trapped)) ∧
    (((∃ fault, (outcome .copy).1 = .error fault ∧ fault.kind? = some .overlappingMemory) ↔
        shared) ∧
      (shared → outcome .copy = (.error .overlappingCopy, paid)) ∧
      (¬shared → outcome .copy = outcome .move)) ∧
    ((holds dst ∧ holds other →
        ∃ result, MemoryCall.Verdict (fun k => before (dst.toNat + k))
            (fun k => before (other.toNat + k)) length.toNat result ∧
          outcome .compare = (.ok (some (.ofInt32 result)), paid)) ∧
      (¬(holds dst ∧ holds other) → outcome .compare = trapped)) ∧
    ((holds dst →
        ∃ c', paid.Rewritten dst length (fun _ => UInt8.ofNat (other.toNat % 256)) c' ∧
          outcome .fill = (.ok (some (.i32 dst)), c')) ∧
      (¬holds dst → outcome .fill = trapped)) := by
  intro outcome paid trapped before holds shared
  have hpaid (op : MemoryCall) :
      outcome op = (op.run [.i32 dst, .i32 other, .i32 length]).exec paid := by
    have hprice : (memory op).price c.action [.i32 dst, .i32 other, .i32 length] ≤ c.gas := hgas
    exact exec_call_paid rfl hprice host
  have hmove := MemoryCall.exec_move paid dst other length
  dsimp only at hmove
  rw [← hpaid .move] at hmove
  have hcopy : outcome .copy =
      if MemoryCall.overlap dst other length then (.error .overlappingCopy, paid)
      else outcome .move := by
    rw [hpaid, hpaid]
    exact MemoryCall.exec_copy paid dst other length
  refine ⟨hmove, ?copy, ?compare, ?fill⟩
  case copy =>
    have hshared : MemoryCall.overlap dst other length = true ↔ shared := MemoryCall.overlap_iff
    refine ⟨?_, fun h => hcopy.trans (if_pos (hshared.mpr h)),
      fun h => hcopy.trans (if_neg (mt hshared.mp h))⟩
    rw [hcopy, ← hshared]
    split_ifs with hoverlap
    · exact ⟨fun _ => hoverlap, fun _ => ⟨_, rfl, rfl⟩⟩
    · -- moving fails in its own way
      refine ⟨?_, fun h => absurd h hoverlap⟩
      rintro ⟨fault, hfault, hkind⟩
      by_cases hin : holds other ∧ holds dst
      · obtain ⟨c', -, hok⟩ := hmove.1 hin
        rw [hok] at hfault
        cases hfault
      · rw [hmove.2 hin] at hfault
        cases hfault
        cases hkind
  case compare =>
    rw [hpaid]
    exact MemoryCall.exec_compare paid dst other length
  case fill =>
    rw [hpaid]
    exact MemoryCall.exec_fill paid dst other length

/-- With one page, two ranges that reach past it by a byte and share two offsets: copying refuses
them for what they share, and moving for where they lie. -/
theorem memory_call_exact_past_end :
    let c := Context.start () (.withPages 1) 1000 default default default
    Gas.callBase + Gas.memoryByte * (5 : UInt32).toNat ≤ c.gas ∧
      ∀ host : Host Unit,
        let outcome (op : MemoryCall) :=
          ((Intrinsic.memory op).call host [.i32 65529, .i32 65532, .i32 5]).exec c
        (outcome .copy).1 = .error .overlappingCopy ∧
          (outcome .move).1 = .error (.trap .outOfBounds) := by
  intro c
  have hgas : Gas.callBase + Gas.memoryByte * (5 : UInt32).toNat ≤ c.gas := by decide
  refine ⟨hgas, ?_⟩
  intro host outcome
  obtain ⟨hmove, hcopy, -⟩ := Intrinsic.memory_call_exact host c 65529 65532 5 hgas
  have hpast : ¬c.memory.Holds 65532 5 := by
    show ¬_ ≤ (LinearMemory.withPages 1).size
    rw [LinearMemory.size_eq]
    decide
  have hshared : ∃ i, Covers 65529 5 i ∧ Covers 65532 5 i := by
    refine ⟨65532, ?_⟩
    unfold Covers
    decide
  exact ⟨congrArg Prod.fst (hcopy.2.1 hshared),
    congrArg Prod.fst (hmove.2 fun hin => hpast hin.1)⟩

end MeteredWasm
