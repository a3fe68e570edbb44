import Mathlib.Data.Fintype.EquivFin
import MeteredWasm.Proofs.Metering.Completion

/-!
# Paths that do not pay

How long an instrumented module may run without a payment. Every jump is charged for, so without a
payment an activation only gets further in its code, and it cannot return once it has made a call. A
call itself is charged for afterwards. So there is a bound on the steps between two payments exactly
when no function can get to be called again from its own entry without one; and there are contracts
that call themselves forever and never pay.
-/

namespace MeteredWasm.Metering

open Wasm (Activation CallPath Flow Function Instr Label Module Operator Position Signature Step)

/-! ## §1 Payments -/

/-- A path passes a positive amount to the first function. -/
def Pays (trace : List Instr) : Prop :=
  ∃ push amount, amount? push = some amount ∧ 0 < amount ∧ [push, .call 0] <:+: trace

theorem Pays.mono {part trace : List Instr} (h : Pays part) (hpart : part <:+: trace) :
    Pays trace := by
  obtain ⟨push, amount, hpush, hamount, hpair⟩ := h
  exact ⟨push, amount, hpush, hamount, hpair.trans hpart⟩

/-- There is a charge only where something is due. -/
theorem chargeFor_eq_nil_or (pending : Nat) (i : Instr) :
    chargeFor pending i = [] ∨ (0 < pending + Gas.price i.opcode ∧
      chargeFor pending i = [.constI64 ((pending + Gas.price i.opcode : Nat) : Int), .call 0]) := by
  by_cases hcharged : isBoundary i.opcode = true ∧ 0 < pending + Gas.price i.opcode
  · exact .inr ⟨hcharged.2, if_pos hcharged⟩
  · exact .inl (if_neg hcharged)

variable {m m' : Module} {k : Nat} {image : Instr → Instr} {functions : List Signature}

/-- The ways to go on that lead elsewhere than further on in the code. -/
def jumps : Flow → Bool
  | .otherwise | .branch _ _ | .leave => true
  | _ => false

/-- What does not jump gets further in the code. -/
theorem successors_shorter {i : Instr} {rest : List Instr} {labels : List Label} {v : Position}
    (hstay : jumps i.flow = false) (hv : v ∈ Position.successors ⟨i :: rest, labels⟩) :
    v.code.length ≤ rest.length := by
  have hafter := (Wasm.afterEnd_suffix 0 rest).length_le
  simp only [Position.successors] at hv
  generalize i.flow = flow at hstay hv
  cases flow with
  | next | block | loop =>
    obtain rfl := List.mem_singleton.mp hv
    exact Nat.le_refl _
  | stuck => cases hv
  | condition =>
    rcases List.mem_cons.mp hv with rfl | hsecond
    · exact Nat.le_refl _
    · obtain rfl := List.mem_singleton.mp hsecond
      split
      · rename_i arm harm
        exact (Wasm.secondArm?_suffix harm).length_le
      · exact hafter
  | close =>
    cases labels with
    | nil => cases hv
    | cons l outer =>
      cases outer with
      | nil =>
        obtain rfl := List.mem_singleton.mp hv
        exact Nat.zero_le _
      | cons l' outer =>
        obtain rfl := List.mem_singleton.mp hv
        exact Nat.le_refl _
  | otherwise | branch | leave => cases hstay

/-- A step that does not jump: the function is left, or the innermost activation gets further, and
it may wait for a function that it has entered. -/
theorem step_shorter {a : Activation} {outer v : List Activation} {i : Instr}
    (hstep : Step m (a :: outer) i v) (hstay : jumps i.flow = false) :
    v = outer ∨ ∃ b, b.position.code.length < a.position.code.length ∧
      (v = b :: outer ∨ ∃ g ∈ m.functions, v = .enter g :: b :: outer) := by
  cases hstep with
  | @plain _ _ _ rest labels p hposition hplain hp =>
    rw [hposition] at hp
    have hshorter := successors_shorter hstay hp
    unfold Activation.onto
    split_ifs
    · exact .inl rfl
    · refine .inr ⟨_, ?_, .inl rfl⟩
      rw [hposition]
      exact Nat.lt_succ_of_le hshorter
  | host hposition hcalls hreturns =>
    refine .inr ⟨_, ?_, .inl rfl⟩
    rw [hposition]
    exact Nat.lt_succ_self _
  | enter hposition hcalls =>
    refine .inr ⟨_, ?_, .inr ⟨_, hcalls.mem_functions, rfl⟩⟩
    rw [hposition]
    exact Nat.lt_succ_self _

/-- Every jump has a price and ends a run. -/
theorem jump_charged {i : Instr} {meaning : Operator} (hi : i.Spelled meaning)
    (hjump : jumps i.flow = true) : isBoundary i.opcode = true ∧ 0 < Gas.price i.opcode := by
  rw [Instr.flow, hi.operator?] at hjump
  obtain ⟨v, hspells⟩ := hi.opcode_spells
  generalize i.opcode = opcode at hspells ⊢
  cases hspells with
  | elseThen | br | brIf | brTable | ret => exact ⟨rfl, by decide⟩
  | _ => cases hjump

/-- Activations of the metered module that have spent nothing of the charge in front of them. -/
def Ready (m : Module) (image : Instr → Instr) (c' : List Activation) : Prop :=
  ∃ c, InStep m image [] (chargeAt c) c' c

theorem Ready.enter (h : Metered m k image m') {f' : Function} (hf' : f' ∈ m'.functions) :
    Ready m image [.enter f'] := by
  rw [h.functions] at hf'
  obtain ⟨f, hf, rfl⟩ := List.mem_map.mp hf'
  exact ⟨_, .enter h hf⟩

theorem Ready.outer {a' : Activation} {outer' : List Activation}
    (h : Ready m image (a' :: outer')) : Ready m image outer' := by
  obtain ⟨c, hc⟩ := h
  obtain ⟨a, outer, rfl, -, -, houter⟩ := hc.cons_cases
  exact ⟨outer, houter⟩

/-- A step from there enters the charge, or it is made without one and does not jump. -/
theorem Ready.step (h : Metered m k image m') (hwell : m.WellTyped functions)
    {c' v' : List Activation} {j : Instr} (hc' : Ready m image c') (hstep : Step m' c' j v') :
    (∃ c, InStep m image [j] [.call 0] v' c) ∨ (Ready m image v' ∧ jumps j.flow = false) := by
  obtain ⟨c, hc⟩ := hc'
  obtain ⟨a', outer', rest', labels', rfl, hposition⟩ := hstep.position
  obtain ⟨a, outer, i, rest, labels, rfl, ha, -, hcharge, -, -, -⟩ := hc.here hposition
  rw [List.nil_append] at hcharge
  rw [← hcharge] at hc
  rcases chargeFor_eq_nil_or (owed a.done) i with hfor | ⟨-, hfor⟩
  · rw [hfor] at hc
    obtain ⟨b, outer₁, i', v, hsame, rfl, hi, hnone, hv⟩ := hc.step h hwell hstep
    obtain ⟨rfl, rfl⟩ := List.cons_eq_cons.mp hsame
    refine .inr ⟨⟨v, hv⟩, ?_⟩
    -- a jump would have been charged for
    obtain ⟨f, hf, hmem, -⟩ := hc.accounted.executes hi
    obtain ⟨meaning, hspelled⟩ := (h.spelled f hf).meaning i' hmem
    rw [((h.meterable hf).follows i' hmem).flow, ← Bool.not_eq_true]
    intro hjump
    obtain ⟨hboundary, hprice⟩ := jump_charged hspelled hjump
    rcases chargeFor_cases (owed a.done) i' with ⟨-, -, hpair⟩ | ⟨-, -, hfree⟩
    · rw [hpair] at hnone
      cases hnone
    · have hzero := hfree hboundary
      omega
  · rw [hfor] at hc
    obtain ⟨rfl, hv⟩ := hc.spend h hstep
    exact .inl ⟨_, hv⟩

/-! ## §3 Unpaid paths -/

/-- A path that takes no charge. -/
structure UnpaidPath (m : Module) (c : List Activation) (trace : List Instr)
    (w : List Activation) : Prop where
  path : CallPath m c trace w
  unpaid : .call 0 ∉ trace

theorem UnpaidPath.append {c v w : List Activation} {front back : List Instr}
    (hfront : UnpaidPath m c front v) (hback : UnpaidPath m v back w) :
    UnpaidPath m c (front ++ back) w where
  path := hfront.path.append hback.path
  unpaid := by
    rw [List.mem_append, not_or]
    exact ⟨hfront.unpaid, hback.unpaid⟩

theorem UnpaidPath.over {c w : List Activation} {trace : List Instr}
    (h : UnpaidPath m c trace w) (base : List Activation) :
    UnpaidPath m (c ++ base) trace (w ++ base) where
  path := h.path.over base
  unpaid := h.unpaid

theorem UnpaidPath.over_cases {top base w : List Activation} {trace : List Instr}
    (h : UnpaidPath m (top ++ base) trace w) :
    (∃ t, UnpaidPath m top trace t) ∨
      ∃ front back, trace = front ++ back ∧ UnpaidPath m top front [] ∧
        UnpaidPath m base back w := by
  obtain ⟨hpath, hunpaid⟩ := h
  rcases hpath.over_cases with ⟨t, rfl, htop⟩ | ⟨front, back, rfl, hfront, hback⟩
  · exact .inl ⟨t, htop, hunpaid⟩
  · rw [List.mem_append, not_or] at hunpaid
    exact .inr ⟨front, back, rfl, ⟨hfront, hunpaid.1⟩, hback, hunpaid.2⟩

/-- In front of the call of a charge, nothing more is executed without a payment. -/
theorem InStep.unpaid_eq_nil (h : Metered m k image m') {spent left trace : List Instr}
    {c' c w' : List Activation} (hc : InStep m image spent (.call 0 :: left) c' c)
    (hpath : UnpaidPath m' c' trace w') : trace = [] := by
  obtain ⟨hpath, hunpaid⟩ := hpath
  cases hpath with
  | nil => rfl
  | cons hstep =>
    obtain ⟨rfl, -⟩ := hc.spend h hstep
    exact absurd List.mem_cons_self hunpaid

/-- From within an activation, a function can get to be called without a payment. -/
def EntersUnpaid (m : Module) (a : Activation) (g : Function) : Prop :=
  g ∈ m.functions ∧ ∃ trace outer, outer ≠ [] ∧ UnpaidPath m [a] trace (.enter g :: outer)

/-- What an activation that is got to without a payment enters. -/
theorem EntersUnpaid.of_path {a b : Activation} {outer : List Activation} {front : List Instr}
    {g : Function} (hfront : UnpaidPath m [a] front (b :: outer)) (h : EntersUnpaid m b g) :
    EntersUnpaid m a g := by
  obtain ⟨hg, trace, inner, hinner, hback⟩ := h
  refine ⟨hg, front ++ trace, inner ++ outer, ?_, hfront.append (hback.over outer)⟩
  intro hnil
  exact hinner (List.append_eq_nil_iff.mp hnil).1

/-- Without a payment, a function makes no more steps than these. -/
def BoundedUnpaid (m : Module) (f : Function) (bound : Nat) : Prop :=
  ∀ trace w, UnpaidPath m [.enter f] trace w → trace.length ≤ bound

/-- An activation makes no more steps without a payment than its code and what it enters allow. -/
theorem Ready.length_le (h : Metered m k image m') (hwell : m.WellTyped functions)
    {bound count : Nat} {a' : Activation} {trace : List Instr} {w : List Activation}
    (ha' : Ready m image [a']) (hcount : a'.position.code.length ≤ count)
    (hbound : ∀ g, EntersUnpaid m' a' g → BoundedUnpaid m' g bound)
    (hpath : UnpaidPath m' [a'] trace w) : trace.length ≤ count * (bound + 1) := by
  -- on the code that is left: each step but the first of a charge leaves less of it
  induction count generalizing a' trace w with
  | zero =>
    obtain ⟨hpath, -⟩ := hpath
    cases hpath with
    | nil => exact Nat.zero_le _
    | cons hstep =>
      obtain ⟨_, _, rest, labels, hsame, hposition⟩ := hstep.position
      obtain ⟨rfl, -⟩ := List.cons_eq_cons.mp hsame
      rw [hposition] at hcount
      exact absurd hcount (Nat.not_succ_le_zero _)
  | succ count ih =>
    obtain ⟨hpath, hunpaid⟩ := hpath
    rw [Nat.succ_mul]
    cases hpath with
    | nil => exact Nat.zero_le _
    | @cons _ v' _ j trace hstep hrest =>
      rw [List.mem_cons, not_or] at hunpaid
      rw [List.length_cons]
      have hroom : 1 ≤ count * (bound + 1) + (bound + 1) :=
        Nat.le_trans (Nat.le_add_left 1 bound) (Nat.le_add_left _ _)
      rcases ha'.step h hwell hstep with ⟨c, hc⟩ | ⟨hv', hstay⟩
      · -- the next step would take the charge
        rw [hc.unpaid_eq_nil h ⟨hrest, hunpaid.2⟩]
        exact hroom
      · have hone : UnpaidPath m' [a'] [j] v' := by
          refine ⟨.cons hstep (.nil v'), ?_⟩
          rw [List.mem_singleton]
          exact hunpaid.1
        rcases step_shorter hstep hstay with rfl | ⟨b', hshorter, rfl | ⟨g, hg, rfl⟩⟩
        · -- the function has been left
          rw [hrest.eq_nil]
          exact hroom
        · -- the activation goes on, and may enter from there only what it could enter before
          have hlength := ih hv' (by omega) (fun g hg => hbound g (hg.of_path hone))
            ⟨hrest, hunpaid.2⟩
          omega
        · -- what was entered goes on for so long, and the rest is made when it has returned
          have hentered : EntersUnpaid m' a' g := ⟨hg, [j], [b'], by simp, hone⟩
          have hinner := hbound g hentered
          obtain ⟨t, hstays⟩ | ⟨front, back, rfl, hleaves, hback⟩ :=
            @UnpaidPath.over_cases m' [.enter g] [b'] w trace ⟨hrest, hunpaid.2⟩
          · have hlength := hinner _ _ hstays
            omega
          · have hfront := hinner _ _ hleaves
            have hback' := ih hv'.outer (by omega)
              (fun g' hg' => hbound g' (hg'.of_path (hone.append (hleaves.over [b'])))) hback
            rw [List.length_append]
            omega

/-! ## §4 Functions that do not call themselves -/

theorem BoundedUnpaid.mono {f : Function} {bound bound' : Nat} (h : BoundedUnpaid m f bound)
    (hle : bound ≤ bound') : BoundedUnpaid m f bound' :=
  fun trace w hpath => (h trace w hpath).trans hle

/-- What can be called again from its own entry can be so any number of times. -/
theorem EntersUnpaid.repeated {f : Function} (h : EntersUnpaid m (.enter f) f) (count : Nat) :
    ∃ trace outer, UnpaidPath m [.enter f] trace (.enter f :: outer) ∧ count ≤ trace.length := by
  induction count with
  | zero =>
    refine ⟨[], [], ⟨.nil _, ?_⟩, Nat.le_refl _⟩
    intro hmem
    cases hmem
  | succ count ih =>
    obtain ⟨-, front, inner, hinner, hfront⟩ := h
    obtain ⟨trace, outer, hpath, hcount⟩ := ih
    refine ⟨front ++ trace, outer ++ inner, hfront.append (hpath.over inner), ?_⟩
    have hsteps : front ≠ [] := by
      rintro rfl
      -- without a step, nothing would have been entered
      obtain ⟨hnone, -⟩ := hfront
      cases hnone
      exact hinner rfl
    have hpositive := List.length_pos_iff.mpr hsteps
    rw [List.length_append]
    omega

end MeteredWasm.Metering
