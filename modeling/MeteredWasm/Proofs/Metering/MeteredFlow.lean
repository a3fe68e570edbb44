import MeteredWasm.Proofs.Metering.Charges
import MeteredWasm.Proofs.Wasm.ControlFlow

/-!
# Control flow of metered bodies

Metering commutes with control flow. Every jump comes from a boundary and leads right behind one,
where nothing is pending; so the code at every label of a metered body is the metered code at the
same label, with nothing pending.
-/

namespace MeteredWasm.Metering

open Wasm (Instr Operator Flow Label Position afterEnd secondArm?)

/-! ## §1 Boundaries -/

/-- The ways to go on that end a run. -/
def endsRun : Flow → Bool
  | .next | .stuck | .block => false
  | _ => true

theorem isBoundary_of_le {b : UInt8} (h : 0x10 ≤ b.toNat) : isBoundary b = false := by
  have htable : ∀ b : UInt8, 0x10 ≤ b.toNat → isBoundary b = false :=
    Wasm.forall_byte (by decide +kernel)
  exact htable b h

/-- Boundaries are recognised by their opcode. -/
theorem isBoundary_of_spells {b : UInt8} {v : List UInt8} {op : Operator}
    (h : Operator.Spells b v op) : isBoundary b = endsRun op.flow := by
  cases h with
  | load hshape =>
    have hrange := Wasm.loadShape?_range hshape
    exact isBoundary_of_le (by omega)
  | store hshape =>
    have hrange := Wasm.storeShape?_range hshape
    exact isBoundary_of_le (by omega)
  | numeric hsignature =>
    have hrange := Wasm.numericSignature?_range hsignature
    exact isBoundary_of_le (by omega)
  | _ => rfl

/-- An image goes on as the instruction does, and a boundary is its own image. -/
structure Follows (image : Instr → Instr) (i : Instr) : Prop where
  flow : (image i).flow = i.flow
  boundary : isBoundary i.opcode = endsRun i.flow
  same : isBoundary i.opcode = true → image i = i
  other : isBoundary (image i).opcode = isBoundary i.opcode

/-- A boundary is no call, so it is not moved, and no float instruction, so it is not replaced. -/
theorem Replaces.follows {m' : Wasm.Module} {k : Nat} {image : Instr → Instr} {i : Instr}
    {meaning : Operator} (hi : i.Spelled meaning) (h : Replaces m' k i (image i)) :
    Follows image i := by
  have hflow : i.flow = meaning.flow := by
    rw [Instr.flow, hi.operator?]
  obtain ⟨v, hspells⟩ := hi.opcode_spells
  have hboundary : isBoundary i.opcode = endsRun i.flow := by
    rw [hflow]
    exact isBoundary_of_spells hspells
  generalize hj : image i = j at h
  cases h with
  | call target =>
    refine ⟨?_, hboundary, ?_, ?_⟩
    · rw [hj]
      rfl
    · intro hcall
      cases hcall
    · rw [hj]
      rfl
  | @float op index type hop _ _ _ _ =>
    have hfloat : floatOperator? (.raw [op.opcode]) = some op :=
      SoftFloat.Operator.ofOpcode?_opcode hop
    -- a float instruction is numeric, and neither it nor the call is a boundary
    obtain ⟨-, -, rfl⟩ := eq_raw_of_floatOperator? hi hfloat
    have hnot : isBoundary (Instr.raw [op.opcode]).opcode = false := by
      rw [hboundary, hflow]
      rfl
    refine ⟨?_, hboundary, ?_, ?_⟩
    · rw [hj, hflow]
      rfl
    · intro hcall
      rw [hnot] at hcall
      cases hcall
    · rw [hj, hnot]
      rfl
  | other =>
    refine ⟨?_, hboundary, fun _ => hj, ?_⟩
    · rw [hj]
    · rw [hj]

/-! ## §2 Code behind a construct -/

variable {image : Instr → Instr}

/-- The instructions of a charge go on with the next one. -/
theorem flow_of_mem_chargeFor {pending : Nat} {i j : Instr}
    (hcost : pending + Gas.price i.opcode < 2 ^ 63) (hj : j ∈ chargeFor pending i) :
    j.flow = .next := by
  rcases eq_of_mem_chargeFor hj with rfl | rfl
  · rw [Instr.flow, (constI64_spelled hcost).operator?]
    rfl
  · rfl

/-- Instructions that just go on are passed over. -/
theorem afterEnd_append {front : List Instr} (hfront : ∀ i ∈ front, i.flow = .next) (depth : Nat)
    (code : List Instr) : afterEnd depth (front ++ code) = afterEnd depth code := by
  induction front with
  | nil => rfl
  | cons i front ih =>
    have hnext := hfront i List.mem_cons_self
    have hdepth : i.flow.depthAfter depth = some depth := by
      rw [hnext]
      rfl
    rw [List.cons_append, afterEnd, hdepth]
    exact ih fun j hj => hfront j (List.mem_cons_of_mem _ hj)

theorem secondArm?_append {front : List Instr} (hfront : ∀ i ∈ front, i.flow = .next)
    (depth : Nat) (code : List Instr) :
    secondArm? depth (front ++ code) = secondArm? depth code := by
  induction front with
  | nil => rfl
  | cons i front ih =>
    have hnext := hfront i List.mem_cons_self
    rw [List.cons_append, secondArm?, hnext, if_neg fun h => by cases h.1]
    exact ih fun j hj => hfront j (List.mem_cons_of_mem _ hj)

/-- Nothing is pending behind an instruction that ends a run. -/
theorem Follows.pendingAfter {i : Instr} (h : Follows image i) (hends : endsRun i.flow = true)
    (pending : Nat) : pendingAfter pending i = 0 := by
  rw [Metering.pendingAfter, h.boundary, hends]
  rfl

theorem endsRun_of_depthAfter {f : Flow} {depth : Nat} (h : f.depthAfter depth = none) :
    endsRun f = true := by
  cases f with
  | close => rfl
  | _ => cases h

/-- The code behind a construct of a metered body is metered, with nothing pending. -/
theorem afterEnd_meter {pending depth : Nat} {code : List Instr}
    (hfollows : ∀ i ∈ code, Follows image i) (hfits : Fits pending code) :
    afterEnd depth (meter image pending code) = meter image 0 (afterEnd depth code) := by
  induction code generalizing pending depth with
  | nil => rfl
  | cons i rest ih =>
    have hi := hfollows i List.mem_cons_self
    have hrest := fun depth =>
      @ih (pendingAfter pending i) depth (fun j hj => hfollows j (List.mem_cons_of_mem _ hj))
        hfits.tail
    have hcharge := fun j => @flow_of_mem_chargeFor pending i j hfits.cost
    -- the charge opens and closes nothing
    rw [meter, afterEnd_append hcharge, afterEnd, afterEnd, hi.flow]
    cases hdepth : i.flow.depthAfter depth with
    | some depth' => exact hrest depth'
    | none =>
      -- only an `end` closes a construct, and it is a boundary
      have hends : endsRun i.flow = true := endsRun_of_depthAfter hdepth
      rw [Option.elim_none, Option.elim_none, hi.pendingAfter hends]

theorem secondArm?_meter {pending depth : Nat} {code : List Instr}
    (hfollows : ∀ i ∈ code, Follows image i) (hfits : Fits pending code) :
    secondArm? depth (meter image pending code) =
      (secondArm? depth code).map (meter image 0) := by
  induction code generalizing pending depth with
  | nil => rfl
  | cons i rest ih =>
    have hi := hfollows i List.mem_cons_self
    have hrest := fun depth =>
      @ih (pendingAfter pending i) depth (fun j hj => hfollows j (List.mem_cons_of_mem _ hj))
        hfits.tail
    have hcharge := fun j => @flow_of_mem_chargeFor pending i j hfits.cost
    rw [meter, secondArm?_append hcharge, secondArm?, secondArm?, hi.flow]
    split_ifs with harm
    · -- the `else` is a boundary
      have hends : endsRun i.flow = true := by
        rw [harm.1]
        rfl
      rw [Option.map_some, hi.pendingAfter hends]
    · cases hdepth : i.flow.depthAfter depth with
      | none => rfl
      | some depth' => exact hrest depth'

/-! ## §3 Positions -/

/-- A label of a metered body: every branch comes from a boundary, so nothing is pending there. -/
def meterLabel (image : Instr → Instr) (l : Label) : Label :=
  { l with target := meter image 0 l.target }

/-- A position of a metered body, in front of a charge if one is due. -/
def meterPosition (image : Instr → Instr) (pending : Nat) (u : Position) : Position :=
  ⟨meter image pending u.code, u.labels.map (meterLabel image)⟩

theorem meterPosition_start (image : Instr → Instr) (body : List Instr) :
    meterPosition image 0 (Position.start body) = Position.start (meter image 0 body) :=
  rfl

theorem branch_meter (labels : List Label) (label : Nat) :
    Position.branch (labels.map (meterLabel image)) label =
      (Position.branch labels label).map (meterPosition image 0) := by
  unfold Position.branch
  rw [← List.map_drop]
  cases labels.drop label with
  | nil => rfl
  | cons l outer =>
    cases outer with
    | nil => rfl
    | cons l' outer =>
      obtain ⟨repeats, target⟩ := l
      cases repeats <;> rfl

/-- From behind the charge, control goes where it went before metering. -/
theorem successors_meter {pending : Nat} {i : Instr} {rest : List Instr} (labels : List Label)
    (hi : Follows image i) (hrest : ∀ j ∈ rest, Follows image j)
    (hfits : Fits (pendingAfter pending i) rest) :
    Position.successors
        ⟨image i :: meter image (pendingAfter pending i) rest, labels.map (meterLabel image)⟩ =
      (Position.successors ⟨i :: rest, labels⟩).map
        (meterPosition image (pendingAfter pending i)) := by
  have hafter := @afterEnd_meter image _ 0 rest hrest hfits
  have hsecond := @secondArm?_meter image _ 0 rest hrest hfits
  have hzero := fun h : endsRun i.flow = true => hi.pendingAfter h pending
  -- only `next`, `stuck` and `block` leave anything pending, and they lead nowhere but behind
  -- themselves; every other case starts with nothing pending
  simp only [Position.successors, hi.flow]
  cases hflow : i.flow with
  | next => rfl
  | stuck => rfl
  | block =>
    rw [hafter]
    rfl
  | loop =>
    rw [hflow] at hzero
    rw [hzero rfl]
    rfl
  | condition =>
    rw [hflow] at hzero
    rw [hzero rfl] at hafter hsecond ⊢
    simp only [hafter, hsecond]
    cases secondArm? 0 rest with
    | none => rfl
    | some arm => rfl
  | otherwise =>
    rw [hflow] at hzero
    rw [hzero rfl]
    exact branch_meter labels 0
  | close =>
    rw [hflow] at hzero
    rw [hzero rfl]
    cases labels with
    | nil => rfl
    | cons l outer =>
      cases outer with
      | nil => rfl
      | cons l' outer => rfl
  | branch targets falls =>
    rw [hflow] at hzero
    rw [hzero rfl]
    have hbranch : Position.branch (labels.map (meterLabel image)) =
        fun target => (Position.branch labels target).map (meterPosition image 0) :=
      funext (branch_meter labels)
    rw [hbranch, List.map_append, List.map_flatMap]
    cases falls with
    | false => rfl
    | true => rfl
  | leave =>
    rw [hflow] at hzero
    rw [hzero rfl]
    rfl

end MeteredWasm.Metering
