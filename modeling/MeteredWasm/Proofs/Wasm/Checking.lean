import MeteredWasm.Proofs.Checks
import MeteredWasm.Wasm.Typing

/-!
# Laws of the check of bodies

The check of a body is a run over its instructions, from the frame of the function to no frame at
all. What a run establishes for each instruction is what the check of that instruction does. Only
the end of a block can leave no frame open, so a body that is accepted has one for its last
instruction.
-/

namespace MeteredWasm.Wasm

open MeteredWasm.Run

namespace Check

variable {env : TypeEnv} {frames frames' : Frames}

/-! ## §1 Single steps -/

theorem require_eq_ok {condition : Bool} {cause : Malformed} {u : Unit} :
    (require condition cause).run frames = .ok (u, frames') ↔
      condition = true ∧ frames = frames' := by
  unfold require
  split_ifs with hcondition
  · simp only [pure_eq_ok, hcondition, true_and]
  · simp [hcondition, fail, StateT.run]

theorem found_eq_ok {α : Type} {cause : Malformed} {o : Option α} {a : α} :
    (found cause o).run frames = .ok (a, frames') ↔ o = some a ∧ frames = frames' := by
  cases o with
  | none => simp [found, fail, StateT.run]
  | some b => simp only [found, pure_eq_ok, Option.some.injEq]

/-- An instruction is checked within an open frame. -/
theorem instruction_eq_ok {op : Operator} {u : Unit} :
    (instruction env op).run frames = .ok (u, frames') ↔
      frames ≠ [] ∧ (operator env op).run frames = .ok (u, frames') := by
  unfold instruction
  simp only [bind_eq_ok, get_eq_ok, require_eq_ok, Bool.not_eq_true', List.isEmpty_eq_false_iff]
  constructor
  · rintro ⟨_, _, ⟨rfl, rfl⟩, _, _, ⟨hopen, rfl⟩, hrun⟩
    exact ⟨hopen, hrun⟩
  · rintro ⟨hopen, hrun⟩
    exact ⟨frames, frames, ⟨rfl, rfl⟩, (), frames, ⟨hopen, rfl⟩, hrun⟩

/-! ## §2 Runs -/

theorem run_cons {op : Operator} {code : List Operator} {u : Unit} :
    (forM (op :: code) (instruction env)).run frames = .ok (u, frames') ↔
      ∃ between, (instruction env op).run frames = .ok ((), between) ∧
        (forM code (instruction env)).run between = .ok (u, frames') := by
  rw [List.forM_cons, bind_eq_ok]
  constructor
  · rintro ⟨_, between, hop, hcode⟩
    exact ⟨between, hop, hcode⟩
  · rintro ⟨between, hop, hcode⟩
    exact ⟨(), between, hop, hcode⟩

/-- Every instruction of a run was checked somewhere in it. -/
theorem run_mem {op : Operator} {code : List Operator} {u : Unit}
    (hrun : (forM code (instruction env)).run frames = .ok (u, frames')) (hop : op ∈ code) :
    ∃ before after, (operator env op).run before = .ok ((), after) := by
  -- the frames before an instruction are whatever those in front of it left
  induction code generalizing frames with
  | nil => cases hop
  | cons first code ih =>
    obtain ⟨between, hfirst, hcode⟩ := run_cons.mp hrun
    rcases List.mem_cons.mp hop with rfl | hmem
    · exact ⟨frames, between, (instruction_eq_ok.mp hfirst).2⟩
    · exact ih hcode hmem

/-! ## §3 Items of a body -/

/-- The check goes through some items of a body, from these frames to those. -/
inductive Accepts (env : TypeEnv) : Frames → List Instr → Frames → Prop where
  | nil (frames : Frames) : Accepts env frames [] frames
  | cons {i : Instr} {op : Operator} {rest : List Instr} {frames between frames' : Frames} :
      i.operator? = some op → (instruction env op).run frames = .ok ((), between) →
      Accepts env between rest frames' → Accepts env frames (i :: rest) frames'

theorem accepts_iff {code : List Instr} :
    Accepts env frames code frames' ↔
      ∃ ops, code.mapM Instr.operator? = some ops ∧
        (forM ops (instruction env)).run frames = .ok ((), frames') := by
  simp only [mapM_eq_some]
  constructor
  · intro h
    induction h with
    | nil frames => exact ⟨[], .nil, rfl⟩
    | cons hop hrun _ ih =>
      obtain ⟨ops, hops, hcode⟩ := ih
      exact ⟨_, .cons hop hops, run_cons.mpr ⟨_, hrun, hcode⟩⟩
  · rintro ⟨ops, hops, hrun⟩
    induction hops generalizing frames with
    | nil =>
      obtain ⟨-, rfl⟩ := pure_eq_ok.mp hrun
      exact .nil frames
    | cons hop _ ih =>
      obtain ⟨between, hfirst, hcode⟩ := run_cons.mp hrun
      exact .cons hop hfirst (ih hcode)

theorem Accepts.append {front code : List Instr} {between : Frames}
    (hfront : Accepts env frames front between) (hcode : Accepts env between code frames') :
    Accepts env frames (front ++ code) frames' := by
  induction hfront with
  | nil frames => exact hcode
  | cons hop hrun _ ih => exact .cons hop hrun (ih hcode)

/-! ## §4 The end of a body -/

section KeepsOpen

variable {α β : Type}

/-- Among open frames the check leaves at least one of them open. -/
def KeepsOpen (check : Check α) : Prop :=
  ∀ frames frames' a, check.run frames = .ok (a, frames') → frames ≠ [] → frames' ≠ []

theorem KeepsOpen.bind {check : Check α} {next : α → Check β} (hcheck : KeepsOpen check)
    (hnext : ∀ a, KeepsOpen (next a)) : KeepsOpen (check >>= next) := by
  intro frames frames' b hrun hopen
  obtain ⟨a, between, ha, hb⟩ := bind_eq_ok.mp hrun
  exact hnext a _ _ _ hb (hcheck _ _ _ ha hopen)

theorem keepsOpen_pure (a : α) : KeepsOpen (pure a) := by
  intro frames frames' b hrun hopen
  obtain ⟨-, rfl⟩ := pure_eq_ok.mp hrun
  exact hopen

theorem keepsOpen_get : KeepsOpen (get : Check Frames) := by
  intro frames frames' b hrun hopen
  obtain ⟨-, rfl⟩ := get_eq_ok.mp hrun
  exact hopen

theorem keepsOpen_fail (cause : Malformed) : KeepsOpen (fail cause : Check α) := by
  intro frames frames' b hrun hopen
  simp [fail, StateT.run] at hrun

theorem keepsOpen_require (condition : Bool) (cause : Malformed) :
    KeepsOpen (require condition cause) := by
  intro frames frames' b hrun hopen
  obtain ⟨-, rfl⟩ := require_eq_ok.mp hrun
  exact hopen

theorem keepsOpen_found (cause : Malformed) (o : Option α) : KeepsOpen (found cause o) := by
  intro frames frames' b hrun hopen
  obtain ⟨-, rfl⟩ := found_eq_ok.mp hrun
  exact hopen

theorem keepsOpen_forM {as : List α} {check : α → Check Unit} (h : ∀ a, KeepsOpen (check a)) :
    KeepsOpen (as.forM check) := by
  induction as with
  | nil => exact keepsOpen_pure ()
  | cons a as ih => exact (h a).bind fun _ => ih

/-- A check that only changes the innermost frame, or opens one. -/
theorem keepsOpen_of_cons {check : Check α}
    (h : ∀ f rest a frames', check.run (f :: rest) = .ok (a, frames') → frames' ≠ []) :
    KeepsOpen check := by
  intro frames frames' a hrun hopen
  cases frames with
  | nil => exact absurd rfl hopen
  | cons f rest => exact h f rest a frames' hrun

theorem keepsOpen_pushAny (type : Option ValueType) : KeepsOpen (pushAny type) := by
  refine keepsOpen_of_cons fun f rest a frames' hrun => ?_
  cases hrun
  exact List.cons_ne_nil _ _

theorem keepsOpen_popAny : KeepsOpen popAny := by
  refine keepsOpen_of_cons fun f rest a frames' hrun => ?_
  simp only [StateT.run, popAny] at hrun
  split at hrun
  · cases hrun
    exact List.cons_ne_nil _ _
  · split_ifs at hrun
    cases hrun
    exact List.cons_ne_nil _ _

theorem keepsOpen_setUnreachable : KeepsOpen setUnreachable := by
  refine keepsOpen_of_cons fun f rest a frames' hrun => ?_
  cases hrun
  exact List.cons_ne_nil _ _

theorem keepsOpen_enter (kind : FrameKind) (result : Option ValueType) :
    KeepsOpen (enter kind result) := by
  refine keepsOpen_of_cons fun f rest a frames' hrun => ?_
  cases hrun
  exact List.cons_ne_nil _ _

theorem keepsOpen_pop (type : ValueType) : KeepsOpen (pop type) :=
  keepsOpen_popAny.bind fun _ => (keepsOpen_require _ _).bind fun _ => keepsOpen_pure _

theorem keepsOpen_pushResult (result : Option ValueType) : KeepsOpen (pushResult result) := by
  cases result with
  | none => exact keepsOpen_pure ()
  | some type => exact keepsOpen_pushAny (some type)

theorem keepsOpen_popResult (result : Option ValueType) : KeepsOpen (popResult result) := by
  cases result with
  | none => exact keepsOpen_pure ()
  | some type => exact (keepsOpen_pop type).bind fun _ => keepsOpen_pure ()

theorem keepsOpen_apply (s : Signature) : KeepsOpen (apply s) := by
  refine KeepsOpen.bind ?_ fun _ => keepsOpen_pushResult s.result
  exact keepsOpen_forM fun type => (keepsOpen_pop type).bind fun _ => keepsOpen_pure ()

theorem keepsOpen_labelType (label : Nat) : KeepsOpen (labelType label) :=
  keepsOpen_get.bind fun _ => (keepsOpen_found _ _).bind fun _ => keepsOpen_pure _

theorem keepsOpen_branchTarget (default : Option ValueType) (label : Nat) :
    KeepsOpen (branchTarget default label) := by
  refine (keepsOpen_labelType label).bind fun type => (keepsOpen_require _ _).bind fun _ => ?_
  cases type with
  | none => exact keepsOpen_pure ()
  | some type => exact (keepsOpen_pop type).bind fun actual => keepsOpen_pushAny actual

theorem keepsOpen_selected (a b : Option ValueType) : KeepsOpen (selected a b) := by
  unfold selected
  split
  · exact keepsOpen_pure _
  · exact keepsOpen_pure _
  · split_ifs
    · exact keepsOpen_pure _
    · exact keepsOpen_fail _

/-- The second arm of a condition opens a frame in place of the first. -/
theorem keepsOpen_elseThen (env : TypeEnv) : KeepsOpen (operator env .elseThen) := by
  intro frames frames' a hrun hopen
  obtain ⟨f, between, -, hrun⟩ := bind_eq_ok.mp hrun
  obtain ⟨_, between', -, hrun⟩ := bind_eq_ok.mp hrun
  cases hrun
  exact List.cons_ne_nil _ _

/-- Only the end of a block can close the last frame. -/
theorem keepsOpen_operator (env : TypeEnv) {op : Operator} (hop : op ≠ .endBlock) :
    KeepsOpen (operator env op) := by
  cases op with
  | unreachable => exact keepsOpen_setUnreachable
  | nop => exact keepsOpen_pure ()
  | block type => exact keepsOpen_enter .block type
  | loop type => exact keepsOpen_enter .loop type
  | ifThen type => exact (keepsOpen_pop .i32).bind fun _ => keepsOpen_enter .ifThen type
  | elseThen => exact keepsOpen_elseThen env
  | endBlock => exact absurd rfl hop
  | br label =>
    exact (keepsOpen_labelType label).bind fun type =>
      (keepsOpen_popResult type).bind fun _ => keepsOpen_setUnreachable
  | brIf label =>
    exact (keepsOpen_pop .i32).bind fun _ => (keepsOpen_labelType label).bind fun type =>
      (keepsOpen_popResult type).bind fun _ => keepsOpen_pushResult type
  | brTable labels default =>
    exact (keepsOpen_pop .i32).bind fun _ => (keepsOpen_labelType default).bind fun type =>
      (keepsOpen_forM fun label => keepsOpen_branchTarget type label).bind fun _ =>
        (keepsOpen_popResult type).bind fun _ => keepsOpen_setUnreachable
  | ret =>
    refine keepsOpen_get.bind fun frames => ?_
    split
    · exact (keepsOpen_popResult _).bind fun _ => keepsOpen_setUnreachable
    · exact (keepsOpen_fail _).bind fun _ => keepsOpen_setUnreachable
  | call function => exact (keepsOpen_found _ _).bind fun s => keepsOpen_apply s
  | callIndirect type =>
    exact (keepsOpen_require _ _).bind fun _ => (keepsOpen_found _ _).bind fun s =>
      (keepsOpen_pop .i32).bind fun _ => keepsOpen_apply s
  | drop => exact keepsOpen_popAny.bind fun _ => keepsOpen_pure ()
  | select =>
    exact (keepsOpen_pop .i32).bind fun _ => keepsOpen_popAny.bind fun a =>
      keepsOpen_popAny.bind fun b => (keepsOpen_selected a b).bind fun type =>
        keepsOpen_pushAny type
  | localGet index => exact (keepsOpen_found _ _).bind fun type => keepsOpen_pushAny (some type)
  | localSet index =>
    exact (keepsOpen_found _ _).bind fun type =>
      (keepsOpen_pop type).bind fun _ => keepsOpen_pure ()
  | localTee index =>
    exact (keepsOpen_found _ _).bind fun type =>
      (keepsOpen_pop type).bind fun _ => keepsOpen_pushAny (some type)
  | globalGet index => exact (keepsOpen_found _ _).bind fun g => keepsOpen_pushAny (some g.1)
  | globalSet index =>
    exact (keepsOpen_found _ _).bind fun g => (keepsOpen_require _ _).bind fun _ =>
      (keepsOpen_pop g.1).bind fun _ => keepsOpen_pure ()
  | load type natural arg =>
    exact (keepsOpen_require _ _).bind fun _ => (keepsOpen_require _ _).bind fun _ =>
      (keepsOpen_pop .i32).bind fun _ => keepsOpen_pushAny (some type)
  | store type natural arg =>
    exact (keepsOpen_require _ _).bind fun _ => (keepsOpen_require _ _).bind fun _ =>
      (keepsOpen_pop type).bind fun _ => (keepsOpen_pop .i32).bind fun _ => keepsOpen_pure ()
  | memorySize => exact (keepsOpen_require _ _).bind fun _ => keepsOpen_pushAny (some .i32)
  | memoryGrow =>
    exact (keepsOpen_require _ _).bind fun _ =>
      (keepsOpen_pop .i32).bind fun _ => keepsOpen_pushAny (some .i32)
  | const value => exact keepsOpen_pushAny (some value.type)
  | numeric opcode => exact (keepsOpen_found _ _).bind fun s => keepsOpen_apply s

end KeepsOpen

/-- What closes all frames ends with the end of a block. -/
theorem Accepts.ends {body : List Instr} (h : Accepts env frames body []) (hopen : frames ≠ []) :
    ∃ i, body.getLast? = some i ∧ i.operator? = some .endBlock := by
  -- along the run; until the last item there is an open frame
  generalize hend : ([] : Frames) = frames' at h
  induction h with
  | nil => exact absurd hend.symm hopen
  | @cons i op rest frames between frames' hop hrun hrest ih =>
    subst hend
    obtain ⟨-, hrun⟩ := instruction_eq_ok.mp hrun
    cases hrest with
    | nil =>
      have hlast : op = .endBlock := by
        by_contra hother
        exact keepsOpen_operator env hother _ _ _ hrun hopen rfl
      exact ⟨i, rfl, hlast ▸ hop⟩
    | cons hop' hrun' hrest' =>
      obtain ⟨last, hlast, hmeaning⟩ := ih (instruction_eq_ok.mp hrun').1 rfl
      refine ⟨last, ?_, hmeaning⟩
      rw [List.getLast?_cons_cons]
      exact hlast

end Check

/-- A body is accepted when its run closes the frame of the function. -/
theorem checkBody_eq_ok {env : TypeEnv} {result : Option ValueType} {code : List Operator}
    {u : Unit} :
    checkBody env result code = .ok u ↔
      (forM code (Check.instruction env)).run [Frame.fresh .function result] = .ok ((), []) := by
  unfold checkBody
  rw [List.forM_eq_forM]
  unfold StateT.run
  split
  · rename_i cause hrun
    simp [hrun]
  · rename_i hrun
    simp [hrun]
  · rename_i hrun
    simp [hrun]

/-- A call in a body that is accepted is one of a known function. -/
theorem call_lt_of_checkBody {env : TypeEnv} {result : Option ValueType} {code : List Operator}
    (h : checkBody env result code = .ok ()) {target : Nat} (htarget : .call target ∈ code) :
    target < env.functions.size := by
  obtain ⟨before, after, hcall⟩ := Check.run_mem (checkBody_eq_ok.mp h) htarget
  obtain ⟨s, between, hfound, -⟩ := bind_eq_ok.mp hcall
  obtain ⟨hsignature, -⟩ := Check.found_eq_ok.mp hfound
  exact (Array.getElem?_eq_some_iff.mp hsignature).1

end MeteredWasm.Wasm
