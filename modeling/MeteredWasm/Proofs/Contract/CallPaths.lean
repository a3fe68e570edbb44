import MeteredWasm.Intrinsic.Catalog
import MeteredWasm.Proofs.Checks
import MeteredWasm.Proofs.Wasm.ControlFlow

/-!
# Control flow across calls

Paths through a whole module. A call of a defined function enters its body, and the activation that
made the call waits until that body has been left. A call of an imported function is one step,
except that the exit does not return. Values are left out, so an indirect call may go to any function
of its type that a table can hold.
-/

namespace MeteredWasm.Wasm

/-! ## §1 Calls -/

/-- What stands behind the index of a function. -/
inductive Callee where
  | host (i : Import)
  | defined (f : Function)

/-- An import as something to be called, if it is a function. -/
def Import.callee? (i : Import) : Option Callee :=
  i.functionType?.map fun _ => .host i

/-- Is this the import by which a contract exits? -/
def Import.exits (i : Import) : Bool :=
  i.namespace_ == Intrinsic.contractNamespace && i.name == AssertionCall.exit.name

/-- The functions of a module by their indices, imported ones first. -/
def Module.callees (m : Module) : List Callee :=
  m.imports.filterMap Import.callee? ++ m.functions.map .defined

/-- Calls are the instructions that name a function or look one up in the table. -/
def Instr.isCall (i : Instr) : Bool :=
  match i.operator? with
  | some (.call _) | some (.callIndirect _) => true
  | _ => false

/-- An instruction may call this: the function that it names, or one of the type that it names.
Through the table it may reach any defined function, and those imported ones that an element puts
there. -/
inductive Module.Calls (m : Module) : Instr → Callee → Prop where
  | direct {index : Nat} {callee : Callee} :
      m.callees[index]? = some callee → m.Calls (.call index) callee
  | indirect {i : Instr} {type index : Nat} {s : Signature} {callee : Callee} :
      i.operator? = some (.callIndirect type) → m.types[type]? = some s →
      m.signature? index = some s → m.callees[index]? = some callee →
      ((∃ f, callee = .defined f) ∨ ∃ e ∈ m.elements, index ∈ e.functions) → m.Calls i callee

theorem Module.Calls.isCall {m : Module} {i : Instr} {callee : Callee} (h : m.Calls i callee) :
    i.isCall = true := by
  cases h with
  | direct => rfl
  | indirect hop => rw [Instr.isCall, hop]

theorem Module.mem_functions_of_callees {m : Module} {index : Nat} {f : Function}
    (h : m.callees[index]? = some (.defined f)) : f ∈ m.functions := by
  rcases List.mem_append.mp (List.mem_of_getElem? h) with himported | hdefined
  · -- what is imported is not defined
    obtain ⟨i, -, hi⟩ := List.mem_filterMap.mp himported
    obtain ⟨type, -, hhost⟩ := Option.map_eq_some_iff.mp hi
    cases hhost
  · obtain ⟨f', hf', hsame⟩ := List.mem_map.mp hdefined
    cases hsame
    exact hf'

theorem Module.Calls.mem_functions {m : Module} {i : Instr} {f : Function}
    (h : m.Calls i (.defined f)) : f ∈ m.functions := by
  cases h with
  | direct hcallee => exact mem_functions_of_callees hcallee
  | indirect _ _ _ hcallee _ => exact mem_functions_of_callees hcallee

/-! ## §2 Activations -/

/-- An activation of a function: where it is, and what it has executed so far, the latest first. -/
structure Activation where
  position : Position
  done : List Instr

namespace Activation

/-- A function that has just been entered. -/
def enter (f : Function) : Activation :=
  ⟨.start f.body, []⟩

/-- An activation that has executed one more instruction. -/
def advance (a : Activation) (i : Instr) (v : Position) : Activation :=
  ⟨v, i :: a.done⟩

/-- An activation on top of those that wait for it, unless its function has been left. -/
def onto (a : Activation) (outer : List Activation) : List Activation :=
  if a.position.labels = [] then outer else a :: outer

theorem onto_append (a : Activation) (outer base : List Activation) :
    a.onto outer ++ base = a.onto (outer ++ base) := by
  unfold onto
  split_ifs
  · rfl
  · exact List.cons_append

theorem onto_eq_cons {a : Activation} {outer : List Activation} (h : a.position.labels ≠ []) :
    a.onto outer = a :: outer :=
  if_neg h

end Activation

/-! ## §3 Paths -/

/-- One instruction of the innermost activation. When it leaves the function, the activation that
made the call goes on. -/
inductive Step (m : Module) : List Activation → Instr → List Activation → Prop where
  | plain {a : Activation} {outer : List Activation} {i : Instr} {rest : List Instr}
      {labels : List Label} {v : Position} :
      a.position = ⟨i :: rest, labels⟩ → i.isCall = false → v ∈ a.position.successors →
      Step m (a :: outer) i ((a.advance i v).onto outer)
  | host {a : Activation} {outer : List Activation} {i : Instr} {rest : List Instr}
      {labels : List Label} {import_ : Import} :
      a.position = ⟨i :: rest, labels⟩ → m.Calls i (.host import_) → import_.exits = false →
      Step m (a :: outer) i (a.advance i ⟨rest, labels⟩ :: outer)
  | enter {a : Activation} {outer : List Activation} {i : Instr} {rest : List Instr}
      {labels : List Label} {f : Function} :
      a.position = ⟨i :: rest, labels⟩ → m.Calls i (.defined f) →
      Step m (a :: outer) i (.enter f :: a.advance i ⟨rest, labels⟩ :: outer)

/-- The innermost activation calls the exit. All activations that are open then stay where they
are. -/
inductive Exit (m : Module) : List Activation → Instr → List Activation → Prop where
  | call {a : Activation} {outer : List Activation} {i : Instr} {rest : List Instr}
      {labels : List Label} {import_ : Import} :
      a.position = ⟨i :: rest, labels⟩ → m.Calls i (.host import_) → import_.exits = true →
      Exit m (a :: outer) i (a.advance i ⟨rest, labels⟩ :: outer)

/-- Control may run through these instructions, from some activations to others; innermost ones
first. A function that was called alone has returned when there is none left. -/
inductive CallPath (m : Module) : List Activation → List Instr → List Activation → Prop where
  | nil (c : List Activation) : CallPath m c [] c
  | cons {c c' w : List Activation} {i : Instr} {trace : List Instr} :
      Step m c i c' → CallPath m c' trace w → CallPath m c (i :: trace) w

variable {m : Module}

theorem CallPath.append {c v w : List Activation} {front back : List Instr}
    (hfront : CallPath m c front v) (hback : CallPath m v back w) :
    CallPath m c (front ++ back) w := by
  induction hfront with
  | nil c => exact hback
  | cons hstep _ ih => exact .cons hstep (ih hback)

/-- A step executes the instruction at the innermost activation. -/
theorem Step.position {c w : List Activation} {i : Instr} (h : Step m c i w) :
    ∃ a outer rest labels, c = a :: outer ∧ a.position = ⟨i :: rest, labels⟩ := by
  cases h with
  | plain hposition => exact ⟨_, _, _, _, rfl, hposition⟩
  | host hposition => exact ⟨_, _, _, _, rfl, hposition⟩
  | enter hposition => exact ⟨_, _, _, _, rfl, hposition⟩

theorem Exit.position {c w : List Activation} {i : Instr} (h : Exit m c i w) :
    ∃ a outer rest labels, c = a :: outer ∧ a.position = ⟨i :: rest, labels⟩ := by
  cases h with
  | call hposition => exact ⟨_, _, _, _, rfl, hposition⟩

/-- When every function has returned, nothing more is executed. -/
theorem CallPath.eq_nil {trace : List Instr} {w : List Activation} (h : CallPath m [] trace w) :
    trace = [] := by
  cases h with
  | nil => rfl
  | cons hstep =>
    obtain ⟨_, _, _, _, hnone, -⟩ := hstep.position
    cases hnone

/-! ## §4 Activations further out -/

/-- Activations further out do not matter to a step. -/
theorem Step.over {c w : List Activation} {i : Instr} (h : Step m c i w)
    (base : List Activation) : Step m (c ++ base) i (w ++ base) := by
  cases h with
  | plain hposition hplain hv =>
    rw [Activation.onto_append]
    exact .plain hposition hplain hv
  | host hposition hcalls hreturns => exact .host hposition hcalls hreturns
  | enter hposition hcalls => exact .enter hposition hcalls

theorem CallPath.over {c w : List Activation} {trace : List Instr} (h : CallPath m c trace w)
    (base : List Activation) : CallPath m (c ++ base) trace (w ++ base) := by
  induction h with
  | nil c => exact .nil _
  | cons hstep _ ih => exact .cons (hstep.over base) ih

/-- A step leaves alone what waits behind the innermost activation. -/
theorem Step.of_over {a : Activation} {outer base w : List Activation} {i : Instr}
    (h : Step m (a :: (outer ++ base)) i w) : ∃ t, w = t ++ base ∧ Step m (a :: outer) i t := by
  cases h with
  | plain hposition hplain hv =>
    exact ⟨_, (Activation.onto_append _ _ _).symm, .plain hposition hplain hv⟩
  | host hposition hcalls hreturns => exact ⟨_, rfl, .host hposition hcalls hreturns⟩
  | enter hposition hcalls => exact ⟨_ :: _ :: outer, rfl, .enter hposition hcalls⟩

/-- A path either stays over the activations further out, or leaves all those over them and goes
on there. -/
theorem CallPath.over_cases {top base w : List Activation} {trace : List Instr}
    (h : CallPath m (top ++ base) trace w) :
    (∃ t, w = t ++ base ∧ CallPath m top trace t) ∨
      ∃ front back, trace = front ++ back ∧ CallPath m top front [] ∧ CallPath m base back w := by
  generalize hc : top ++ base = c at h
  induction h generalizing top with
  | nil c => exact .inl ⟨top, hc.symm, .nil top⟩
  | @cons c c' w i trace hstep hpath ih =>
    cases top with
    | nil =>
      obtain rfl : base = c := hc
      exact .inr ⟨[], i :: trace, rfl, .nil [], .cons hstep hpath⟩
    | cons a outer =>
      obtain rfl : a :: (outer ++ base) = c := hc
      obtain ⟨t, rfl, htop⟩ := hstep.of_over
      rcases ih rfl with ⟨t', rfl, hstays⟩ | ⟨front, back, rfl, hleaves, hback⟩
      · exact .inl ⟨t', rfl, .cons htop hstays⟩
      · exact .inr ⟨i :: front, back, rfl, .cons htop hleaves, hback⟩

end MeteredWasm.Wasm
