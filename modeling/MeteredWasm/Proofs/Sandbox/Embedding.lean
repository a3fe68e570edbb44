import MeteredWasm.Proofs.Contract.Steps
import MeteredWasm.Sandbox.Running

/-!
# Engines and embedders

What stands around a sandbox, as data. A machine is an engine that knows nothing but what it is shown;
an embedder answers callbacks, and may run other contracts on the same sandbox before it does. What
happens during a run can be noted down, and a notebook says where: a plain one keeps no notes, so
that a run with it is a run of the sandbox and nothing else.
-/

namespace MeteredWasm

open Wasm (Value)

/-! ## §1 Machines -/

/-- What can be seen of a context: everything but the world. -/
abbrev View := Context Unit

/-- The view of a context. -/
def Context.view {ω : Type} (c : Context ω) : View :=
  c.withWorld ()

/-- What an engine does when a function is invoked. Between the calls that the function makes, it
computes on everything in the context but the world. -/
inductive Behaviour (α : Type) where
  | done (c : View) (result : Except Fault α)
  /-- Call an intrinsic. -/
  | call (c : View) (i : Intrinsic) (args : List Value)
    (next : Except Fault (Option Value) → View → Behaviour α)
  /-- Call back into the host directly. -/
  | ask (key : StateKey) (q : Callback) (next : q.Answer → Behaviour α)
  | digest (data : List UInt8) (next : Digest → Behaviour α)

/-- What happens during a run, as seen from around the sandbox. -/
inductive Event where
  /-- A code with a certain digest is run. -/
  | ran (i : Invocation) (gas : Nat) (digest : Digest)
  /-- A function is invoked, and this is all that it sees. -/
  | entered (view : View)
  /-- The function calls an intrinsic, having made this of what it saw. -/
  | called (view : View) (i : Intrinsic) (args : List Value)
  /-- The intrinsic has returned to the function, which sees this now. -/
  | returned (outcome : Except Fault (Option Value)) (view : View)
  /-- The host is called back. -/
  | asked (key : StateKey) (q : Callback)
  /-- The host is asked for a digest, other than by an intrinsic or for a code that is run. -/
  | hashed (data : List UInt8)

/-- A code that is run, with its digest. -/
abbrev Use := Digest × List UInt8

/-- The use that an event is. -/
def Event.use? : Event → Option Use
  | .ran i _ digest => some (digest, i.code)
  | .entered _ | .called _ _ _ | .returned _ _ | .asked _ _ | .hashed _ => none

/-- What comes of a behaviour: a result, a view, and another world. -/
def Behaviour.perform {ω α : Type} (host : Host ω) (note : Event → ω → ω) :
    Behaviour α → StateM ω (Except Fault α × View)
  | .done c result => fun world => ((result, c), world)
  | .call c i args next => fun world =>
    let called := (i.call host args).exec (c.withWorld (note (.called c i args) world))
    (next called.1 called.2.view).perform host note
      (note (.returned called.1 called.2.view) called.2.world)
  | .ask key q next => fun world =>
    let answered := host.answer key q world
    (next answered.1).perform host note answered.2
  | .digest data next => fun world =>
    let hashed := note (.hashed data) world
    (next (host.sha256 hashed data)).perform host note hashed

/-- An engine that depends on what it is shown only: on the module and its imports, or on the view of
the context, the function and its arguments. -/
structure Machine (Inst : Type) where
  instantiate : List UInt8 → List Intrinsic → Except Fault Inst
  invoke : Inst → (name : String) → (args : List Value) → View → Behaviour (Option Value)

/-- The outcome of building a module with a machine. -/
def Machine.build {Inst : Type} (m : Machine Inst) (maxPages : Nat) (code : List UInt8) :
    Except Fault (Loaded Inst) := do
  let instrumented ← Metering.instrument code maxPages
  let imports ← Visibility.everything.link instrumented.module
  let inst ← m.instantiate instrumented.wasm imports
  return {
    inst := inst
    exports := exportedFunctions instrumented.module
    initialPages := instrumented.memoryPages.1
    maxPages := instrumented.memoryPages.2
    image := instrumented.image }

/-! ## §2 Embedders -/

/-- What an embedder makes of a callback: an answer, after any number of runs. -/
inductive Reaction (σ α : Type) where
  | answer (a : α) (s : σ)
  | run (s : σ) (i : Invocation) (gas : Nat) (next : Execution → σ → Reaction σ α)

/-- The process around a sandbox, with states of type `σ`. -/
structure Embedder (σ : Type) where
  react : StateKey → (q : Callback) → σ → Reaction σ q.Answer
  sha256 : σ → List UInt8 → Digest
  /-- What becomes of runs that are nested deeper than we follow them. -/
  beyond : Invocation → (gas : Nat) → σ → Execution × σ

/-! ## §3 Notes -/

/-- How the state of an embedder and notes about what happens are kept in states of type `τ`. -/
structure Notebook (σ τ : Type) where
  state : τ → σ
  update : σ → τ → τ
  note : Event → τ → τ

namespace Notebook

variable {σ : Type}

/-- No notes. -/
def plain : Notebook σ σ where
  state s := s
  update s _ := s
  note _ s := s

/-- All notes, the first one first. -/
def full : Notebook σ (σ × List Event) where
  state t := t.1
  update s t := (s, t.2)
  note event t := (t.1, t.2 ++ [event])

end Notebook

variable {σ τ Inst α : Type}

namespace World

/-- The world with another state of the embedder. -/
def update (k : Notebook σ τ) (s : σ) (w : World τ Inst) : World τ Inst :=
  { w with outside := k.update s w.outside }

/-- The world after something has been noted. -/
def note (k : Notebook σ τ) (event : Event) (w : World τ Inst) : World τ Inst :=
  { w with outside := k.note event w.outside }

end World

/-! ## §4 Runs -/

/-- The engine that a machine is. -/
def Machine.engine (m : Machine Inst) (k : Notebook σ τ) : Engine τ Inst where
  instantiate wasm imports := pure (m.instantiate wasm imports)
  invoke host inst name args := fun c =>
    let behaviour := m.invoke inst name args c.view
    let ((result, view), world) :=
      behaviour.perform host (World.note k) (c.world.note k (.entered c.view))
    (result, view.withWorld world)

/-- Carry out a reaction. -/
def Reaction.perform (k : Notebook σ τ)
    (run : Invocation → Nat → StateM (World τ Inst) Execution) :
    Reaction σ α → StateM (World τ Inst) α
  | .answer a s => fun w => (a, w.update k s)
  | .run s i gas next => fun w =>
    let ran := run i gas (w.update k s)
    (next ran.1 (k.state ran.2.outside)).perform k run ran.2

/-- The host that an embedder is, when it runs contracts in a certain way. -/
def Embedder.host (e : Embedder σ) (k : Notebook σ τ)
    (run : Invocation → Nat → StateM (World τ Inst) Execution) : Host (World τ Inst) :=
  .ofAnswers
    (fun key q w =>
      let noted := w.note k (.asked key q)
      (e.react key q (k.state noted.outside)).perform k run noted)
    fun w => e.sha256 (k.state w.outside)

/-- Run an invocation, with runs nested in it down to a certain level. A run that ends is nested to
some depth only: with as many levels, nothing is left to `beyond`. -/
def Embedder.run (e : Embedder σ) (m : Machine Inst) (k : Notebook σ τ) :
    (level : Nat) → Invocation → (gas : Nat) → StateM (World τ Inst) Execution
  | 0, i, gas => fun w =>
    let (execution, s) := e.beyond i gas (k.state w.outside)
    (execution, w.update k s)
  | level + 1, i, gas => fun w =>
    let noted := w.note k (.ran i gas (e.sha256 (k.state w.outside) i.code))
    World.run (m.engine k) (e.host k (e.run m k level)) i gas noted

/-- Without notes, a run is what the sandbox does for the machine's engine and the embedder's host. -/
theorem Embedder.run_plain (e : Embedder σ) (m : Machine Inst) (level : Nat) (i : Invocation)
    (gas : Nat) (w : World σ Inst) :
    e.run m .plain (level + 1) i gas w =
      World.run (m.engine .plain) (e.host .plain (e.run m .plain level)) i gas w :=
  rfl

end MeteredWasm
