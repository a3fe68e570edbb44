import MeteredWasm.Proofs.Intrinsic.Steps
import MeteredWasm.Proofs.Sandbox.Caching
import MeteredWasm.Proofs.Sandbox.Embedding

/-!
# The phases of a run

A run checks the invocation, loads the code, and lets the machine behave. What holds of each phase
holds of the run: here, that a full notebook only ever gets longer, by events of a certain kind.
-/

namespace MeteredWasm

open Wasm (Value)

variable {σ τ Inst α : Type}

/-! ## §1 Case by case -/

namespace World

/-- The world with other memories in the pool. -/
def withPool (w : World τ Inst) (pool : List LinearMemory) : World τ Inst :=
  { w with sandbox := { w.sandbox with pool := pool } }

theorem run_eq (engine : Engine τ Inst) (host : Host (World τ Inst)) (i : Invocation)
    (gas : Nat) (w : World τ Inst) :
    World.run engine host i gas w =
      if w.sandbox.config.maxCallDepth < i.depth then
        (⟨.error (.callDepth i.depth w.sandbox.config.maxCallDepth), "", gas⟩, w)
      else match Action.ofPayload i.payload with
        | .error e => (⟨.error e, "", gas⟩, w)
        | .ok action =>
          match World.load engine (host.sha256 w i.code) i.code w with
          | (.error e, loaded) => (⟨.error e, "", gas⟩, loaded)
          | (.ok l, loaded) => World.runLoaded engine host l action i gas loaded := by
  unfold World.run
  simp only [bind, StateT.bind, get, getThe, MonadStateOf.get, StateT.get, pure]
  split_ifs
  · rfl
  · cases Action.ofPayload i.payload with
    | error e => rfl
    | ok action =>
      cases hload : World.load engine (host.sha256 w i.code) i.code w with
      | mk outcome loaded =>
        simp only [StateT.bind, hload]
        cases outcome <;> rfl

end World

namespace Loaded

/-- Calling an exported function is decided by what is known of the module, or it is to reset the
memory and let the engine go. -/
theorem call_cases (l : Loaded Inst) (name : String) (args : List Value) :
    (∃ r : Except Fault (Option Value), ∀ {τ : Type} (engine : Engine τ Inst)
      (host : Host (World τ Inst)) (c : Context (World τ Inst)),
      (call engine host l name args).exec c = (r, c)) ∨
    ∃ memory, ∀ {τ : Type} (engine : Engine τ Inst) (host : Host (World τ Inst))
      (c : Context (World τ Inst)), (call engine host l name args).exec c =
        let invoked := (engine.invoke host l.inst name args).exec
          { c with memory := memory, maxPages := l.maxPages }
        (afterExit invoked.1, invoked.2) := by
  unfold call
  cases l.exports.lookup name with
  | none => exact .inl ⟨.ok none, fun _ _ _ => rfl⟩
  | some s =>
    by_cases harity : s.params.length ≠ args.length
    · refine .inl ⟨.error (.exportArity name s.params.length args.length), ?_⟩
      intro τ engine host c
      simp only [if_pos harity]
      rfl
    · simp only [if_neg harity]
      cases LinearMemory.reset l.initialPages l.image with
      | error t =>
        refine .inl ⟨.error (.trap t), ?_⟩
        intro τ engine host c
        exact Session.exec_bind_error (Session.exec_changeMemory_error (f := fun _ => .error t) rfl)
      | ok memory =>
        refine .inr ⟨memory, ?_⟩
        intro τ engine host c
        exact Session.exec_bind_ok (Session.exec_changeMemory_ok (f := fun _ => .ok memory) rfl)

theorem exec_ignore {ω : Type} (x : Session ω α) (c : Context ω) :
    (do let _ ← x : Session ω Unit).exec c = ((x.exec c).1.map fun _ => (), (x.exec c).2) := by
  rw [Session.exec_bind]
  obtain ⟨r, c'⟩ := x.exec c
  cases r <;> rfl

/-- The same of the entry point. -/
theorem apply_cases (l : Loaded Inst) (action : Name) :
    (∃ r : Except Fault Unit, ∀ {τ : Type} (engine : Engine τ Inst) (host : Host (World τ Inst))
      (c : Context (World τ Inst)), (apply engine host l action).exec c = (r, c)) ∨
    ∃ memory, ∀ {τ : Type} (engine : Engine τ Inst) (host : Host (World τ Inst))
      (c : Context (World τ Inst)), (apply engine host l action).exec c =
        let invoked := (engine.invoke host l.inst entryPoint [.i64 action.value]).exec
          { c with memory := memory, maxPages := l.maxPages }
        ((afterExit invoked.1).map fun _ => (), invoked.2) := by
  have hcall := l.call_cases entryPoint [.i64 action.value]
  have hparam : (∀ {τ : Type} (engine : Engine τ Inst) (host : Host (World τ Inst)),
      apply engine host l action =
        do let _ ← call engine host l entryPoint [.i64 action.value]) ∨
      ∀ {τ : Type} (engine : Engine τ Inst) (host : Host (World τ Inst)),
        apply engine host l action = throw (.entryPointParameter entryPoint) := by
    unfold apply
    cases (l.exports.lookup entryPoint).bind (·.params.head?) with
    | none => exact .inl fun _ _ => rfl
    | some type =>
      cases type with
      | i64 => exact .inl fun _ _ => rfl
      | _ => exact .inr fun _ _ => rfl
  rcases hparam with hgo | hrefuse
  · simp only [hgo, exec_ignore]
    rcases hcall with ⟨r, h⟩ | ⟨memory, h⟩
    · simp only [h]
      exact .inl ⟨r.map fun _ => (), fun _ _ _ => rfl⟩
    · simp only [h]
      exact .inr ⟨memory, fun _ _ _ => rfl⟩
  · simp only [hrefuse]
    exact .inl ⟨_, fun _ _ _ => rfl⟩

end Loaded

/-! ## §2 Behaving -/

/-- What a context shows when the entry point of a loaded module is invoked. -/
def Loaded.view (l : Loaded Inst) (memory : LinearMemory) (action : Action) (i : Invocation)
    (gas : Nat) (config : Config) : View :=
  ⟨(), memory, gas, "", l.maxPages, action, i, config⟩

/-- What is reported of a behaviour. -/
def Execution.ofPerformed (performed : Except Fault (Option Value) × View) : Execution :=
  ⟨(Loaded.afterExit performed.1).map fun _ => (), performed.2.console, performed.2.gas⟩

theorem World.runLoaded_eq (engine : Engine τ Inst) (host : Host (World τ Inst))
    (l : Loaded Inst) (action : Action) (i : Invocation) (gas : Nat) (w : World τ Inst) :
    runLoaded engine host l action i gas w =
      let memory := w.sandbox.pool.headD LinearMemory.empty
      let entered := w.withPool w.sandbox.pool.tail
      let ended := (Loaded.apply engine host l action.name).exec
        (.start entered memory gas action i w.sandbox.config)
      (⟨ended.1, ended.2.console, ended.2.gas⟩,
        ended.2.world.withPool (ended.2.memory :: ended.2.world.sandbox.pool)) :=
  rfl

/-- A loaded module is run without the machine, or by letting the machine behave on a memory that
has been reset. In the end the pool has the memory that it lent, or a new one. -/
theorem World.runLoaded_cases (m : Machine Inst) (l : Loaded Inst) (action : Action)
    (i : Invocation) (gas : Nat) :
    (∃ r : Except Fault Unit, ∀ {σ τ : Type} (k : Notebook σ τ) (host : Host (World τ Inst))
      (w : World τ Inst), runLoaded (m.engine k) host l action i gas w =
        (⟨r, "", gas⟩, w.withPool (w.sandbox.pool.headD .empty :: w.sandbox.pool.tail))) ∨
    ∃ memory, ∀ {σ τ : Type} (k : Notebook σ τ) (host : Host (World τ Inst)) (w : World τ Inst),
      let view := l.view memory action i gas w.sandbox.config
      let behaviour := m.invoke l.inst Loaded.entryPoint [.i64 action.name.value] view
      let performed := behaviour.perform host (World.note k)
        ((w.withPool w.sandbox.pool.tail).note k (.entered view))
      runLoaded (m.engine k) host l action i gas w =
        (.ofPerformed performed.1,
          performed.2.withPool (performed.1.2.memory :: performed.2.sandbox.pool)) := by
  rcases l.apply_cases action.name with ⟨r, h⟩ | ⟨memory, h⟩
  · refine .inl ⟨r, ?_⟩
    intro σ τ k host w
    simp only [runLoaded_eq, h]
    rfl
  · refine .inr ⟨memory, ?_⟩
    intro σ τ k host w
    simp only [runLoaded_eq, h]
    rfl

/-! ## §3 Loading -/

theorem Machine.build_engine (m : Machine Inst) (k : Notebook σ τ) (maxPages : Nat)
    (code : List UInt8) (outside : τ) :
    Loaded.build (m.engine k) maxPages code outside = (m.build maxPages code, outside) := by
  rw [Loaded.build_eq]
  unfold Loaded.linked Machine.build
  cases Metering.instrument code maxPages with
  | error e => rfl
  | ok instrumented =>
    simp only [bind, Except.bind, pure, Except.pure]
    cases Visibility.everything.link instrumented.module with
    | error e => rfl
    | ok imports =>
      simp only [Machine.engine]
      cases m.instantiate instrumented.wasm imports <;> rfl

theorem World.load_eq (m : Machine Inst) (k : Notebook σ τ) (id : Digest) (code : List UInt8)
    (w : World τ Inst) :
    World.load (m.engine k) id code w =
      match w.sandbox.cache.entries.lookup id with
      | some outcome => (outcome, w)
      | none =>
        let outcome := m.build w.sandbox.config.maxMemoryPages code
        let cache := w.sandbox.cache.insert id outcome
        (outcome, { w with sandbox := { w.sandbox with cache := cache } }) := by
  cases hlookup : w.sandbox.cache.entries.lookup id with
  | some outcome => exact World.load_of_lookup_some _ hlookup code
  | none => rw [World.load_of_lookup_none _ hlookup, Machine.build_engine]

/-! ## §4 What runs leave alone -/

/-- A relation between a world and what becomes of it, kept by everything that happens during a run:
the sandbox may do with itself what it likes, the embedder goes from state to state, and events are
noted, where the uses among them are of a certain kind. -/
structure Notebook.Frame (k : Notebook σ τ) (P : Use → Prop)
    (M : World τ Inst → World τ Inst → Prop) : Prop where
  refl : ∀ w, M w w
  trans : ∀ w₁ w₂ w₃, M w₁ w₂ → M w₂ w₃ → M w₁ w₃
  sandbox : ∀ w sandbox, M w { w with sandbox := sandbox }
  update : ∀ w s, M w (w.update k s)
  note : ∀ w (event : Event), event.use?.elim True P → M w (w.note k event)

/-- A behaviour keeps the relations that the answers of its host and notes keep. -/
theorem Behaviour.frame {ω : Type} {host : Host ω} {note : Event → ω → ω} {M : ω → ω → Prop}
    (hrefl : ∀ w, M w w) (htrans : ∀ w₁ w₂ w₃, M w₁ w₂ → M w₂ w₃ → M w₁ w₃)
    (hanswer : ∀ key q w, M w (host.answer key q w).2)
    (hnote : ∀ (event : Event) w, event.use? = none → M w (note event w)) (b : Behaviour α) (w : ω) :
    M w (b.perform host note w).2 := by
  induction b generalizing w with
  | done c result => exact hrefl w
  | call c i args next ih =>
    have hcall : Session.Frame host (fun _ => True) fun c c' => M c.world c'.world :=
      { refl := fun c => hrefl c.world
        trans := fun _ _ _ => htrans _ _ _
        memory := fun c _ _ => hrefl c.world
        console := fun c _ => hrefl c.world
        answer := fun c q _ => hanswer c.invocation.stateKey q c.world }
    apply htrans _ _ _ (hnote (.called c i args) w rfl)
    apply htrans _ _ _ (Intrinsic.call_frame hcall (fun c _ => hrefl c.world) i args (c.withWorld _))
    exact htrans _ _ _ (hnote (.returned _ _) _ rfl) (ih _ _ _)
  | ask key q next ih => exact htrans _ _ _ (hanswer key q w) (ih _ _)
  | digest data next ih => exact htrans _ _ _ (hnote (.hashed data) w rfl) (ih _ _)

/-- Every run that a reaction makes is of a code of a certain kind. -/
def Reaction.Runs (C : List UInt8 → Prop) : Reaction σ α → Prop
  | .answer _ _ => True
  | .run _ i _ next => C i.code ∧ ∀ execution s, (next execution s).Runs C

theorem Reaction.runs_true (r : Reaction σ α) : r.Runs fun _ => True := by
  induction r with
  | answer a s => trivial
  | run s i gas next ih => exact ⟨trivial, ih⟩

section Frame

variable {k : Notebook σ τ} {P : Use → Prop} {M : World τ Inst → World τ Inst → Prop}
  {C : List UInt8 → Prop}

theorem Reaction.frame (hM : k.Frame P M)
    {run : Invocation → Nat → StateM (World τ Inst) Execution}
    (hrun : ∀ i gas w, C i.code → M w (run i gas w).2) {r : Reaction σ α} (hr : r.Runs C)
    (w : World τ Inst) : M w (r.perform k run w).2 := by
  induction r generalizing w with
  | answer a s => exact hM.update w s
  | run s i gas next ih =>
    obtain ⟨hcode, hnext⟩ := hr
    have hfirst := hM.trans _ _ _ (hM.update w s) (hrun i gas (w.update k s) hcode)
    exact hM.trans _ _ _ hfirst (ih _ _ (hnext _ _) _)

theorem World.load_frame (hM : k.Frame P M) (m : Machine Inst) (id : Digest) (code : List UInt8)
    (w : World τ Inst) : M w (World.load (m.engine k) id code w).2 := by
  rw [World.load_eq]
  cases w.sandbox.cache.entries.lookup id with
  | some outcome => exact hM.refl w
  | none => exact hM.sandbox w _

theorem World.runLoaded_frame (hM : k.Frame P M) (m : Machine Inst)
    {host : Host (World τ Inst)} (hanswer : ∀ key q w, M w (host.answer key q w).2)
    (l : Loaded Inst) (action : Action) (i : Invocation) (gas : Nat) (w : World τ Inst) :
    M w (World.runLoaded (m.engine k) host l action i gas w).2 := by
  rcases World.runLoaded_cases m l action i gas with ⟨r, h⟩ | ⟨memory, h⟩
  · rw [h]
    exact hM.sandbox w _
  · rw [h]
    -- lend a memory, note what the function sees, behave, take the memory back
    apply hM.trans _ _ _ (hM.sandbox w _)
    apply hM.trans _ _ _ (hM.note _ (.entered _) trivial)
    have hnote : ∀ (event : Event) w, event.use? = none → M w (w.note k event) := by
      intro event w huse
      apply hM.note w event
      rw [huse]
      trivial
    apply hM.trans _ _ _ (Behaviour.frame hM.refl hM.trans hanswer hnote _ _)
    exact hM.sandbox _ _

theorem World.run_frame (hM : k.Frame P M) (m : Machine Inst) {host : Host (World τ Inst)}
    (hanswer : ∀ key q w, M w (host.answer key q w).2) (i : Invocation) (gas : Nat) (w : World τ Inst) :
    M w (World.run (m.engine k) host i gas w).2 := by
  rw [World.run_eq]
  split_ifs
  · exact hM.refl w
  · cases Action.ofPayload i.payload with
    | error e => exact hM.refl w
    | ok action =>
      have hload := World.load_frame hM m (host.sha256 w i.code) i.code w
      generalize World.load (m.engine k) (host.sha256 w i.code) i.code w = step at hload ⊢
      obtain ⟨outcome, loaded⟩ := step
      cases outcome with
      | error e => exact hload
      | ok l =>
        exact hM.trans _ _ _ hload (World.runLoaded_frame hM m hanswer l action i gas _)

/-- Runs keep the relations that all their phases keep. -/
theorem Embedder.run_frame (hM : k.Frame P M) {e : Embedder σ} (m : Machine Inst)
    (hruns : ∀ key q s, (e.react key q s).Runs C)
    (hran : ∀ s code, C code → P (e.sha256 s code, code)) (level : Nat) (i : Invocation)
    (gas : Nat) (w : World τ Inst) (hcode : C i.code) :
    M w (e.run m k level i gas w).2 := by
  induction level generalizing i gas w with
  | zero => exact hM.update w _
  | succ level ih =>
    have hanswer : ∀ key q w, M w ((e.host k (e.run m k level)).answer key q w).2 := by
      intro key q w
      rw [host, Host.answer_ofAnswers]
      exact hM.trans _ _ _ (hM.note w (.asked key q) trivial)
        (Reaction.frame hM (fun i gas w => ih i gas w) (hruns _ _ _) _)
    exact hM.trans _ _ _ (hM.note w (.ran i gas _) (hran _ _ hcode))
      (World.run_frame hM m hanswer i gas _)

end Frame

end MeteredWasm
