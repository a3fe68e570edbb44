import MeteredWasm.Proofs.Sandbox.BuildFailures
import MeteredWasm.Proofs.Sandbox.MemoryLimits

/-!
# Runs that do not enter their module

There is much that ends a run before the machine is asked to invoke anything: an invocation that is
refused, a code that cannot be built or could not be built earlier, an entry point that is missing
or has other parameters. None of this costs or prints anything or calls back into the host, save for
the digest of the code. And however a run ends, it does not end with an exit.
-/

namespace MeteredWasm

open Wasm (Value)

variable {σ Inst : Type} {engine : Engine σ Inst} {host : Host (World σ Inst)} {i : Invocation}
  {gas : Nat} {w : World σ Inst}

/-! ## §1 What is in a cache -/

/-- Every outcome in the cache is what has come of building some code, under the limits of the
sandbox and with the machine in some state. -/
def Sandbox.Genuine (engine : Engine σ Inst) (sandbox : Sandbox Inst) : Prop :=
  ∀ entry ∈ sandbox.cache.entries, ∃ code s,
    entry.2 = (Loaded.build engine sandbox.config.maxMemoryPages code s).1

theorem Sandbox.genuine_fresh (engine : Engine σ Inst) (config : Config) :
    (Sandbox.fresh config).Genuine engine :=
  nofun

namespace World

/-- What is loaded is what has come of building some code. -/
theorem load_genuine (hw : w.sandbox.Genuine engine) (id : Digest) (code : List UInt8) :
    (∃ code' s, (load engine id code w).1 =
      (Loaded.build engine w.sandbox.config.maxMemoryPages code' s).1) ∧
    (load engine id code w).2.sandbox.config = w.sandbox.config ∧
    (load engine id code w).2.sandbox.Genuine engine := by
  cases hlookup : w.sandbox.cache.entries.lookup id with
  | some outcome =>
    obtain ⟨before, after, hsplit, _⟩ := List.lookup_eq_some_iff.mp hlookup
    rw [load_of_lookup_some engine hlookup]
    exact ⟨hw (id, outcome) (by simp [hsplit]), rfl, hw⟩
  | none =>
    rw [load_of_lookup_none engine hlookup]
    refine ⟨⟨code, w.outside, rfl⟩, rfl, ?_⟩
    intro entry hentry
    rcases List.mem_cons.mp hentry with rfl | hold
    · exact ⟨code, w.outside, rfl⟩
    · exact hw entry hold

/-- Runs keep the cache genuine, if what the machine invokes does. -/
theorem run_genuine (hinvoke : ∀ inst name args c, c.world.sandbox.Genuine engine →
      ((engine.invoke host inst name args).exec c).2.world.sandbox.Genuine engine)
    (hw : w.sandbox.Genuine engine) : (run engine host i gas w).2.sandbox.Genuine engine := by
  rw [run_eq]
  split_ifs
  · exact hw
  · cases Action.ofPayload i.payload with
    | error e => exact hw
    | ok action =>
      obtain ⟨-, -, hloaded⟩ := load_genuine hw (host.sha256 w i.code) i.code
      generalize load engine (host.sha256 w i.code) i.code w = step at hloaded ⊢
      obtain ⟨outcome, loaded⟩ := step
      cases outcome with
      | error e => exact hloaded
      | ok l =>
        show (runLoaded engine host l action i gas loaded).2.sandbox.Genuine engine
        rw [runLoaded_eq]
        dsimp only
        -- without the machine the world stays as it is
        rcases l.apply_cases action.name with ⟨r, h⟩ | ⟨memory, h⟩
        · rw [h]
          exact hloaded
        · rw [h]
          exact hinvoke l.inst _ _ _ hloaded

end World

section Histories

variable {τ α : Type} {m : Machine Inst} {k : Notebook σ τ}

theorem Reaction.genuine {engine : Engine τ Inst}
    {run : Invocation → Nat → StateM (World τ Inst) Execution}
    (hrun : ∀ i gas w, w.sandbox.Genuine engine → (run i gas w).2.sandbox.Genuine engine)
    (r : Reaction σ α) (w : World τ Inst) (hw : w.sandbox.Genuine engine) :
    (r.perform k run w).2.sandbox.Genuine engine := by
  induction r generalizing w with
  | answer a s => exact hw
  | run s i gas next ih => exact ih _ _ _ (hrun i gas (w.update k s) hw)

/-- So do runs of embedders, whatever contracts call each other. -/
theorem Embedder.run_genuine (e : Embedder σ) (level : Nat) (i : Invocation) (gas : Nat)
    (w : World τ Inst) (hw : w.sandbox.Genuine (m.engine k)) :
    (e.run m k level i gas w).2.sandbox.Genuine (m.engine k) := by
  induction level generalizing i gas w with
  | zero => exact hw
  | succ level ih =>
    refine World.run_genuine ?_ hw
    intro inst name args c hc
    -- being genuine is kept by the answers of the host, and notes do not concern the sandbox
    let M := fun w w' : World τ Inst =>
      w.sandbox.Genuine (m.engine k) → w'.sandbox.Genuine (m.engine k)
    have hanswer : ∀ key q w, M w ((e.host k (e.run m k level)).answer key q w).2 := by
      intro key q w hw
      rw [host, Host.answer_ofAnswers]
      exact Reaction.genuine (fun i gas w => ih i gas w) _ _ hw
    have hnote : ∀ (event : Event) w, event.use? = none → M w (w.note k event) :=
      fun _ _ _ h => h
    exact Behaviour.frame (M := M) (fun _ h => h) (fun _ _ _ h₁ h₂ h => h₂ (h₁ h)) hanswer hnote
      (m.invoke inst name args c.view) (c.world.note k (.entered c.view)) hc

/-- The cache of a sandbox is genuine, whatever requests it has served. -/
theorem Request.serve_genuine (m : Machine Inst) (config : Config) (past : List (Request σ)) :
    (serve m past (.fresh config)).Genuine (m.engine (.plain : Notebook σ σ)) := by
  suffices h : ∀ sandbox : Sandbox Inst, sandbox.Genuine (m.engine (.plain : Notebook σ σ)) →
      (serve m past sandbox).Genuine (m.engine (.plain : Notebook σ σ)) from
    h _ (Sandbox.genuine_fresh _ config)
  induction past with
  | nil => exact fun _ h => h
  | cons r rest ih =>
    intro sandbox h
    exact ih _ (Embedder.run_genuine r.embedder _ r.invocation r.gas ⟨r.state, sandbox⟩ h)

end Histories

/-! ## §2 Calling the entry point -/

namespace Loaded

/-- Without an entry point there is nothing to do. -/
theorem exec_apply_missing {l : Loaded Inst} (h : l.exports.lookup entryPoint = none)
    (engine : Engine σ Inst) (host : Host (World σ Inst)) (action : Name)
    (c : Context (World σ Inst)) : (apply engine host l action).exec c = (.ok (), c) := by
  unfold apply call
  rw [h]
  rfl

/-- An entry point whose first parameter has another type is refused. -/
theorem exec_apply_parameter {l : Loaded Inst} {signature : Wasm.Signature} {type : Wasm.ValueType}
    (h : l.exports.lookup entryPoint = some signature)
    (hfirst : signature.params.head? = some type) (htype : type ≠ .i64) (engine : Engine σ Inst)
    (host : Host (World σ Inst)) (action : Name) (c : Context (World σ Inst)) :
    (apply engine host l action).exec c = (.error (.entryPointParameter entryPoint), c) := by
  unfold apply
  rw [h, Option.bind_some, hfirst]
  cases type with
  | i64 => exact absurd rfl htype
  | _ => rfl

/-- So is one with another number of parameters. -/
theorem exec_apply_arity {l : Loaded Inst} {signature : Wasm.Signature}
    (h : l.exports.lookup entryPoint = some signature)
    (hfirst : ∀ type, signature.params.head? = some type → type = .i64)
    (harity : signature.params.length ≠ 1) (engine : Engine σ Inst)
    (host : Host (World σ Inst)) (action : Name) (c : Context (World σ Inst)) :
    (apply engine host l action).exec c =
      (.error (.exportArity entryPoint signature.params.length 1), c) := by
  have hhead : signature.params.head? = none ∨ signature.params.head? = some .i64 := by
    cases hparams : signature.params.head? with
    | none => exact .inl rfl
    | some type => exact .inr (congrArg some (hfirst type hparams))
  unfold apply call
  rw [h, Option.bind_some]
  have hlength : signature.params.length ≠ [Value.i64 action.value].length := harity
  rcases hhead with hhead | hhead <;>
  · rw [hhead]
    simp only [if_pos hlength]
    rfl

/-- With an entry point as it has to be, the machine invokes it, over a memory that has been set
up. -/
theorem exec_apply_entered {l : Loaded Inst} {signature : Wasm.Signature} {memory : LinearMemory}
    (h : l.exports.lookup entryPoint = some signature) (hparams : signature.params = [.i64])
    (hreset : LinearMemory.reset l.initialPages l.image = .ok memory) (engine : Engine σ Inst)
    (host : Host (World σ Inst)) (action : Name) (c : Context (World σ Inst)) :
    (apply engine host l action).exec c =
      let invoked := (engine.invoke host l.inst entryPoint [.i64 action.value]).exec
        (l.entered memory c)
      ((afterExit invoked.1).map fun _ => (), invoked.2) := by
  have harity : signature.params.length = [Value.i64 action.value].length := by
    rw [hparams]
    rfl
  unfold apply
  rw [h, Option.bind_some, hparams]
  show (do let _ ← call engine host l entryPoint [.i64 action.value] : Session _ Unit).exec c = _
  rw [exec_ignore, exec_call hreset h harity]

/-- The boundary of a call turns exits into normal ends. -/
theorem neverExits_afterExit (r : Except Fault (Option Value)) : NeverExits (afterExit r) := by
  unfold afterExit
  split
  · exact .ok none
  · rename_i hother
    exact fun code heq => hother code heq

end Loaded

/-- Without an exit the status tells success from failure. -/
theorem Execution.status_of_neverExits (e : Execution) (h : NeverExits e.result) :
    (e.status = 0 ↔ e.result = .ok ()) ∧
      (e.status ≠ 0 → 20001 ≤ e.status ∧ e.status ≤ 20007) := by
  unfold status
  cases hresult : e.result with
  | ok _ => exact ⟨⟨fun _ => rfl, fun _ => rfl⟩, fun hne => absurd rfl hne⟩
  | error f =>
    have hcode : 20001 ≤ f.code ∧ f.code ≤ 20007 := by
      unfold Fault.code
      cases hkind : f.kind? with
      | none =>
        cases f with
        | exit code => exact absurd hresult (h code)
        | trap cause => cases cause <;> cases hkind
        | _ => cases hkind
      | some kind => cases kind <;> decide
    refine ⟨⟨?_, nofun⟩, fun _ => hcode⟩
    intro hzero
    have hsuccess : f.code = 0 := hzero
    omega

/-! ## §3 Ends before the module is entered -/

namespace World

/-- An invocation is admitted and its code is loaded. -/
structure Loads (engine : Engine σ Inst) (host : Host (World σ Inst)) (i : Invocation)
    (w : World σ Inst) (l : Loaded Inst) : Prop where
  depth : ¬w.sandbox.config.maxCallDepth < i.depth
  payload : ¬i.payload.length < 8
  loaded : (load engine (host.sha256 w i.code) i.code w).1 = .ok l

/-- Why a run fails without entering a module. -/
inductive Refused (engine : Engine σ Inst) (host : Host (World σ Inst)) (i : Invocation)
    (w : World σ Inst) : Fault → Prop where
  | depth (h : w.sandbox.config.maxCallDepth < i.depth) :
      Refused engine host i w (.callDepth i.depth w.sandbox.config.maxCallDepth)
  | payload (hdepth : ¬w.sandbox.config.maxCallDepth < i.depth) (h : i.payload.length < 8) :
      Refused engine host i w (.payloadTooShort i.payload.length)
  /-- The code could not be built earlier. -/
  | kept {e : Fault} (hdepth : ¬w.sandbox.config.maxCallDepth < i.depth)
      (hpayload : ¬i.payload.length < 8)
      (h : w.sandbox.cache.entries.lookup (host.sha256 w i.code) = some (.error e)) :
      Refused engine host i w e
  /-- The code cannot be built now. -/
  | built {e : Fault} (hdepth : ¬w.sandbox.config.maxCallDepth < i.depth)
      (hpayload : ¬i.payload.length < 8)
      (hnew : w.sandbox.cache.entries.lookup (host.sha256 w i.code) = none)
      (h : Loaded.BuildFails engine w.sandbox.config.maxMemoryPages i.code w.outside e) :
      Refused engine host i w e
  | parameter {l : Loaded Inst} {signature : Wasm.Signature} {type : Wasm.ValueType}
      (hloads : Loads engine host i w l)
      (hexport : l.exports.lookup Loaded.entryPoint = some signature)
      (hfirst : signature.params.head? = some type) (h : type ≠ .i64) :
      Refused engine host i w (.entryPointParameter Loaded.entryPoint)
  | arity {l : Loaded Inst} {signature : Wasm.Signature} (hloads : Loads engine host i w l)
      (hexport : l.exports.lookup Loaded.entryPoint = some signature)
      (hfirst : ∀ type, signature.params.head? = some type → type = .i64)
      (h : signature.params.length ≠ 1) :
      Refused engine host i w (.exportArity Loaded.entryPoint signature.params.length 1)

/-- The loaded module has no entry point. -/
def LacksEntryPoint (engine : Engine σ Inst) (host : Host (World σ Inst)) (i : Invocation)
    (w : World σ Inst) : Prop :=
  ∃ l, Loads engine host i w l ∧ l.exports.lookup Loaded.entryPoint = none

/-- A run that ends with all its gas and without having printed anything. Nothing is invoked, and of
the host only the digest of the code matters: with any other functions in the machine and any other
callbacks the run is just the same. Outside of the sandbox nothing has changed but what the machine
may keep of one module. -/
def EndsQuietly (engine : Engine σ Inst) (host : Host (World σ Inst)) (i : Invocation) (gas : Nat)
    (w : World σ Inst) (r : Except Fault Unit) : Prop :=
  ∃ w' : World σ Inst, w'.sandbox.config = w.sandbox.config ∧
    (∃ modules, modules.length ≤ 1 ∧ w'.outside = engine.afterInstantiating w.outside modules) ∧
    ∀ (engine' : Engine σ Inst) (host' : Host (World σ Inst)),
      engine'.instantiate = engine.instantiate →
      host'.sha256 w i.code = host.sha256 w i.code →
      run engine' host' i gas w = (⟨r, "", gas⟩, w')

/-- A run whose outcome is what the machine makes of invoking the entry point. -/
def Enters (engine : Engine σ Inst) (host : Host (World σ Inst)) (i : Invocation) (gas : Nat)
    (w : World σ Inst) : Prop :=
  ∃ l action memory, Loads engine host i w l ∧ Action.ofPayload i.payload = .ok action ∧
    LinearMemory.reset l.initialPages l.image = .ok memory ∧
    let loaded := (load engine (host.sha256 w i.code) i.code w).2
    let start := Context.start (loaded.withPool loaded.sandbox.pool.tail)
      (loaded.sandbox.pool.headD LinearMemory.empty) gas action i loaded.sandbox.config
    let invoked := (engine.invoke host l.inst Loaded.entryPoint [.i64 action.name.value]).exec
      (l.entered memory start)
    (run engine host i gas w).1 =
      ⟨(Loaded.afterExit invoked.1).map fun _ => (), invoked.2.console, invoked.2.gas⟩

/-! ## §4 Quiet ends -/

theorem load_congr {engine' : Engine σ Inst} (h : engine'.instantiate = engine.instantiate)
    (id : Digest) (code : List UInt8) (w : World σ Inst) :
    load engine' id code w = load engine id code w := by
  cases hlookup : w.sandbox.cache.entries.lookup id with
  | some outcome =>
    rw [load_of_lookup_some engine hlookup, load_of_lookup_some engine' hlookup]
  | none =>
    rw [load_of_lookup_none engine hlookup, load_of_lookup_none engine' hlookup,
      Loaded.build_eq, Loaded.build_eq, h]

/-- Loading asks the machine for one module at most. -/
theorem load_outside (engine : Engine σ Inst) (id : Digest) (code : List UInt8)
    (w : World σ Inst) :
    ∃ modules, modules.length ≤ 1 ∧
      (load engine id code w).2.outside = engine.afterInstantiating w.outside modules := by
  cases hlookup : w.sandbox.cache.entries.lookup id with
  | some outcome =>
    rw [load_of_lookup_some engine hlookup]
    exact ⟨[], Nat.zero_le 1, rfl⟩
  | none =>
    rw [load_of_lookup_none engine hlookup]
    exact ⟨_, List.length_filterMap_le _ [code], Loaded.build_outside ..⟩

theorem load_config (engine : Engine σ Inst) (id : Digest) (code : List UInt8)
    (w : World σ Inst) : (load engine id code w).2.sandbox.config = w.sandbox.config := by
  cases hlookup : w.sandbox.cache.entries.lookup id with
  | some outcome => rw [load_of_lookup_some engine hlookup]
  | none => rw [load_of_lookup_none engine hlookup]

theorem ofPayload_eq_ok {payload : List UInt8} (h : ¬payload.length < 8) :
    ∃ action, Action.ofPayload payload = .ok action :=
  ⟨_, if_neg h⟩

/-- A code that cannot be loaded. -/
theorem endsQuietly_of_load {e : Fault} (hdepth : ¬w.sandbox.config.maxCallDepth < i.depth)
    (hpayload : ¬i.payload.length < 8)
    (hload : (load engine (host.sha256 w i.code) i.code w).1 = .error e) :
    EndsQuietly engine host i gas w (.error e) := by
  obtain ⟨action, haction⟩ := ofPayload_eq_ok hpayload
  refine ⟨(load engine (host.sha256 w i.code) i.code w).2, load_config .., load_outside .., ?_⟩
  intro engine' host' hinstantiate hdigest
  rw [run_eq, if_neg hdepth, haction, hdigest, load_congr hinstantiate]
  generalize load engine (host.sha256 w i.code) i.code w = step at hload
  obtain ⟨outcome, loaded⟩ := step
  obtain rfl : outcome = .error e := hload
  rfl

/-- A module that is loaded but not entered. -/
theorem endsQuietly_of_apply {l : Loaded Inst} (hloads : Loads engine host i w l)
    {r : Except Fault Unit}
    (happly : ∀ (engine : Engine σ Inst) (host : Host (World σ Inst)) (action : Name)
      (c : Context (World σ Inst)), (l.apply engine host action).exec c = (r, c)) :
    EndsQuietly engine host i gas w r := by
  obtain ⟨action, haction⟩ := ofPayload_eq_ok hloads.payload
  let loaded := (load engine (host.sha256 w i.code) i.code w).2
  -- the memory that was lent goes back to the pool
  refine ⟨loaded.withPool (loaded.sandbox.pool.headD .empty :: loaded.sandbox.pool.tail),
    load_config .., load_outside .., ?_⟩
  intro engine' host' hinstantiate hdigest
  have hload : load engine (host.sha256 w i.code) i.code w = (.ok l, loaded) :=
    Prod.ext hloads.loaded rfl
  rw [run_eq, if_neg hloads.depth, haction, hdigest, load_congr hinstantiate, hload]
  show runLoaded engine' host' l action i gas loaded = _
  rw [runLoaded_eq]
  dsimp only
  rw [happly]
  rfl

theorem Refused.endsQuietly {e : Fault} (h : Refused engine host i w e) :
    EndsQuietly engine host i gas w (.error e) := by
  cases h with
  | depth hdepth =>
    refine ⟨w, rfl, ⟨[], Nat.zero_le 1, rfl⟩, ?_⟩
    intro engine' host' _ _
    rw [run_eq, if_pos hdepth]
  | payload hdepth hshort =>
    refine ⟨w, rfl, ⟨[], Nat.zero_le 1, rfl⟩, ?_⟩
    intro engine' host' _ _
    rw [run_eq, if_neg hdepth, Action.ofPayload, if_pos hshort]
  | kept hdepth hpayload hkept =>
    refine endsQuietly_of_load hdepth hpayload ?_
    rw [load_of_lookup_some engine hkept]
  | built hdepth hpayload hnew hfails =>
    refine endsQuietly_of_load hdepth hpayload ?_
    rw [load_of_lookup_none engine hnew]
    exact Loaded.build_eq_error.mpr hfails
  | parameter hloads hexport hfirst htype =>
    exact endsQuietly_of_apply hloads (Loaded.exec_apply_parameter hexport hfirst htype)
  | arity hloads hexport hfirst harity =>
    exact endsQuietly_of_apply hloads (Loaded.exec_apply_arity hexport hfirst harity)

theorem LacksEntryPoint.endsQuietly (h : LacksEntryPoint engine host i w) :
    EndsQuietly engine host i gas w (.ok ()) := by
  obtain ⟨l, hloads, hexport⟩ := h
  exact endsQuietly_of_apply hloads (Loaded.exec_apply_missing hexport)

/-- There is no other way for a run to end before the module is entered. -/
theorem refused_or_enters (hw : w.sandbox.Genuine engine) :
    (∃ e, Refused engine host i w e) ∨ LacksEntryPoint engine host i w ∨
      Enters engine host i gas w := by
  by_cases hdepth : w.sandbox.config.maxCallDepth < i.depth
  · exact .inl ⟨_, .depth hdepth⟩
  by_cases hpayload : i.payload.length < 8
  · exact .inl ⟨_, .payload hdepth hpayload⟩
  cases hload : (load engine (host.sha256 w i.code) i.code w).1 with
  | error e =>
    left
    cases hlookup : w.sandbox.cache.entries.lookup (host.sha256 w i.code) with
    | some outcome =>
      rw [load_of_lookup_some engine hlookup] at hload
      obtain rfl : outcome = .error e := hload
      exact ⟨e, .kept hdepth hpayload hlookup⟩
    | none =>
      rw [load_of_lookup_none engine hlookup] at hload
      exact ⟨e, .built hdepth hpayload hlookup (Loaded.build_eq_error.mp hload)⟩
  | ok l =>
    have hloads : Loads engine host i w l := ⟨hdepth, hpayload, hload⟩
    cases hexport : l.exports.lookup Loaded.entryPoint with
    | none => exact .inr (.inl ⟨l, hloads, hexport⟩)
    | some signature =>
      by_cases hfirst : ∀ type, signature.params.head? = some type → type = .i64
      · by_cases harity : signature.params.length = 1
        · right; right
          obtain ⟨type, hparams⟩ := List.length_eq_one_iff.mp harity
          have htype : type = .i64 := hfirst type (by rw [hparams]; rfl)
          obtain ⟨action, haction⟩ := ofPayload_eq_ok hpayload
          -- the image fits, as it does in all that is built
          obtain ⟨code, s, hbuilt⟩ := (load_genuine hw (host.sha256 w i.code) i.code).1
          obtain ⟨memory, hreset⟩ :=
            LinearMemory.reset_of_le (Loaded.build_within (hbuilt.symm.trans hload)).1
          refine ⟨l, action, memory, hloads, haction, hreset, ?_⟩
          rw [run_eq, if_neg hdepth, haction]
          generalize load engine (host.sha256 w i.code) i.code w = step at hload ⊢
          obtain ⟨outcome, loaded⟩ := step
          obtain rfl : outcome = .ok l := hload
          dsimp only
          rw [runLoaded_eq]
          dsimp only
          rw [Loaded.exec_apply_entered hexport (htype ▸ hparams) hreset]
        · exact .inl ⟨_, .arity hloads hexport hfirst harity⟩
      · push Not at hfirst
        obtain ⟨type, hhead, htype⟩ := hfirst
        exact .inl ⟨_, .parameter hloads hexport hhead htype⟩

/-! ## §5 How runs end -/

theorem Refused.neverExits {e : Fault} (h : Refused engine host i w e)
    (hexit : ∀ wasm imports s, NeverExits (engine.instantiate wasm imports s).1)
    (hw : w.sandbox.Genuine engine) : NeverExits (.error e : Except Fault Unit) := by
  cases h with
  | depth => exact .error (by simp [Fault.kind?])
  | payload => exact .error (by simp [Fault.kind?])
  | kept _ _ hkept =>
    obtain ⟨before, after, hsplit, _⟩ := List.lookup_eq_some_iff.mp hkept
    obtain ⟨code, s, hbuilt⟩ := hw (host.sha256 w i.code, .error e) (by simp [hsplit])
    exact (Loaded.neverExits_build hexit _ code s).passOn hbuilt.symm
  | built _ _ _ hfails =>
    exact (Loaded.neverExits_build hexit _ _ _).passOn (Loaded.build_eq_error.mpr hfails)
  | parameter => exact .error (by simp [Fault.kind?])
  | arity => exact .error (by simp [Fault.kind?])

/-- No run ends with an exit. -/
theorem run_neverExits (hexit : ∀ wasm imports s, NeverExits (engine.instantiate wasm imports s).1)
    (hw : w.sandbox.Genuine engine) (host : Host (World σ Inst)) (i : Invocation) (gas : Nat) :
    NeverExits (run engine host i gas w).1.result := by
  -- the boundary of a call takes exits away, and nothing before it knows of them
  rcases refused_or_enters hw with ⟨e, hrefused⟩ | hlacks | henters
  · have hquiet : EndsQuietly engine host i gas w (.error e) := hrefused.endsQuietly
    obtain ⟨w', -, -, hrun⟩ := hquiet
    rw [hrun engine host rfl rfl]
    exact hrefused.neverExits hexit hw
  · have hquiet : EndsQuietly engine host i gas w (.ok ()) := hlacks.endsQuietly
    obtain ⟨w', -, -, hrun⟩ := hquiet
    rw [hrun engine host rfl rfl]
    exact .ok ()
  · obtain ⟨l, action, memory, -, -, -, hrun⟩ := henters
    rw [hrun]
    exact (Loaded.neverExits_afterExit _).map _

/-- For every machine that never exits while it instantiates a module, every host and every
invocation of a contract, whatever the sandbox was used for: a run that is refused, or has no entry
point to call, ends quietly, in the former case with a fault and in the latter without, and every
other run invokes the entry point. No run ends with an exit, so that the status is zero exactly for
runs that succeed, and otherwise one of the codes from 20001 to 20007. -/
theorem run_endsEarly (hexit : ∀ wasm imports s, NeverExits (engine.instantiate wasm imports s).1)
    (hw : w.sandbox.Genuine engine) (host : Host (World σ Inst)) (i : Invocation) (gas : Nat) :
    let execution := (run engine host i gas w).1
    (∀ e, Refused engine host i w e → EndsQuietly engine host i gas w (.error e)) ∧
      (LacksEntryPoint engine host i w → EndsQuietly engine host i gas w (.ok ())) ∧
      ((∀ e, ¬Refused engine host i w e) → ¬LacksEntryPoint engine host i w →
        Enters engine host i gas w) ∧
      NeverExits execution.result ∧
      (execution.status = 0 ↔ execution.result = .ok ()) ∧
      (execution.status ≠ 0 → 20001 ≤ execution.status ∧ execution.status ≤ 20007) := by
  intro execution
  have hnever : NeverExits execution.result := run_neverExits hexit hw host i gas
  refine ⟨fun e h => h.endsQuietly, fun h => h.endsQuietly, ?_, hnever, ?_⟩
  · intro hrefused hlacks
    rcases refused_or_enters hw with ⟨e, h⟩ | h | h
    · exact absurd h (hrefused e)
    · exact absurd h hlacks
    · exact h
  · exact execution.status_of_neverExits hnever

end World

namespace Request

/-- A module without an entry point costs nothing to run, and succeeds. -/
theorem run_endsEarly_emptyContract :
    let engine : Engine Nat Unit := forwarder.engine .plain
    let host := relay.host .plain (relay.run forwarder .plain 0)
    let i := (relayed emptyContract).invocation
    let w : World Nat Unit := ⟨0, .fresh {}⟩
    World.EndsQuietly engine host i 250 w (.ok ()) ∧
      (World.run engine host i 250 w).1.status = 0 := by
  intro engine host i w
  have hexit : ∀ wasm imports s, NeverExits (engine.instantiate wasm imports s).1 :=
    fun _ _ _ => .ok ()
  have hw : w.sandbox.Genuine engine := Sandbox.genuine_fresh engine {}
  obtain ⟨-, hlacks, -, -, hstatus, -⟩ := World.run_endsEarly hexit hw host i 250
  have hquiet := hlacks ⟨_, ⟨by decide, by decide, rfl⟩, rfl⟩
  refine ⟨hquiet, hstatus.mpr ?_⟩
  obtain ⟨w', -, -, hrun⟩ := hquiet
  rw [hrun engine host rfl rfl]

end Request

end MeteredWasm
