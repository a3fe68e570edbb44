import MeteredWasm.Proofs.Sandbox.Phases

/-!
# Isolation from history

A run cannot tell what its sandbox has been used for. The cache gives what building the code would
give, as long as no two codes that were run share a digest, and the memory of a run is reset before
the contract sees it. So a run on a used sandbox and a run on a fresh one agree in their outcome, in
what they leave of the embedder, and in everything that happens on the way.
-/

namespace MeteredWasm

variable {σ τ Inst α : Type}

/-! ## §1 Codes and digests -/

/-- The codes that were run, with their digests. -/
def uses (events : List Event) : List Use :=
  events.filterMap Event.use?

/-- Different codes have different digests. -/
def CollisionFree (used : List Use) : Prop :=
  ∀ a ∈ used, ∀ b ∈ used, a.1 = b.1 → a.2 = b.2

theorem CollisionFree.subset {used used' : List Use} (h : CollisionFree used')
    (hsub : ∀ use ∈ used, use ∈ used') : CollisionFree used :=
  fun a ha b hb => h a (hsub a ha) b (hsub b hb)

theorem uses_append (events later : List Event) : uses (events ++ later) = uses events ++ uses later :=
  List.filterMap_append

theorem mem_uses_ran (events : List Event) (i : Invocation) (gas : Nat) (digest : Digest) :
    (digest, i.code) ∈ uses (events ++ [.ran i gas digest]) := by
  rw [uses_append]
  exact List.mem_append_right _ (List.mem_singleton_self _)

theorem mem_uses_append {earlier : List Use} {events : List Event} {use : Use}
    (h : use ∈ earlier ++ uses events) (later : List Event) :
    use ∈ earlier ++ uses (events ++ later) := by
  rw [uses_append, ← List.append_assoc]
  exact List.mem_append_left _ h

/-! ## §2 Faithful caches -/

/-- A sandbox with certain limits, whose cache has nothing but outcomes of building codes that were
used, each under a digest with which its code was used. -/
structure Sandbox.Faithful (m : Machine Inst) (config : Config) (used : List Use)
    (sandbox : Sandbox Inst) : Prop where
  config_eq : sandbox.config = config
  entries : ∀ entry ∈ sandbox.cache.entries, ∃ code,
    (entry.1, code) ∈ used ∧ entry.2 = m.build config.maxMemoryPages code

namespace Sandbox.Faithful

variable {m : Machine Inst} {config : Config} {used used' : List Use} {sandbox : Sandbox Inst}

theorem fresh (m : Machine Inst) (config : Config) (used : List Use) :
    (Sandbox.fresh config).Faithful m config used :=
  ⟨rfl, nofun⟩

theorem subset (h : sandbox.Faithful m config used) (hsub : ∀ use ∈ used, use ∈ used') :
    sandbox.Faithful m config used' where
  config_eq := h.config_eq
  entries entry hentry := by
    obtain ⟨code, hcode, houtcome⟩ := h.entries entry hentry
    exact ⟨code, hsub _ hcode, houtcome⟩

theorem withPool (h : sandbox.Faithful m config used) (pool : List LinearMemory) :
    { sandbox with pool := pool }.Faithful m config used :=
  ⟨h.config_eq, h.entries⟩

/-- What a faithful cache gives is what building the code gives. -/
theorem load {k : Notebook σ τ} {id : Digest} {code : List UInt8} {w : World τ Inst}
    (h : w.sandbox.Faithful m config used) (hfree : CollisionFree used)
    (huse : (id, code) ∈ used) :
    (World.load (m.engine k) id code w).1 = m.build config.maxMemoryPages code ∧
      (World.load (m.engine k) id code w).2.outside = w.outside ∧
      (World.load (m.engine k) id code w).2.sandbox.Faithful m config used := by
  rw [World.load_eq]
  cases hlookup : w.sandbox.cache.entries.lookup id with
  | some outcome =>
    obtain ⟨before, after, hsplit, _⟩ := List.lookup_eq_some_iff.mp hlookup
    have hentry : (id, outcome) ∈ w.sandbox.cache.entries := by simp [hsplit]
    obtain ⟨code', huse', houtcome⟩ := h.entries _ hentry
    -- the entry may have been made for another code only if the two share a digest
    have hsame : code' = code := hfree _ huse' _ huse rfl
    subst hsame
    exact ⟨houtcome, rfl, h⟩
  | none =>
    rw [h.config_eq]
    refine ⟨rfl, rfl, h.config_eq, ?_⟩
    intro entry hentry
    cases List.mem_cons.mp hentry with
    | inl hnew =>
      subst hnew
      exact ⟨code, huse, rfl⟩
    | inr hold => exact h.entries entry hold

end Sandbox.Faithful

/-! ## §3 Two runs in step -/

/-- A behaviour cannot tell hosts apart that answer alike. -/
theorem Behaviour.keeps {ω ω' : Type} {K : Comparison ω ω'} {host : Host ω} {host' : Host ω'}
    {note : Event → ω → ω} {note' : Event → ω' → ω'} (h : Host.Alike K host host')
    (hnote : ∀ event world world', K.related world world' →
      K.related (note event world) (note' event world'))
    (hnoteSpoils : ∀ event world, K.spoiled world → K.spoiled (note event world))
    (b : Behaviour α) : K.Keeps (b.perform host note) (b.perform host' note') := by
  have hspoils : ∀ (b : Behaviour α) world, K.spoiled world →
      K.spoiled (b.perform host note world).2 := fun b world =>
    b.frame (M := fun w w' => K.spoiled w → K.spoiled w') (fun _ h => h)
      (fun _ _ _ h₁ h₂ h => h₂ (h₁ h)) h.spoils (fun event w _ => hnoteSpoils event w) world
  induction b with
  | done c result => exact fun w w' hw _ => ⟨rfl, hw⟩
  | call c i args next ih =>
    intro w w' hw hclean
    let called := (i.call host args).exec (c.withWorld (note (.called c i args) w))
    obtain ⟨world', hworld', hcall⟩ := Intrinsic.call_related h i args
      (c.withWorld (note (.called c i args) w)) (note' (.called c i args) w') (hnote _ _ _ hw)
      fun hspoiled => hclean (hspoils (next _ _) _ (hnoteSpoils _ _ hspoiled))
    -- the intrinsic returns the same outcome and the same view to both
    have hexec : (i.call host' args).exec (c.withWorld (note' (.called c i args) w')) =
        (called.1, called.2.withWorld world') := hcall
    simp only [Behaviour.perform]
    rw [hexec]
    exact ih _ _ _ _ (hnote _ _ _ hworld') hclean
  | ask key q next ih =>
    intro w w' hw hclean
    obtain ⟨hsame, hafter⟩ := h.answer key q w w' hw fun hspoiled =>
      hclean (hspoils (next _) _ hspoiled)
    simp only [Behaviour.perform]
    rw [← hsame]
    exact ih _ _ _ hafter hclean
  | digest data next ih =>
    intro w w' hw hclean
    simp only [Behaviour.perform]
    rw [← h.sha256 _ _ data (hnote _ _ _ hw)]
    exact ih _ _ _ (hnote _ _ _ hw) hclean

/-- How states with full notes correspond to those of another notebook. -/
structure Notebook.Mirrors (k : Notebook σ τ) (ρ : σ × List Event → τ → Prop) : Prop where
  state : ∀ t t', ρ t t' → k.state t' = t.1
  update : ∀ t t' s, ρ t t' → ρ (s, t.2) (k.update s t')
  note : ∀ t t' event, ρ t t' → ρ (t.1, t.2 ++ [event]) (k.note event t')

theorem Notebook.mirrors_plain : Notebook.Mirrors (σ := σ) .plain fun t s => t.1 = s where
  state _ _ h := h.symm
  update _ _ _ _ := rfl
  note _ _ _ h := h

theorem Notebook.mirrors_full : Notebook.Mirrors (σ := σ) .full fun t t' => t = t' where
  state _ _ h := congrArg Prod.fst h.symm
  update _ _ _ h := by rw [h]; rfl
  note _ _ _ h := by rw [h]; rfl

/-- Worlds around two sandboxes that are both faithful, given what was used earlier. They stay
alike until two codes that were used have the same digest. -/
def isolation (m : Machine Inst) (config : Config) (earlier : List Use)
    (ρ : σ × List Event → τ → Prop) :
    Comparison (World (σ × List Event) Inst) (World τ Inst) where
  related w w' := ρ w.outside w'.outside ∧
    w.sandbox.Faithful m config (earlier ++ uses w.outside.2) ∧
    w'.sandbox.Faithful m config (earlier ++ uses w.outside.2)
  spoiled w := ¬CollisionFree (earlier ++ uses w.outside.2)

/-- Two ways of running contracts that cannot be told apart in related worlds. A spoiled world stays
spoiled. -/
structure AlikeRuns (K : Comparison (World (σ × List Event) Inst) (World τ Inst))
    (run : Invocation → Nat → StateM (World (σ × List Event) Inst) Execution)
    (run' : Invocation → Nat → StateM (World τ Inst) Execution) : Prop where
  keeps : ∀ i gas, K.Keeps (run i gas) (run' i gas)
  spoils : ∀ i gas w, K.spoiled w → K.spoiled (run i gas w).2

section InStep

variable {m : Machine Inst} {config : Config} {earlier : List Use}
  {ρ : σ × List Event → τ → Prop} {k : Notebook σ τ}

theorem spoiled_note {w : World (σ × List Event) Inst} (event : Event)
    (h : (isolation m config earlier ρ).spoiled w) :
    (isolation m config earlier ρ).spoiled (w.note .full event) := by
  intro hfree
  exact h (hfree.subset fun _ huse => mem_uses_append huse [event])

/-- Uses are never forgotten. -/
theorem isolation_frame : Notebook.full.Frame (fun _ => True)
    fun w w' : World (σ × List Event) Inst =>
      (isolation m config earlier ρ).spoiled w → (isolation m config earlier ρ).spoiled w' where
  refl _ h := h
  trans _ _ _ h₁ h₂ h := h₂ (h₁ h)
  sandbox _ _ h := h
  update _ _ h := h
  note _ event _ h := spoiled_note event h

theorem related_note (hk : k.Mirrors ρ) {w : World (σ × List Event) Inst} {w' : World τ Inst}
    (h : (isolation m config earlier ρ).related w w') (event : Event) :
    (isolation m config earlier ρ).related (w.note .full event) (w'.note k event) := by
  obtain ⟨hρ, hw, hw'⟩ := h
  exact ⟨hk.note _ _ event hρ, hw.subset fun _ huse => mem_uses_append huse [event],
    hw'.subset fun _ huse => mem_uses_append huse [event]⟩

theorem related_update (hk : k.Mirrors ρ) {w : World (σ × List Event) Inst} {w' : World τ Inst}
    (h : (isolation m config earlier ρ).related w w') (s : σ) :
    (isolation m config earlier ρ).related (w.update .full s) (w'.update k s) :=
  ⟨hk.update _ _ s h.1, h.2⟩

theorem related_withPool {w : World (σ × List Event) Inst} {w' : World τ Inst}
    (h : (isolation m config earlier ρ).related w w') (pool pool' : List LinearMemory) :
    (isolation m config earlier ρ).related (w.withPool pool) (w'.withPool pool') :=
  ⟨h.1, h.2.1.withPool pool, h.2.2.withPool pool'⟩

section Nested

variable {run : Invocation → Nat → StateM (World (σ × List Event) Inst) Execution}
  {run' : Invocation → Nat → StateM (World τ Inst) Execution}

theorem reaction_spoils (hrun : AlikeRuns (isolation m config earlier ρ) run run')
    (r : Reaction σ α) {w : World (σ × List Event) Inst}
    (hw : (isolation m config earlier ρ).spoiled w) :
    (isolation m config earlier ρ).spoiled (r.perform .full run w).2 :=
  Reaction.frame isolation_frame (fun i gas w _ => hrun.spoils i gas w) r.runs_true w hw

theorem reaction_keeps (hk : k.Mirrors ρ)
    (hrun : AlikeRuns (isolation m config earlier ρ) run run') (r : Reaction σ α) :
    (isolation m config earlier ρ).Keeps (r.perform .full run) (r.perform k run') := by
  induction r with
  | answer a s => exact fun w w' hw _ => ⟨rfl, related_update hk hw s⟩
  | run s i gas next ih =>
    intro w w' hw hclean
    -- a collision in the nested run would still be there in the end
    obtain ⟨hsame, hran⟩ := hrun.keeps i gas _ _ (related_update hk hw s) fun hspoiled =>
      hclean (reaction_spoils hrun (next _ _) hspoiled)
    simp only [Reaction.perform]
    rw [← hsame, hk.state _ _ hran.1]
    exact ih _ _ _ _ hran hclean

/-- Whoever runs contracts alike answers alike. -/
theorem host_alike (hk : k.Mirrors ρ) (e : Embedder σ)
    (hrun : AlikeRuns (isolation m config earlier ρ) run run') :
    Host.Alike (isolation m config earlier ρ) (e.host .full run) (e.host k run') where
  answer key q := by
    intro w w' hw hclean
    simp only [Embedder.host, Host.answer_ofAnswers] at hclean ⊢
    have hnoted := related_note hk hw (.asked key q)
    rw [hk.state _ _ hnoted.1]
    exact reaction_keeps hk hrun _ _ _ hnoted hclean
  spoils key q w hspoiled := by
    simp only [Embedder.host, Host.answer_ofAnswers]
    exact reaction_spoils hrun _ (spoiled_note _ hspoiled)
  sha256 w w' data hw := by
    show e.sha256 w.outside.1 data = e.sha256 (k.state w'.outside) data
    rw [hk.state _ _ hw.1]

end Nested

/-- The modules that two faithful caches give are the same. -/
theorem load_keeps (m : Machine Inst) (k : Notebook σ τ) (id : Digest) (code : List UInt8)
    {w : World (σ × List Event) Inst} {w' : World τ Inst}
    (h : (isolation m config earlier ρ).related w w')
    (hclean : ¬(isolation m config earlier ρ).spoiled w)
    (huse : (id, code) ∈ earlier ++ uses w.outside.2) :
    (World.load (m.engine .full) id code w).1 = (World.load (m.engine k) id code w').1 ∧
      (isolation m config earlier ρ).related (World.load (m.engine .full) id code w).2
        (World.load (m.engine k) id code w').2 := by
  obtain ⟨hρ, hw, hw'⟩ := h
  have hfree := Classical.not_not.mp hclean
  obtain ⟨hbuild, houtside, hloaded⟩ := hw.load (k := .full) hfree huse
  obtain ⟨hbuild', houtside', hloaded'⟩ := hw'.load (k := k) hfree huse
  refine ⟨hbuild.trans hbuild'.symm, ?_, ?_, ?_⟩
  · rw [houtside, houtside']
    exact hρ
  · rw [houtside]
    exact hloaded
  · rw [houtside]
    exact hloaded'

/-- What a loaded module does does not depend on the memory that it is lent. -/
theorem runLoaded_keeps (hk : k.Mirrors ρ) {host : Host (World (σ × List Event) Inst)}
    {host' : Host (World τ Inst)} (hhost : Host.Alike (isolation m config earlier ρ) host host')
    (l : Loaded Inst) (action : Action) (i : Invocation) (gas : Nat) :
    (isolation m config earlier ρ).Keeps (World.runLoaded (m.engine .full) host l action i gas)
      (World.runLoaded (m.engine k) host' l action i gas) := by
  intro w w' hw hclean
  rcases World.runLoaded_cases m l action i gas with ⟨r, h⟩ | ⟨memory, h⟩
  · rw [h, h]
    exact ⟨rfl, related_withPool hw _ _⟩
  · rw [h] at hclean
    rw [h, h, hw.2.1.config_eq, hw.2.2.config_eq]
    rw [hw.2.1.config_eq] at hclean
    -- the pools differ, but what is lent from them has been reset before it is seen
    have hentered := related_note hk (related_withPool hw w.sandbox.pool.tail
      w'.sandbox.pool.tail) (.entered (l.view memory action i gas config))
    obtain ⟨hsame, hafter⟩ := (m.invoke l.inst _ _ _).keeps hhost
      (fun event _ _ h => related_note hk h event) (fun event _ h => spoiled_note event h) _ _
      hentered hclean
    exact ⟨congrArg Execution.ofPerformed hsame, related_withPool hafter _ _⟩

theorem world_run_keeps (hk : k.Mirrors ρ) {host : Host (World (σ × List Event) Inst)}
    {host' : Host (World τ Inst)} (hhost : Host.Alike (isolation m config earlier ρ) host host')
    (i : Invocation) (gas : Nat) {w : World (σ × List Event) Inst} {w' : World τ Inst}
    (hw : (isolation m config earlier ρ).related w w')
    (hclean : ¬(isolation m config earlier ρ).spoiled (World.run (m.engine .full) host i gas w).2)
    (huse : (host.sha256 w i.code, i.code) ∈ earlier ++ uses w.outside.2) :
    (World.run (m.engine .full) host i gas w).1 = (World.run (m.engine k) host' i gas w').1 ∧
      (isolation m config earlier ρ).related (World.run (m.engine .full) host i gas w).2
        (World.run (m.engine k) host' i gas w').2 := by
  have hspoils : (isolation m config earlier ρ).spoiled w →
      (isolation m config earlier ρ).spoiled (World.run (m.engine .full) host i gas w).2 :=
    World.run_frame isolation_frame m hhost.spoils i gas w
  obtain ⟨hload, hloaded⟩ := load_keeps m k _ _ hw (fun hspoiled => hclean (hspoils hspoiled)) huse
  -- depth and payload are checked alike, before anything is loaded
  rw [World.run_eq] at hclean
  rw [World.run_eq, World.run_eq, ← hhost.sha256 w w' i.code hw, hw.2.1.config_eq,
    hw.2.2.config_eq]
  rw [hw.2.1.config_eq] at hclean
  split_ifs with hdepth
  · exact ⟨rfl, hw⟩
  · rw [if_neg hdepth] at hclean
    cases haction : Action.ofPayload i.payload with
    | error e => exact ⟨rfl, hw⟩
    | ok action =>
      simp only [haction] at hclean
      generalize World.load (m.engine .full) (host.sha256 w i.code) i.code w = step
        at hload hloaded hclean ⊢
      generalize World.load (m.engine k) (host.sha256 w i.code) i.code w' = step'
        at hload hloaded ⊢
      obtain ⟨outcome, loaded⟩ := step
      obtain ⟨outcome', loaded'⟩ := step'
      subst hload
      -- a failure to build is the outcome on both sides, whether it was kept or has just occurred
      cases outcome with
      | error e => exact ⟨rfl, hloaded⟩
      | ok l => exact runLoaded_keeps hk hhost l action i gas _ _ hloaded hclean

theorem run_spoils (e : Embedder σ) (level : Nat) (i : Invocation) (gas : Nat)
    (w : World (σ × List Event) Inst) (hw : (isolation m config earlier ρ).spoiled w) :
    (isolation m config earlier ρ).spoiled (e.run m .full level i gas w).2 :=
  Embedder.run_frame isolation_frame m (fun _ _ _ => Reaction.runs_true _) (fun _ _ _ => trivial)
    level i gas w trivial hw

/-- Runs around faithful sandboxes cannot be told apart. -/
theorem run_alike (hk : k.Mirrors ρ) (e : Embedder σ) (level : Nat) :
    AlikeRuns (isolation m config earlier ρ) (e.run m .full level) (e.run m k level) := by
  induction level with
  | zero =>
    refine ⟨?_, run_spoils e 0⟩
    intro i gas w w' hw _
    simp only [Embedder.run]
    rw [hk.state _ _ hw.1]
    exact ⟨rfl, related_update hk hw _⟩
  | succ level ih =>
    refine ⟨?_, run_spoils e (level + 1)⟩
    intro i gas w w' hw hclean
    simp only [Embedder.run] at hclean ⊢
    rw [hk.state _ _ hw.1]
    -- the code is among those used from the moment that its run is noted
    exact world_run_keeps hk (host_alike hk e ih) i gas (related_note hk hw _) hclean
      (List.mem_append_right _ (mem_uses_ran _ i gas _))

end InStep

end MeteredWasm
