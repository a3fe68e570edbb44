import Mathlib.Data.Finset.Card
import Mathlib.Tactic.SplitIfs
import MeteredWasm.Proofs.Checks
import MeteredWasm.Sandbox.Loading

/-!
# Building modules once

A module is instrumented and linked, and then the machine is asked to instantiate it, once. The
cache keeps what comes of this, good or bad: until it is cleared, whoever asks for a digest again
gets what the first one got, and nothing is built.
-/

namespace MeteredWasm

variable {σ Inst : Type}

/-! ## §1 Building -/

/-- The state of a machine after it has been asked to instantiate some modules. -/
def Engine.afterInstantiating (engine : Engine σ Inst) (s : σ)
    (modules : List (List UInt8 × List Intrinsic)) : σ :=
  modules.foldl (fun s m => (engine.instantiate m.1 m.2 s).2) s

theorem Engine.afterInstantiating_append (engine : Engine σ Inst) (s : σ)
    (modules later : List (List UInt8 × List Intrinsic)) :
    engine.afterInstantiating s (modules ++ later) =
      engine.afterInstantiating (engine.afterInstantiating s modules) later :=
  List.foldl_append ..

namespace Loaded

/-- What the machine is given: the instrumented module of a code, and the intrinsics that it
imports. -/
def linked (maxPages : Nat) (code : List UInt8) :
    Except Fault (Metering.Instrumented × List Intrinsic) := do
  let instrumented ← Metering.instrument code maxPages
  return (instrumented, ← Visibility.everything.link instrumented.module)

/-- A module that is ready to run, made from what the machine gave back. -/
def ofInstrumented (instrumented : Metering.Instrumented) (inst : Inst) : Loaded Inst where
  inst := inst
  exports := exportedFunctions instrumented.module
  initialPages := instrumented.memoryPages.1
  maxPages := instrumented.memoryPages.2
  image := instrumented.image

/-- The machine is asked once, if the code can be instrumented and linked, and not at all
otherwise. -/
theorem build_eq (engine : Engine σ Inst) (maxPages : Nat) (code : List UInt8) (s : σ) :
    build engine maxPages code s = match linked maxPages code with
      | .error e => (.error e, s)
      | .ok (instrumented, imports) =>
        let answer := engine.instantiate instrumented.wasm imports s
        (answer.1.map (ofInstrumented instrumented), answer.2) := by
  unfold build
  rw [← linked]
  cases linked maxPages code with
  | error e => rfl
  | ok r =>
    obtain ⟨instrumented, imports⟩ := r
    simp only [bind, StateT.bind]
    rcases engine.instantiate instrumented.wasm imports s with ⟨outcome, s'⟩
    cases outcome <;> rfl

theorem linked_eq_ok {maxPages : Nat} {code : List UInt8} {out : Metering.Instrumented}
    {intrinsics : List Intrinsic} :
    linked maxPages code = .ok (out, intrinsics) ↔
      Metering.instrument code maxPages = .ok out ∧
        Visibility.everything.link out.module = .ok intrinsics := by
  unfold linked
  simp only [Except.bind_eq_ok, Except.pure_eq_ok, Prod.mk.injEq]
  constructor
  · rintro ⟨out', hout, intrinsics', hlink, rfl, rfl⟩
    exact ⟨hout, hlink⟩
  · rintro ⟨hout, hlink⟩
    exact ⟨out, hout, intrinsics, hlink, rfl, rfl⟩

/-- The module that a code leads to, with its imports, if the code can be instrumented and
linked. -/
def instantiation? (maxPages : Nat) (code : List UInt8) : Option (List UInt8 × List Intrinsic) :=
  match linked maxPages code with
  | .ok (instrumented, imports) => some (instrumented.wasm, imports)
  | .error _ => none

theorem build_outside (engine : Engine σ Inst) (maxPages : Nat) (code : List UInt8) (s : σ) :
    (build engine maxPages code s).2 =
      engine.afterInstantiating s ([code].filterMap (instantiation? maxPages)) := by
  rw [build_eq, List.filterMap_cons, instantiation?]
  cases linked maxPages code <;> rfl

/-- What is built was instrumented and linked, with both namespaces in sight. -/
theorem build_eq_ok {engine : Engine σ Inst} {maxPages : Nat} {code : List UInt8} {s : σ}
    {l : Loaded Inst} (h : (build engine maxPages code s).1 = .ok l) :
    ∃ out intrinsics inst, Metering.instrument code maxPages = .ok out ∧
      Visibility.everything.link out.module = .ok intrinsics ∧ l = ofInstrumented out inst := by
  rw [build_eq] at h
  cases hlinked : linked maxPages code with
  | error cause =>
    rw [hlinked] at h
    cases h
  | ok r =>
    obtain ⟨out, intrinsics⟩ := r
    obtain ⟨hout, hlink⟩ := linked_eq_ok.mp hlinked
    simp only [hlinked] at h
    cases hinst : (engine.instantiate out.wasm intrinsics s).1 with
    | error cause =>
      rw [hinst] at h
      cases h
    | ok inst =>
      rw [hinst] at h
      cases h
      exact ⟨out, intrinsics, inst, hout, hlink, rfl⟩

end Loaded

/-! ## §2 Looking up -/

namespace World

variable {id : Digest} {w : World σ Inst}

theorem load_of_lookup_some (engine : Engine σ Inst) {outcome : Except Fault (Loaded Inst)}
    (h : w.sandbox.cache.entries.lookup id = some outcome) (code : List UInt8) :
    load engine id code w = (outcome, w) := by
  simp only [load, bind, StateT.bind, get, getThe, MonadStateOf.get, StateT.get, pure, h]
  rfl

theorem load_of_lookup_none (engine : Engine σ Inst)
    (h : w.sandbox.cache.entries.lookup id = none) (code : List UInt8) :
    load engine id code w =
      let built := Loaded.build engine w.sandbox.config.maxMemoryPages code w.outside
      let cache := w.sandbox.cache.insert id built.1
      (built.1, ⟨built.2, { w.sandbox with cache := cache }⟩) := by
  simp only [load, bind, StateT.bind, get, getThe, MonadStateOf.get, StateT.get, pure, h]
  rfl

end World

/-- What can be asked of a cache. -/
inductive CacheCall where
  | get (id : Digest) (code : List UInt8)
  | clear

namespace CacheCall

/-- The digests asked for since the cache was cleared last, given those before this call. -/
def ask (asked : List Digest) : CacheCall → List Digest
  | .get id _ => id :: asked
  | .clear => []

/-- The code of a call that asks for its digest for the first time. -/
def first (asked : List Digest) : CacheCall → List (List UInt8)
  | .get id code => if id ∈ asked then [] else [code]
  | .clear => []

/-- The digests asked for since the cache was cleared last. -/
def asked (past : List CacheCall) : List Digest :=
  past.foldl ask []

/-- The codes of those calls that ask for a digest for the first time since the cache was cleared
last. -/
def firsts (asked : List Digest) : List CacheCall → List (List UInt8)
  | [] => []
  | call :: rest => call.first asked ++ firsts (call.ask asked) rest

/-- What the machine has been asked to instantiate: the modules of those codes. -/
def instantiations (maxPages : Nat) (past : List CacheCall) :
    List (List UInt8 × List Intrinsic) :=
  (firsts [] past).filterMap (Loaded.instantiation? maxPages)

theorem asked_concat (past : List CacheCall) (call : CacheCall) :
    asked (past ++ [call]) = call.ask (asked past) :=
  List.foldl_concat ..

theorem firsts_append (seen : List Digest) (past later : List CacheCall) :
    firsts seen (past ++ later) = firsts seen past ++ firsts (past.foldl ask seen) later := by
  induction past generalizing seen with
  | nil => rfl
  | cons _ _ ih => rw [List.cons_append, firsts, firsts, ih, List.append_assoc, List.foldl_cons]

theorem firsts_concat (past : List CacheCall) (call : CacheCall) :
    firsts [] (past ++ [call]) = firsts [] past ++ call.first (asked past) := by
  rw [firsts_append, firsts, firsts, List.append_nil, asked]

end CacheCall

/-! ## §3 Once for each digest -/

namespace World

open CacheCall

/-- Call the cache of a sandbox. -/
def callCache (engine : Engine σ Inst) (w : World σ Inst) : CacheCall → World σ Inst
  | .get id code => (load engine id code w).2
  | .clear => { w with sandbox := { w.sandbox with cache := w.sandbox.cache.clear } }

/-- What has become of a fresh sandbox, and of the state of the machine, after some calls. -/
def afterCache (engine : Engine σ Inst) (config : Config) (s : σ) (past : List CacheCall) :
    World σ Inst :=
  past.foldl (callCache engine) ⟨s, .fresh config⟩

variable {engine : Engine σ Inst} {config : Config} {s : σ} {past : List CacheCall}
  {w : World σ Inst}

theorem afterCache_concat (call : CacheCall) :
    afterCache engine config s (past ++ [call]) =
      (afterCache engine config s past).callCache engine call :=
  List.foldl_concat ..

/-- The first call for a digest since the cache was cleared last. -/
structure FirstCall (past before : List CacheCall) (id : Digest) (code : List UInt8) : Prop where
  since : ∃ after, past = before ++ .get id code :: after ∧ .clear ∉ after
  notBefore : id ∉ asked before

/-- A call of the cache other than clearing it leaves the first calls what they are. -/
theorem FirstCall.concat {before : List CacheCall} {id id' : Digest} {code code' : List UInt8}
    (h : FirstCall past before id code) :
    FirstCall (past ++ [.get id' code']) before id code where
  since := by
    obtain ⟨after, hpast, hclear⟩ := h.since
    refine ⟨after ++ [.get id' code'], ?_, ?_⟩
    · rw [hpast, List.append_assoc, List.cons_append]
    · simp [hclear]
  notBefore := h.notBefore

/-- What the world remembers of the calls of its cache. -/
structure Remembers (engine : Engine σ Inst) (config : Config) (s : σ) (past : List CacheCall)
    (w : World σ Inst) : Prop where
  config_eq : w.sandbox.config = config
  misses : ∀ id, w.sandbox.cache.entries.lookup id = none ↔ id ∉ asked past
  hits : ∀ id outcome, w.sandbox.cache.entries.lookup id = some outcome →
    ∃ before code, FirstCall past before id code ∧
      outcome = (load engine id code (afterCache engine config s before)).1
  builds : w.sandbox.cache.builds = (firsts [] past).length
  size : w.sandbox.cache.size = (asked past).toFinset.card
  outside : w.outside = engine.afterInstantiating s (instantiations config.maxMemoryPages past)

namespace Remembers

theorem lookup (h : Remembers engine config s past w) {id : Digest} (hid : id ∈ asked past) :
    ∃ outcome, w.sandbox.cache.entries.lookup id = some outcome :=
  Option.ne_none_iff_exists'.mp fun hnone => (h.misses id).mp hnone hid

theorem fresh : Remembers engine config s [] ⟨s, .fresh config⟩ where
  config_eq := rfl
  misses _ := by simp [Sandbox.fresh, asked]
  hits _ _ h := by simp [Sandbox.fresh] at h
  builds := rfl
  size := rfl
  outside := rfl

theorem clear (h : Remembers engine config s past w) :
    Remembers engine config s (past ++ [.clear]) (w.callCache engine .clear) where
  config_eq := h.config_eq
  misses _ := by simp [callCache, Cache.clear, asked_concat, ask]
  hits _ _ hlookup := by simp [callCache, Cache.clear] at hlookup
  builds := by
    rw [firsts_concat, first, List.append_nil]
    exact h.builds
  size := by
    rw [asked_concat]
    rfl
  outside := by
    rw [instantiations, firsts_concat, first, List.append_nil]
    exact h.outside

/-- A digest that was asked for before. -/
theorem hit (h : Remembers engine config s past w) {id : Digest} (hid : id ∈ asked past)
    (code : List UInt8) :
    Remembers engine config s (past ++ [.get id code]) (w.callCache engine (.get id code)) := by
  obtain ⟨outcome, hlookup⟩ := h.lookup hid
  have hsame : w.callCache engine (.get id code) = w := by
    rw [callCache, load_of_lookup_some engine hlookup]
  have hfirsts : firsts [] (past ++ [.get id code]) = firsts [] past := by
    rw [firsts_concat, first, if_pos hid, List.append_nil]
  -- neither the world nor the first calls change, and the digest is in the list anyway
  rw [hsame]
  exact
    { config_eq := h.config_eq
      misses := by
        intro id'
        rw [h.misses, asked_concat, ask, List.mem_cons, not_or]
        refine ⟨fun hnot => ⟨?_, hnot⟩, And.right⟩
        rintro rfl
        exact hnot hid
      hits := by
        intro id' outcome' hlookup'
        obtain ⟨before, code', hfirst, houtcome⟩ := h.hits id' outcome' hlookup'
        exact ⟨before, code', hfirst.concat, houtcome⟩
      builds := by rw [hfirsts, h.builds]
      size := by
        rw [h.size, asked_concat, ask, List.toFinset_cons,
          Finset.insert_eq_of_mem (List.mem_toFinset.mpr hid)]
      outside := by rw [instantiations, hfirsts, h.outside, instantiations] }

/-- A digest that is asked for the first time. -/
theorem miss (h : Remembers engine config s past w) (hw : w = afterCache engine config s past)
    {id : Digest} (hid : id ∉ asked past) (code : List UInt8) :
    Remembers engine config s (past ++ [.get id code]) (w.callCache engine (.get id code)) := by
  have hfirsts : firsts [] (past ++ [.get id code]) = firsts [] past ++ [code] := by
    rw [firsts_concat, first, if_neg hid]
  have hload := load_of_lookup_none engine ((h.misses id).mpr hid) code
  rw [h.config_eq] at hload
  set built := Loaded.build engine config.maxMemoryPages code w.outside with hbuilt
  have hcalled : w.callCache engine (.get id code) =
      ⟨built.2, { w.sandbox with cache := w.sandbox.cache.insert id built.1 }⟩ := by
    rw [callCache, hload]
  rw [hcalled]
  exact
    { config_eq := h.config_eq
      misses := by
        intro id'
        rw [asked_concat, ask, List.mem_cons, not_or, ← h.misses]
        simp only [Cache.insert, List.lookup_cons]
        by_cases hsame : id' = id
        · simp [hsame]
        · rw [beq_eq_false_iff_ne.mpr hsame]
          exact ⟨fun hnone => ⟨hsame, hnone⟩, And.right⟩
      hits := by
        intro id' outcome hlookup
        simp only [Cache.insert, List.lookup_cons] at hlookup
        by_cases hsame : id' = id
        · -- the call itself is the first one
          subst hsame
          rw [beq_self_eq_true, Option.some.injEq] at hlookup
          refine ⟨past, code, ⟨⟨[], rfl, List.not_mem_nil⟩, hid⟩, ?_⟩
          rw [← hw, hload, hlookup]
        · rw [beq_eq_false_iff_ne.mpr hsame] at hlookup
          obtain ⟨before, code', hfirst, houtcome⟩ := h.hits id' outcome hlookup
          exact ⟨before, code', hfirst.concat, houtcome⟩
      builds := by
        rw [hfirsts, List.length_append, ← h.builds]
        rfl
      size := by
        rw [asked_concat, ask, List.toFinset_cons,
          Finset.card_insert_of_notMem (fun hmem => hid (List.mem_toFinset.mp hmem)), ← h.size]
        rfl
      outside := by
        rw [instantiations, hfirsts, List.filterMap_append, Engine.afterInstantiating_append,
          ← Loaded.build_outside]
        exact congrArg (fun s => (Loaded.build engine config.maxMemoryPages code s).2) h.outside }

theorem afterCache (past : List CacheCall) :
    Remembers engine config s past (World.afterCache engine config s past) := by
  induction past using List.reverseRecOn with
  | nil => exact fresh
  | append_singleton past call ih =>
    rw [afterCache_concat]
    cases call with
    | clear => exact ih.clear
    | get id code =>
      by_cases hid : id ∈ asked past
      · exact ih.hit hid code
      · exact ih.miss rfl hid code

end Remembers

/-- After any calls of the cache of a sandbox, with any machine: a digest that has not been asked
for since the cache was cleared last is built, from the code that comes with it and with the machine
in the state that it is in; and one that has been asked for gets what came of the first call for it,
whatever code comes with it now, and nothing happens. The number of builds is the number of first
calls, the size is the number of digests that have been asked for, and the machine was asked to
instantiate what the first calls led to, once each and in this order, and nothing else. -/
theorem load_memo (engine : Engine σ Inst) (config : Config) (s : σ) (past : List CacheCall) :
    let w := afterCache engine config s past
    (∀ id code, id ∉ asked past →
      let built := Loaded.build engine config.maxMemoryPages code w.outside
      (load engine id code w).1 = built.1 ∧ (load engine id code w).2.outside = built.2) ∧
    (∀ id, id ∈ asked past → ∃ before code, FirstCall past before id code ∧
      ∀ code', load engine id code' w =
        ((load engine id code (afterCache engine config s before)).1, w)) ∧
    w.sandbox.cache.builds = (firsts [] past).length ∧
    w.sandbox.cache.size = (asked past).toFinset.card ∧
    w.outside = engine.afterInstantiating s (instantiations config.maxMemoryPages past) := by
  intro w
  have h : Remembers engine config s past w := .afterCache past
  refine ⟨?_, ?_, h.builds, h.size, h.outside⟩
  · intro id code hid
    have hload := load_of_lookup_none engine ((h.misses id).mpr hid) code
    rw [h.config_eq] at hload
    rw [hload]
    exact ⟨rfl, rfl⟩
  · intro id hid
    obtain ⟨outcome, hlookup⟩ := h.lookup hid
    obtain ⟨before, code, hfirst, houtcome⟩ := h.hits id outcome hlookup
    refine ⟨before, code, hfirst, ?_⟩
    intro code'
    rw [load_of_lookup_some engine hlookup, houtcome]

end World

end MeteredWasm
