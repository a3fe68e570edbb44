import Mathlib.Data.List.Induction
import MeteredWasm.Proofs.Metering.Outcome

/-!
# The index space under injection

Whatever imports are requested of a decoded module, in whatever order and however often, its index
space stays consistent: the injected imports stand in front in the order in which they were first
requested, every reference to a function moves behind them, and each logical index that was handed
out leads to the function it was handed out for.
-/

namespace MeteredWasm.Metering

open Wasm (Signature Import Function Module)

/-! ## §1 Names and signatures of the requests -/

/-- The registered names are the requested ones, each at the place of its first request. -/
theorem names_foldl_register (requests : List (String × Signature)) :
    (requests.foldl register []).map Prod.fst = (requests.map Prod.fst).eraseDups := by
  induction requests using List.reverseRecOn with
  | nil => rfl
  | append_singleton requests request ih =>
    rw [List.foldl_append, List.map_append, List.eraseDups_append, ← ih]
    simp only [List.foldl_cons, List.foldl_nil, List.map_cons, List.map_nil]
    rw [register]
    -- membership is asked of the registered names on one side, of the requested ones on the other
    have hmem : request.1 ∈ (requests.foldl register []).map Prod.fst ↔
        request.1 ∈ requests.map Prod.fst := by
      rw [ih]
      exact List.mem_eraseDups
    by_cases hknown : request.1 ∈ requests.map Prod.fst
    · rw [if_pos (hmem.mpr hknown)]
      simp [List.removeAll, hknown]
    · rw [if_neg fun h => hknown (hmem.mp h)]
      simp [List.removeAll, hknown, List.eraseDups_cons]

/-- A name is registered with the signature of its first request. -/
theorem lookup_of_mem_foldl_register {requests : List (String × Signature)}
    {entry : String × Signature} (h : entry ∈ requests.foldl register []) :
    requests.lookup entry.1 = some entry.2 := by
  induction requests using List.reverseRecOn with
  | nil => cases h
  | append_singleton requests request ih =>
    rw [List.foldl_append] at h
    simp only [List.foldl_cons, List.foldl_nil] at h
    rw [List.lookup_append]
    by_cases hearlier : entry ∈ requests.foldl register []
    · rw [ih hearlier]
      rfl
    · -- the entry is new, so no earlier request was for its name
      rw [register] at h
      split_ifs at h with hknown
      · exact absurd h hearlier
      · rw [List.mem_append, List.mem_singleton] at h
        obtain rfl : entry = request := h.resolve_left hearlier
        rw [names_foldl_register, List.mem_eraseDups] at hknown
        have hnone : requests.lookup entry.1 = none := by
          apply List.lookup_eq_none_iff.mpr
          intro earlier hmem
          apply bne_iff_ne.mpr
          intro hsame
          exact hknown (hsame ▸ List.mem_map_of_mem hmem)
        rw [hnone, Option.none_or]
        exact List.lookup_cons_self

/-! ## §2 Types -/

/-- A list of types with further ones behind it, none of which occurs before its place. -/
def ExtendsTypes (types types' : List Signature) : Prop :=
  ∃ extra, types' = types ++ extra ∧ extra.Nodup ∧ ∀ s ∈ extra, s ∉ types

theorem ExtendsTypes.refl (types : List Signature) : ExtendsTypes types types :=
  ⟨[], by simp, List.nodup_nil, by simp⟩

/-- Only a signature that is not among the types becomes a new one. -/
theorem intern_types (m : Module) (s : Signature) :
    (m.intern s).2.types = if s ∈ m.types then m.types else m.types ++ [s] := by
  unfold Module.intern
  split
  · rename_i index hindex
    have hmem : s ∈ m.types := by
      obtain ⟨hlt, hfound, -⟩ := List.findIdx?_eq_some_iff_getElem.mp hindex
      exact beq_iff_eq.mp hfound ▸ List.getElem_mem hlt
    rw [if_pos hmem]
  · rename_i hnone
    have hnot : s ∉ m.types := by
      intro hmem
      have hne := List.findIdx?_eq_none_iff.mp hnone s hmem
      simp at hne
    rw [if_neg hnot]

theorem ExtendsTypes.intern {types : List Signature} {m : Module}
    (h : ExtendsTypes types m.types) (s : Signature) :
    ExtendsTypes types (m.intern s).2.types := by
  rw [intern_types]
  split_ifs with hknown
  · exact h
  · obtain ⟨extra, htypes, hnodup, hnew⟩ := h
    rw [htypes, List.mem_append, not_or] at hknown
    refine ⟨extra ++ [s], ?_, ?_, ?_⟩
    · rw [htypes, List.append_assoc]
    · rw [← List.concat_eq_append]
      exact hnodup.concat hknown.2
    · intro t ht
      rcases List.mem_append.mp ht with hextra | hlast
      · exact hnew t hextra
      · rw [List.mem_singleton.mp hlast]
        exact hknown.1

theorem ExtendsTypes.add {types : List Signature} {m : Module} (h : ExtendsTypes types m.types)
    (s : Injection) (request : String × Signature) :
    ExtendsTypes types (s.add m request.1 request.2).2.types := by
  unfold Injection.add
  split_ifs
  · exact h
  · exact h.intern request.2

theorem ExtendsTypes.addAll {types : List Signature} {state : Injection × Module}
    (h : ExtendsTypes types state.2.types) (requests : List (String × Signature)) :
    ExtendsTypes types (addAll state requests).2.types := by
  induction requests generalizing state with
  | nil => exact h
  | cons request requests ih => exact ih (h.add state.1 request)

/-! ## §3 Imports and signatures -/

/-- The import of an injected function. -/
def injectedImport (name : String) (type : Nat) : Import :=
  ⟨injectedNamespace, name, .function type⟩

/-- Imports that provide additions are those of their names, with types that resolve to their
signatures. -/
theorem exists_types_of_provides {types : List Signature} {added : List (String × Signature)}
    {front : List Import} (h : List.Forall₂ (Provides types) added front) :
    ∃ indices, front = List.zipWith injectedImport (added.map Prod.fst) indices ∧
      List.Forall₂ (fun entry index => types[index]? = some entry.2) added indices := by
  induction h with
  | nil => exact ⟨[], rfl, .nil⟩
  | @cons entry i added front hprovides _ ih =>
    obtain ⟨type, rfl, htype⟩ := hprovides
    obtain ⟨indices, rfl, hindices⟩ := ih
    exact ⟨type :: indices, rfl, .cons htype hindices⟩

/-- Every injected import is a function, of the type at its place. -/
theorem functionTypes_zipWith {names : List String} {indices : List Nat}
    (h : names.length = indices.length) :
    (List.zipWith injectedImport names indices).filterMap Import.functionType? = indices := by
  induction names generalizing indices with
  | nil => exact (List.length_eq_zero_iff.mp h.symm).symm
  | cons name names ih =>
    cases indices with
    | nil => simp at h
    | cons index indices =>
      have hrest := ih (by simpa using h)
      have hfirst : (injectedImport name index).functionType? = some index := rfl
      rw [List.zipWith_cons_cons, List.filterMap_cons_some hfirst, hrest]

/-- The functions of a decoded module all have signatures. -/
theorem signature?_of_decode {wasm : List UInt8} {m : Module} (h : Module.decode wasm = .ok m)
    {target : Nat} (htarget : target < m.functionCount) :
    ∃ type signature, m.functionTypes[target]? = some type ∧ m.types[type]? = some signature := by
  obtain ⟨functions, hwell⟩ := Wasm.decode_wellTyped h
  have hall := Wasm.Layout.signatures_eq_ok.mp hwell.signatures
  have htypes : m.outline.allFunctionTypes = m.functionTypes := rfl
  rw [htypes] at hall
  have hlt : target < functions.length := by
    rw [hwell.count]
    exact htarget
  have hlt' : target < m.functionTypes.length := by
    rw [hall.length_eq]
    exact hlt
  exact ⟨_, _, List.getElem?_eq_getElem hlt', hall.get hlt' hlt⟩

section Space

variable {m m' : Module} {indices : List Nat}

/-- Behind further functions, a function keeps its signature. -/
theorem signature?_behind (hspace : m'.functionTypes = indices ++ m.functionTypes)
    (htypes : m.types <+: m'.types) {target type : Nat} {signature : Signature}
    (htype : m.functionTypes[target]? = some type)
    (hsignature : m.types[type]? = some signature) :
    m.signature? target = some signature ∧
      m'.signature? (target + indices.length) = some signature := by
  constructor
  · rw [Module.signature?, htype, Option.bind_some, hsignature]
  · rw [Module.signature?, hspace, List.getElem?_append_right (Nat.le_add_left _ _),
      Nat.add_sub_cancel, htype, Option.bind_some]
    exact getElem?_of_prefix htypes hsignature

/-- The functions in front have the signatures of what they were added for. -/
theorem signature?_front (hspace : m'.functionTypes = indices ++ m.functionTypes)
    {added : List (String × Signature)}
    (hindices : List.Forall₂ (fun entry index => m'.types[index]? = some entry.2) added indices)
    {i : Nat} {entry : String × Signature} (h : added[i]? = some entry) :
    m'.signature? i = some entry.2 := by
  obtain ⟨hlt, rfl⟩ := List.getElem?_eq_some_iff.mp h
  have hlt' : i < indices.length := hindices.length_eq ▸ hlt
  rw [Module.signature?, hspace, List.getElem?_append_left hlt', List.getElem?_eq_getElem hlt',
    Option.bind_some]
  exact hindices.get hlt hlt'

end Space

/-! ## §4 Logical indices -/

/-- Different functions have different final indices. -/
theorem remap_injOn {s : Injection} {t u : Nat} (ht : t < s.base + s.count)
    (hu : u < s.base + s.count) (h : s.remap t = s.remap u) : t = u := by
  unfold Injection.remap at h
  split_ifs at h <;> omega

theorem logical_getElem {s : Injection} (hnodup : s.names.Nodup) {i : Nat} {name : String}
    (h : s.names[i]? = some name) : s.logical name = s.base + i := by
  obtain ⟨hlt, rfl⟩ := List.getElem?_eq_some_iff.mp h
  rw [Injection.logical, hnodup.idxOf_getElem]

/-- A logical index stays what it is when further names are added. -/
theorem logical_of_prefix {s s' : Injection} (hbase : s.base = s'.base)
    (hnames : s.names <+: s'.names) {name : String} (h : name ∈ s.names) :
    s.logical name = s'.logical name := by
  obtain ⟨later, hlater⟩ := hnames
  rw [Injection.logical, Injection.logical, hbase, ← hlater, List.idxOf_append_of_mem h]

/-- The index that a request led to is still the index of its name after further requests. -/
theorem logical_addAll (m : Module) (before after : List (String × Signature))
    (request : String × Signature) :
    (addAll (Injection.start m, m) (before ++ [request])).1.logical request.1 =
      (addAll (Injection.start m, m) (before ++ request :: after)).1.logical request.1 := by
  have hbefore := (injects_start m).addAll (before ++ [request])
  have hall := (injects_start m).addAll (before ++ request :: after)
  apply logical_of_prefix
  · rw [hbefore.base, hall.base]
  · rw [hbefore.names, hall.names]
    apply List.IsPrefix.map
    have hlater := prefix_foldl_register ((before ++ [request]).foldl register []) after
    rwa [← List.foldl_append, List.append_assoc, List.singleton_append] at hlater
  · rw [hbefore.names]
    exact name_mem_foldl_register (by simp)

/-! ## §5 Any run of requests -/

/-- What holds of the index space of `m'`, a module that was made out of `m` by requests for imports,
one after another. -/
structure Consistent (m : Module) (requests : List (String × Signature)) (s : Injection)
    (m' : Module) : Prop where
  base : s.base = m.functionCount
  /-- Every requested name once, in the order of the first requests. -/
  names : s.names = (requests.map Prod.fst).eraseDups
  imports : ∃ types, types.length = s.count ∧
    m'.imports = List.zipWith injectedImport s.names types ++ m.imports
  types : ExtendsTypes m.types m'.types
  exports : m'.exports = m.exports.map (moveExport s.count)
  start : m'.start = m.start.map (· + s.count)
  elements : m'.elements = m.elements.map (moveElements s.count)
  functions : m'.functions = m.functions
  table : m'.table = m.table
  memory : m'.memory = m.memory
  globals : m'.globals = m.globals
  data : m'.data = m.data
  repeated : ∀ name ∈ s.names, ∀ signature, s.add m' name signature = (s, m')
  /-- The index that a request led to is still the index of its name. -/
  handedOut : ∀ before request after, requests = before ++ request :: after →
    (addAll (Injection.start m, m) (before ++ [request])).1.logical request.1 = s.logical request.1
  injective : ∀ t u, t < s.base + s.count → u < s.base + s.count → s.remap t = s.remap u → t = u
  /-- A function of the module keeps its signature. -/
  original : ∀ t < s.base, ∃ signature, m.signature? t = some signature ∧
    m'.signature? (s.remap t) = some signature
  /-- An injected function has the signature of the first request for its name. -/
  injected : ∀ i name, s.names[i]? = some name → s.logical name = s.base + i ∧
    s.remap (s.logical name) = i ∧
    ∃ signature, requests.lookup name = some signature ∧ m'.signature? i = some signature

/-- The index space is consistent after any run of requests on a decoded module. -/
theorem addAll_consistent {wasm : List UInt8} {m : Module} (h : Module.decode wasm = .ok m)
    (requests : List (String × Signature)) :
    Consistent m requests (addAll (Injection.start m, m) requests).1
      (addAll (Injection.start m, m) requests).2 := by
  have hfunctions := addAll_functions (Injection.start m, m) requests
  have htypes : ExtendsTypes m.types (addAll (Injection.start m, m) requests).2.types :=
    ExtendsTypes.addAll (.refl m.types) requests
  have hinjects := (injects_start m).addAll requests
  have hhandedOut : ∀ before request after, requests = before ++ request :: after →
      (addAll (Injection.start m, m) (before ++ [request])).1.logical request.1 =
        (addAll (Injection.start m, m) requests).1.logical request.1 := by
    rintro before request after rfl
    exact logical_addAll m before after request
  revert hfunctions htypes hinjects hhandedOut
  generalize addAll (Injection.start m, m) requests = state
  obtain ⟨s, m'⟩ := state
  intro hfunctions htypes hinjects hhandedOut
  dsimp only at hfunctions htypes hinjects hhandedOut ⊢
  obtain ⟨front, himports, hfront⟩ := hinjects.imports
  obtain ⟨indices, rfl, hindices⟩ := exists_types_of_provides hfront
  rw [← hinjects.names] at himports
  have hlength : s.names.length = indices.length := by
    rw [hinjects.names, List.length_map, hindices.length_eq]
  have hcount : indices.length = s.count := hlength.symm
  -- the index space: first the injected functions, then those of the module
  have hspace : m'.functionTypes = indices ++ m.functionTypes := by
    rw [Module.functionTypes, Module.importedTypes, himports, List.filterMap_append,
      functionTypes_zipWith hlength, hfunctions, List.append_assoc]
    rfl
  refine
    { base := hinjects.base
      names := hinjects.names.trans (names_foldl_register requests)
      imports := ⟨indices, hcount, himports⟩
      types := htypes
      exports := hinjects.exports
      start := hinjects.start
      elements := hinjects.elements
      functions := hfunctions
      table := hinjects.table
      memory := hinjects.memory
      globals := hinjects.globals
      data := hinjects.data
      repeated := ?_
      handedOut := hhandedOut
      injective := fun t u => remap_injOn
      original := ?_
      injected := ?_ }
  · intro name hname signature
    rw [Injection.add, if_pos hname]
  · intro t ht
    rw [hinjects.base] at ht
    obtain ⟨type, signature, htype, hsignature⟩ := signature?_of_decode h ht
    obtain ⟨hbefore, hafter⟩ := signature?_behind hspace hinjects.types htype hsignature
    refine ⟨signature, hbefore, ?_⟩
    rw [remap_original (by rw [hinjects.base]; exact ht), ← hcount]
    exact hafter
  · intro i name hname
    have hlogical := logical_getElem hinjects.nodup hname
    obtain ⟨hlt, -⟩ := List.getElem?_eq_some_iff.mp hname
    refine ⟨hlogical, ?_, ?_⟩
    · rw [hlogical, Injection.remap, if_pos, Nat.add_sub_cancel_left]
      exact ⟨Nat.le_add_right _ _, Nat.add_lt_add_left hlt _⟩
    · -- the entry at the place of the name has the signature that was requested first
      rw [hinjects.names, List.getElem?_map, Option.map_eq_some_iff] at hname
      obtain ⟨entry, hentry, rfl⟩ := hname
      have hmem : entry ∈ requests.foldl register [] := List.mem_of_getElem? hentry
      exact ⟨_, lookup_of_mem_foldl_register hmem, signature?_front hspace hindices hentry⟩

/-- A module with functions, exports, a start function and an element, asked for an import twice
under different signatures, and for another one of a type it has. -/
theorem addAll_consistent_sample :
    ∃ m, Module.decode sampleContract = .ok m ∧
      Consistent m [("a", ⟨[.f32], none⟩), ("b", ⟨[], none⟩), ("a", ⟨[.i64], none⟩)]
        (addAll (Injection.start m, m)
          [("a", ⟨[.f32], none⟩), ("b", ⟨[], none⟩), ("a", ⟨[.i64], none⟩)]).1
        (addAll (Injection.start m, m)
          [("a", ⟨[.f32], none⟩), ("b", ⟨[], none⟩), ("a", ⟨[.i64], none⟩)]).2 := by
  obtain ⟨out, hout, -⟩ := sampleContract_instruments
  obtain ⟨m, hdecode, -⟩ := instrument_eq_ok hout
  exact ⟨m, hdecode, addAll_consistent hdecode _⟩

end MeteredWasm.Metering
