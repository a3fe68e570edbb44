import Mathlib.Data.List.Nodup
import MeteredWasm.Metering.Injection
import MeteredWasm.Proofs.Checks

/-!
# Laws of injection

What a module looks like after imports were injected into it, as one invariant: it holds before
anything is added, and adding one import keeps it. Function bodies are left out of it, since those
who inject imports also rewrite the bodies.
-/

namespace MeteredWasm.Metering

open Wasm (Signature Import ImportKind Export ExportKind ElementSegment Function Module)

/-! ## §1 Moving by several functions -/

/-- An export after several functions were inserted in front. -/
def moveExport (count : Nat) (e : Export) : Export :=
  match e.kind with
  | .function => { e with index := e.index + count }
  | _ => e

/-- An element segment after several functions were inserted in front. -/
def moveElements (count : Nat) (s : ElementSegment) : ElementSegment :=
  { s with functions := s.functions.map (· + count) }

theorem moveExport_zero (e : Export) : moveExport 0 e = e := by
  obtain ⟨name, kind, index⟩ := e
  cases kind <;> rfl

theorem shiftExport_moveExport (count : Nat) (e : Export) :
    shiftExport (moveExport count e) = moveExport (count + 1) e := by
  obtain ⟨name, kind, index⟩ := e
  cases kind <;> rfl

theorem moveElements_zero (s : ElementSegment) : moveElements 0 s = s := by
  simp [moveElements]

theorem shiftElements_moveElements (count : Nat) (s : ElementSegment) :
    shiftElements (moveElements count s) = moveElements (count + 1) s := by
  have hsum : (· + 1) ∘ (· + count) = fun index => index + (count + 1) := by
    funext index
    exact Nat.add_assoc index count 1
  rw [shiftElements, moveElements, moveElements, List.map_map, hsum]

/-! ## §2 The invariant -/

/-- The import that an addition leads to, with a type that resolves to the requested signature. -/
def Provides (types : List Signature) (added : String × Signature) (i : Import) : Prop :=
  ∃ type, i = ⟨injectedNamespace, added.1, .function type⟩ ∧ types[type]? = some added.2

theorem Provides.mono {types types' : List Signature} (htypes : types <+: types')
    {added : String × Signature} {i : Import} (h : Provides types added i) :
    Provides types' added i := by
  obtain ⟨type, hi, htype⟩ := h
  exact ⟨type, hi, getElem?_of_prefix htypes htype⟩

/-- The second module is the first after imports were injected, bodies apart: the additions stand in
front of the imports, and all function indices have moved behind them. -/
structure Injects (m : Module) (added : List (String × Signature)) (s : Injection) (m' : Module) :
    Prop where
  base : s.base = m.functionCount
  names : s.names = added.map Prod.fst
  nodup : s.names.Nodup
  types : m.types <+: m'.types
  imports : ∃ front, m'.imports = front ++ m.imports ∧
    List.Forall₂ (Provides m'.types) added front
  exports : m'.exports = m.exports.map (moveExport s.count)
  start : m'.start = m.start.map (· + s.count)
  elements : m'.elements = m.elements.map (moveElements s.count)
  table : m'.table = m.table
  memory : m'.memory = m.memory
  globals : m'.globals = m.globals
  data : m'.data = m.data

theorem injects_start (m : Module) : Injects m [] (Injection.start m) m where
  base := rfl
  names := rfl
  nodup := List.nodup_nil
  types := List.prefix_rfl
  imports := ⟨[], rfl, .nil⟩
  exports := by
    have hsame : moveExport (Injection.start m).count = id := funext moveExport_zero
    rw [hsame, List.map_id]
  start := by
    simp [Injection.start, Injection.count]
  elements := by
    have hsame : moveElements (Injection.start m).count = id := funext moveElements_zero
    rw [hsame, List.map_id]
  table := rfl
  memory := rfl
  globals := rfl
  data := rfl

/-- The invariant does not look at functions. -/
theorem Injects.with_functions {m m' : Module} {added : List (String × Signature)} {s : Injection}
    (h : Injects m added s m') (functions : List Function) :
    Injects m added s { m' with functions := functions } :=
  { h with }

/-! ## §3 One addition -/

/-- The additions after one more request. Only the first under a name counts. -/
def register (added : List (String × Signature)) (request : String × Signature) :
    List (String × Signature) :=
  if request.1 ∈ added.map Prod.fst then added else added ++ [request]

theorem insertIdx_append {α : Type} (front back : List α) (a : α) :
    (front ++ back).insertIdx front.length a = front ++ a :: back := by
  induction front with
  | nil => rfl
  | cons b front ih =>
    rw [List.cons_append, List.length_cons, List.insertIdx_succ_cons, ih, List.cons_append]

/-- A signature that was interned has its index, and the types there were keep theirs. -/
theorem intern_spec (m : Module) (s : Signature) :
    ∃ extra, (m.intern s).2 = { m with types := m.types ++ extra } ∧
      (m.types ++ extra)[(m.intern s).1]? = some s := by
  unfold Module.intern
  split
  · rename_i index hindex
    obtain ⟨hlt, hfound⟩ := List.findIdx?_eq_some_iff_getElem.mp hindex
    refine ⟨[], ?_, ?_⟩
    · rw [List.append_nil]
    · rw [List.append_nil, List.getElem?_eq_getElem hlt]
      exact congrArg some (beq_iff_eq.mp hfound.1)
  · exact ⟨[s], rfl, by simp⟩

theorem add_functions (s : Injection) (m : Module) (name : String) (signature : Signature) :
    (s.add m name signature).2.functions = m.functions := by
  unfold Injection.add
  split_ifs with hknown
  · rfl
  · obtain ⟨extra, hintern, -⟩ := intern_spec m signature
    simp [insertImport, hintern]

/-- Adding an import keeps the invariant. -/
theorem Injects.add {m m' : Module} {added : List (String × Signature)} {s : Injection}
    (h : Injects m added s m') (name : String) (signature : Signature) :
    Injects m (register added (name, signature)) (s.add m' name signature).1
      (s.add m' name signature).2 := by
  have hnames := h.names
  unfold Injection.add register
  rw [← hnames]
  split_ifs with hknown
  · exact h
  · obtain ⟨front, himports, hfront⟩ := h.imports
    obtain ⟨extra, hintern, htype⟩ := intern_spec m' signature
    have hlength : front.length = s.count := by
      rw [← hfront.length_eq, Injection.count, hnames, List.length_map]
    have hnodup : (s.names ++ [name]).Nodup := by
      rw [← List.concat_eq_append]
      exact h.nodup.concat hknown
    have hcount : (Injection.mk s.base (s.names ++ [name])).count = s.count + 1 := by
      simp [Injection.count]
    refine
      { base := h.base
        names := ?_
        nodup := hnodup
        types := ?_
        imports := ?_
        exports := ?_
        start := ?_
        elements := ?_
        table := ?_
        memory := ?_
        globals := ?_
        data := ?_ }
    -- each part of the module is shifted once more, on top of what was shifted before
    all_goals simp only [insertImport, hintern]
    · rw [hnames, List.map_append]
      rfl
    · exact h.types.trans (List.prefix_append _ _)
    · -- the new import stands right behind the earlier ones
      refine ⟨front ++ [⟨injectedNamespace, name, .function (m'.intern signature).1⟩], ?_, ?_⟩
      · rw [himports, ← hlength, insertIdx_append, List.append_assoc, List.singleton_append]
      · refine List.rel_append ?_ (.cons ⟨_, rfl, htype⟩ .nil)
        exact hfront.imp fun _ _ hprovides => hprovides.mono (List.prefix_append _ _)
    · rw [h.exports, List.map_map, hcount]
      congr 1
      exact funext (shiftExport_moveExport s.count)
    · rw [h.start, Option.map_map, hcount]
      rfl
    · rw [h.elements, List.map_map, hcount]
      congr 1
      exact funext (shiftElements_moveElements s.count)
    · exact h.table
    · exact h.memory
    · exact h.globals
    · exact h.data

/-! ## §4 Any number of additions -/

/-- Additions one after another. -/
def addAll (state : Injection × Module) (requests : List (String × Signature)) :
    Injection × Module :=
  requests.foldl (fun state request => state.1.add state.2 request.1 request.2) state

theorem addAll_functions (state : Injection × Module) (requests : List (String × Signature)) :
    (addAll state requests).2.functions = state.2.functions := by
  induction requests generalizing state with
  | nil => rfl
  | cons request requests ih =>
    have hrest := ih (state.1.add state.2 request.1 request.2)
    rw [add_functions] at hrest
    exact hrest

theorem Injects.addAll {m m' : Module} {added : List (String × Signature)} {s : Injection}
    (h : Injects m added s m') (requests : List (String × Signature)) :
    Injects m (requests.foldl register added) (addAll (s, m') requests).1
      (addAll (s, m') requests).2 := by
  induction requests generalizing added s m' with
  | nil => exact h
  | cons request requests ih => exact ih (h.add request.1 request.2)

/-- Nothing that was registered is lost or moved. -/
theorem prefix_foldl_register (added requests : List (String × Signature)) :
    added <+: requests.foldl register added := by
  induction requests generalizing added with
  | nil => exact List.prefix_rfl
  | cons request requests ih =>
    refine List.IsPrefix.trans ?_ (ih (register added request))
    unfold register
    split_ifs
    · exact List.prefix_rfl
    · exact List.prefix_append _ _

theorem mem_register {added : List (String × Signature)} {request entry : String × Signature}
    (h : entry ∈ register added request) : entry ∈ added ∨ entry = request := by
  unfold register at h
  split_ifs at h
  · exact .inl h
  · rwa [List.mem_append, List.mem_singleton] at h

/-- Only what was requested is registered. -/
theorem mem_foldl_register {added requests : List (String × Signature)}
    {entry : String × Signature} (h : entry ∈ requests.foldl register added) :
    entry ∈ added ∨ entry ∈ requests := by
  induction requests generalizing added with
  | nil => exact .inl h
  | cons request requests ih =>
    -- an entry comes from the rest of the requests, or was there after the first
    rcases ih h with hregister | hrequests
    · rcases mem_register hregister with hadded | rfl
      · exact .inl hadded
      · exact .inr List.mem_cons_self
    · exact .inr (List.mem_cons_of_mem _ hrequests)

/-- Every name that was requested is registered. -/
theorem name_mem_foldl_register {added requests : List (String × Signature)}
    {request : String × Signature} (h : request ∈ requests) :
    request.1 ∈ (requests.foldl register added).map Prod.fst := by
  induction requests generalizing added with
  | nil => cases h
  | cons first requests ih =>
    rcases List.mem_cons.mp h with rfl | hrest
    · have hregistered : request.1 ∈ (register added request).map Prod.fst := by
        unfold register
        split_ifs with hknown
        · exact hknown
        · simp
      exact ((prefix_foldl_register _ requests).map Prod.fst).subset hregistered
    · exact ih hrest

/-! ## §5 Final indices -/

theorem remap_original {s : Injection} {target : Nat} (h : target < s.base) :
    s.remap target = target + s.count := by
  rw [Injection.remap, if_neg]
  omega

theorem remap_logical {s : Injection} {name : String} (h : name ∈ s.names) :
    s.remap (s.logical name) = s.names.idxOf name := by
  have hlt : s.names.idxOf name < s.names.length := List.idxOf_lt_length_of_mem h
  rw [Injection.remap, Injection.logical, if_pos]
  · omega
  · rw [Injection.count]
    omega

end MeteredWasm.Metering
