import MeteredWasm.Proofs.Wasm.Checking
import MeteredWasm.Proofs.Wasm.RoundTrip

/-!
# Well-typed modules

The typing rules of a layout, read as rules of a module: indices are in range and every body is
accepted by the check that validation makes. Decoded modules keep them, and their bodies consist of
spelled items.
-/

namespace MeteredWasm.Wasm

open MeteredWasm.Run MeteredWasm.Wasm.Parser

/-! ## §1 The rules of a module -/

/-- The parts of a module that its bodies and indices refer to, as a layout. -/
def Module.outline (m : Module) : Layout where
  types := m.types
  imports := m.imports
  functionTypes := m.functions.map Function.type
  tables := m.table.toList
  memories := m.memory.toList
  globals := m.globals
  exports := m.exports
  start := m.start
  elements := []
  dataCount := none
  bodies := []
  data := []

/-- What a function of a given signature may refer to. -/
def Function.typeEnv (env : TypeEnv) (s : Signature) (f : Function) : TypeEnv :=
  { env with locals := Layout.expandLocals s.params f.locals }

/-- The items of a body spell instructions, and there are fewer than a length can count. -/
structure Function.Spelled (f : Function) : Prop where
  length : f.body.length < 2 ^ 32
  meaning : ∀ i ∈ f.body, ∃ op, i.Spelled op

/-- The items of the body are instructions, and they pass the check of bodies. -/
def Function.WellTyped (env : TypeEnv) (s : Signature) (f : Function) : Prop :=
  ∃ code, f.body.mapM Instr.operator? = some code ∧
    checkBody (f.typeEnv env s) s.result code = .ok ()

/-- All indices of a module are in range, its start function takes nothing and gives nothing, and
its functions are well typed. The signatures are those of its functions, imported ones first. -/
structure Module.WellTyped (m : Module) (functions : List Signature) : Prop where
  signatures : m.outline.signatures = .ok functions
  exports : ∀ e ∈ m.exports, e.kind = .function → e.index < functions.length
  start : ∀ index, m.start = some index → functions[index]? = some ⟨[], none⟩
  elements : ∀ s ∈ m.elements, ∀ index ∈ s.functions, index < functions.length
  calls : ∀ f ∈ m.functions, ∀ target, Instr.call target ∈ f.body → target < functions.length
  bodies : ∀ f ∈ m.functions, ∃ s, m.types[f.type]? = some s ∧
    f.WellTyped (m.outline.typeEnv functions) s

theorem Function.wellTyped_iff {env : TypeEnv} {s : Signature} {f : Function} :
    f.WellTyped env s ↔
      Check.Accepts (f.typeEnv env s) [Frame.fresh .function s.result] f.body [] := by
  rw [Check.accepts_iff]
  exact exists_congr fun ops => and_congr_right fun _ => checkBody_eq_ok

/-- Bodies that are well typed call known functions. -/
theorem Module.calls_of_bodies {m : Module} {functions : List Signature}
    (hbodies : ∀ f ∈ m.functions, ∃ s, m.types[f.type]? = some s ∧
      f.WellTyped (m.outline.typeEnv functions) s) {f : Function} (hf : f ∈ m.functions)
    {target : Nat} (htarget : Instr.call target ∈ f.body) : target < functions.length := by
  obtain ⟨s, -, code, hcode, hcheck⟩ := hbodies f hf
  obtain ⟨op, hop, hmeaning⟩ := exists_mem_right (mapM_eq_some.mp hcode) htarget
  obtain rfl : Operator.call target = op := Option.some.inj hmeaning
  exact call_lt_of_checkBody hcheck hop

namespace Layout

/-- The signatures of functions are those of their types. -/
theorem signatures_eq_ok {l : Layout} {functions : List Signature} :
    l.signatures = .ok functions ↔
      List.Forall₂ (fun type s => l.types[type]? = some s) l.allFunctionTypes functions := by
  unfold signatures
  rw [mapM_eq_ok]
  constructor
  · intro h
    refine h.imp fun type s hs => ?_
    split at hs
    · cases hs
      assumption
    · cases hs
  · intro h
    refine h.imp fun type s hs => ?_
    rw [hs]

/-! ## §2 Items that were accepted -/

theorem mem_items {α : Type} {p : Parser α} {count : Nat} {s s' : Input} {as : List α}
    (hrun : (items p count).run s = .ok (as, s')) {a : α} (ha : a ∈ as) :
    ∃ t t', p.run t = .ok (a, t') := by
  induction count generalizing s as with
  | zero =>
    obtain ⟨rfl, -⟩ := pure_eq_ok.mp hrun
    cases ha
  | succ count ih =>
    obtain ⟨first, t, hfirst, hrun⟩ := bind_eq_ok.mp hrun
    obtain ⟨rest, t', hrest, hrun⟩ := bind_eq_ok.mp hrun
    obtain ⟨rfl, rfl⟩ := pure_eq_ok.mp hrun
    rcases List.mem_cons.mp ha with rfl | hmem
    · exact ⟨s, t, hfirst⟩
    · exact ih hrest hmem

/-- Every item of a list that stood in a section was parsed. -/
theorem Listed.exists_run {α : Type} {p : Parser α} {as : List α} (h : Listed p as) {a : α}
    (ha : a ∈ as) : ∃ s s', p.run s = .ok (a, s') := by
  rcases h with hempty | ⟨contents, offset, -, hrun⟩
  · rw [hempty] at ha
    cases ha
  · rw [vec_eq_items] at hrun
    obtain ⟨count, t, -, hitems⟩ := bind_eq_ok.mp hrun
    exact mem_items hitems ha

/-- Every body that was parsed has spelled items, fewer than a length can count. -/
theorem Parsed.body_spelled {l : Layout} (h : l.Parsed) {b : Body} (hb : b ∈ l.bodies) :
    b.Spelled ∧ b.code.length < 2 ^ 32 := by
  obtain ⟨s, s', hbody⟩ := h.bodies.exists_run hb
  exact sized_body_spelled hbody

/-! ## §3 Decoded modules -/

variable {l : Layout} {functions : List Signature} {m : Module}

/-- The outline of a decoded module is its layout without what is not looked up. -/
theorem outline_of_toModule (hvalid : l.Valid functions) (hmodule : l.toModule = .ok m) :
    m.outline = { l with elements := [], dataCount := none, bodies := [], data := [] } := by
  obtain ⟨elements, data, -, -, rfl⟩ := toModule_eq_ok.mp hmodule
  have htypes : (l.functionTypes.zipWith Body.toFunction l.bodies).map Function.type =
      l.functionTypes := by
    have hsame := forall₂_zipWith_left (f := Body.toFunction) (R := fun type f => type = f.type)
      hvalid.functionCount fun _ _ => rfl
    rw [← List.forall₂_map_right_iff, List.forall₂_eq_eq_eq] at hsame
    exact hsame.symm
  simp only [Module.outline, htypes, toList_head?_eq hvalid.tableCount,
    toList_head?_eq hvalid.memoryCount]

/-- The function at each place has the type, the signature and the body at that place. -/
theorem mem_functions {types : List Nat} {signatures : List Signature} {bodies : List Body}
    {R : Nat → Signature → Prop} (hsignatures : List.Forall₂ R types signatures)
    (hbodies : types.length = bodies.length) {f : Function}
    (hf : f ∈ types.zipWith Body.toFunction bodies) :
    ∃ s b, R f.type s ∧ (s, b) ∈ signatures.zip bodies ∧ f = b.toFunction f.type := by
  induction hsignatures generalizing bodies with
  | nil => cases hf
  | @cons type s types signatures hs _ ih =>
    cases bodies with
    | nil => cases hf
    | cons b bodies =>
      rcases List.mem_cons.mp hf with rfl | hrest
      · exact ⟨s, b, hs, List.mem_cons_self, rfl⟩
      · obtain ⟨s', b', hs', hmem, hsame⟩ := ih (by simpa using hbodies) hrest
        exact ⟨s', b', hs', List.mem_cons_of_mem _ hmem, hsame⟩

/-- The signatures of the defined functions are the last ones. -/
theorem Valid.defined (h : l.Valid functions) :
    List.Forall₂ (fun type s => l.types[type]? = some s) l.functionTypes
      (functions.drop (functions.length - l.functionTypes.length)) := by
  have hall := signatures_eq_ok.mp h.signatures
  have hlength := hall.length_eq
  rw [allFunctionTypes, List.length_append] at hlength
  -- imported functions come first, so dropping their signatures leaves those of the defined ones
  have hdropped := List.forall₂_drop (functions.length - l.functionTypes.length) hall
  rw [allFunctionTypes, List.drop_append_of_le_length (by omega), List.drop_eq_nil_of_le (by omega),
    List.nil_append] at hdropped
  exact hdropped

/-- The bodies of a decoded module pass the check that they passed in its layout. -/
theorem Parsed.bodies_wellTyped (hparsed : l.Parsed) (hvalid : l.Valid functions)
    (hmodule : l.toModule = .ok m) {f : Function} (hf : f ∈ m.functions) :
    ∃ s, m.types[f.type]? = some s ∧ f.WellTyped (m.outline.typeEnv functions) s := by
  have houtline := outline_of_toModule hvalid hmodule
  obtain ⟨elements, data, -, -, rfl⟩ := toModule_eq_ok.mp hmodule
  -- the rule of the layout was checked with the signature and the body at the place of the function
  obtain ⟨s, b, hs, hmem, hsame⟩ := mem_functions hvalid.defined hvalid.functionCount hf
  have hspelled := (hparsed.body_spelled (List.of_mem_zip hmem).2).1
  have hrule := hvalid.bodies (s, b) hmem
  simp only [bodyRule, Except.bind_eq_ok] at hrule
  obtain ⟨_, -, hcheck⟩ := hrule
  refine ⟨s, hs, b.code.map Prod.fst, ?_, ?_⟩
  · rw [mapM_eq_some, hsame, Body.toFunction, List.forall₂_map_left_iff, List.forall₂_map_right_iff,
      List.forall₂_same]
    exact fun item hitem => (hspelled item hitem).operator?
  · rw [houtline, hsame]
    exact hcheck

theorem startRule_eq_ok {start : Option Nat} (h : startRule functions start = .ok ()) {index : Nat}
    (hindex : start = some index) : functions[index]? = some ⟨[], none⟩ := by
  rw [hindex] at h
  simp only [startRule] at h
  split at h
  · cases h
  · rename_i s hs
    obtain ⟨hparams, hresult⟩ := Bool.and_eq_true_iff.mp (rule_eq_ok.mp h)
    obtain ⟨params, result⟩ := s
    obtain rfl : params = [] := List.isEmpty_iff.mp hparams
    obtain rfl : result = none := Option.isNone_iff_eq_none.mp hresult
    exact hs

theorem elementRule_eq_ok {tableCount functionCount : Nat} {imported : Array (ValueType × Bool)}
    {e : RawElement} (h : elementRule tableCount functionCount imported e = .ok ()) {index : Nat}
    (hindex : index ∈ e.functions) : index < functionCount := by
  simp only [elementRule, Except.bind_eq_ok, rule_eq_ok] at h
  obtain ⟨_, -, _, -, hrange⟩ := h
  simpa using List.all_eq_true.mp hrange index hindex

end Layout

open Layout in
/-- Decoding gives well-typed modules. -/
theorem decode_wellTyped {wasm : List UInt8} {m : Module} (h : Module.decode wasm = .ok m) :
    ∃ functions, m.WellTyped functions := by
  obtain ⟨l, functions, hparse, hvalid, hmodule⟩ := decode_eq_ok.mp h
  have houtline := outline_of_toModule hvalid hmodule
  have hparsed := parse_parsed hparse
  have hbodies := fun f => @Parsed.bodies_wellTyped l functions m hparsed hvalid hmodule f
  have hcount : l.allFunctionTypes.length = functions.length :=
    (signatures_eq_ok.mp hvalid.signatures).length_eq
  obtain ⟨elements, data, helements, -, rfl⟩ := toModule_eq_ok.mp hmodule
  refine ⟨functions, ?_⟩
  refine
    { signatures := ?_
      exports := ?_
      start := fun index hindex => startRule_eq_ok hvalid.start hindex
      elements := ?_
      calls := fun f hf target htarget => Module.calls_of_bodies hbodies hf htarget
      bodies := hbodies }
  · rw [houtline]
    exact hvalid.signatures
  · intro e he hkind
    have hindex := List.all_eq_true.mp hvalid.exports e he
    rw [decide_eq_true_eq, hkind] at hindex
    rw [← hcount]
    exact hindex
  · intro s hs index hindex
    obtain ⟨e, he, hsegment⟩ := exists_mem_left helements hs
    obtain ⟨bits, -, rfl⟩ := element_toSegment_eq_ok.mp hsegment
    exact elementRule_eq_ok (hvalid.elements e he) hindex

theorem Module.WellTyped.count {m : Module} {functions : List Signature}
    (h : m.WellTyped functions) : functions.length = m.functionCount := by
  rw [← (Layout.signatures_eq_ok.mp h.signatures).length_eq]
  simp [Layout.allFunctionTypes, Module.outline, Module.functionCount, Module.importedCount,
    Module.importedTypes]

open Layout in
/-- The bodies of a decoded module are spelled. -/
theorem decode_spelled {wasm : List UInt8} {m : Module} (h : Module.decode wasm = .ok m)
    {f : Function} (hf : f ∈ m.functions) : f.Spelled := by
  obtain ⟨l, functions, hparse, hvalid, hmodule⟩ := decode_eq_ok.mp h
  obtain ⟨elements, data, -, -, rfl⟩ := toModule_eq_ok.mp hmodule
  obtain ⟨s, b, -, hmem, hsame⟩ := mem_functions hvalid.defined hvalid.functionCount hf
  obtain ⟨hspelled, hcount⟩ := (parse_parsed hparse).body_spelled (List.of_mem_zip hmem).2
  -- the items are those of the body, without their meanings
  rw [hsame]
  constructor
  · rw [Body.toFunction, List.length_map]
    exact hcount
  · intro i hi
    obtain ⟨item, hitem, rfl⟩ := List.mem_map.mp hi
    exact ⟨item.1, hspelled item hitem⟩

end MeteredWasm.Wasm
