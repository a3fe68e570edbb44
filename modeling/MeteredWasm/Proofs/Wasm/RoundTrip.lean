import MeteredWasm.Proofs.Wasm.Sections
import MeteredWasm.Proofs.Wasm.Valid

/-!
# Decoding what was encoded

A module that was decoded is decoded again from its binary form. The encoder writes neither the
spelling that the decoder met nor the count of the data segments, so what is parsed again is the
layout without that count, and its rules are those of the layout the module came from.
-/

namespace MeteredWasm.Wasm

open MeteredWasm.Run MeteredWasm.Wasm.Parser

namespace Layout

/-! ## §1 From layouts to modules -/

theorem toModule_eq_ok {l : Layout} {m : Module} :
    l.toModule = .ok m ↔
      ∃ elements data, List.Forall₂ (fun e s => e.toSegment = .ok s) l.elements elements ∧
        List.Forall₂ (fun d s => d.toSegment = .ok s) l.data data ∧
        m = {
          types := l.types
          imports := l.imports
          functions := l.functionTypes.zipWith Body.toFunction l.bodies
          table := l.tables.head?
          memory := l.memories.head?
          globals := l.globals
          exports := l.exports
          start := l.start
          elements := elements
          data := data } := by
  unfold toModule
  simp only [Except.bind_eq_ok, Except.pure_eq_ok, mapM_eq_ok]
  constructor
  · rintro ⟨elements, helements, data, hdata, rfl⟩
    exact ⟨elements, data, helements, hdata, rfl⟩
  · rintro ⟨elements, data, helements, hdata, rfl⟩
    exact ⟨elements, helements, data, hdata, rfl⟩

theorem liftMalformed_eq_ok {α : Type} {x : Except Malformed α} {a : α} :
    liftMalformed x = .ok a ↔ x = .ok a := by
  cases x with
  | error cause => simp [liftMalformed]
  | ok b => simp [liftMalformed]

/-- A module is decoded when its bytes are parsed as a valid layout that makes it. -/
theorem decode_eq_ok {wasm : List UInt8} {m : Module} :
    Module.decode wasm = .ok m ↔
      ∃ l functions, parse wasm = .ok l ∧ l.Valid functions ∧ l.toModule = .ok m := by
  unfold Module.decode
  simp only [Except.bind_eq_ok, liftMalformed_eq_ok, validate_eq_ok]
  constructor
  · rintro ⟨l, hparse, _, ⟨functions, hvalid⟩, hmodule⟩
    exact ⟨l, functions, hparse, hvalid, hmodule⟩
  · rintro ⟨l, functions, hparse, hvalid, hmodule⟩
    exact ⟨l, hparse, (), ⟨functions, hvalid⟩, hmodule⟩

/-! ## §2 Counts in a valid layout -/

/-- Of at most one item, the list of the first is the list. -/
theorem toList_head?_eq {α : Type} {as : List α} (h : as.length ≤ 1) : as.head?.toList = as := by
  cases as with
  | nil => rfl
  | cons a rest =>
    obtain rfl : rest = [] := List.eq_nil_of_length_eq_zero (by simpa using h)
    rfl

theorem Valid.tableCount {l : Layout} {functions : List Signature} (h : l.Valid functions) :
    l.tables.length ≤ 1 := by
  have hone := h.oneTable
  rw [allTables, List.length_append] at hone
  omega

theorem Valid.memoryCount {l : Layout} {functions : List Signature} (h : l.Valid functions) :
    l.memories.length ≤ 1 := by
  have hone := h.oneMemory
  rw [allMemories, List.length_append] at hone
  omega

theorem Valid.functionCount {l : Layout} {functions : List Signature} (h : l.Valid functions) :
    l.functionTypes.length = l.bodies.length := by
  have hbodies := h.bodyCount
  rw [beq_iff_eq] at hbodies
  exact hbodies.symm

/-- The elements of a valid layout go into the only table. -/
theorem Valid.element_table {l : Layout} {functions : List Signature} (h : l.Valid functions)
    {e : RawElement} (he : e ∈ l.elements) : e.table = 0 := by
  have hrule := h.elements e he
  simp only [elementRule, Except.bind_eq_ok, rule_eq_ok, decide_eq_true_eq] at hrule
  obtain ⟨_, htable, -⟩ := hrule
  have hone := h.oneTable
  omega

/-- The data of a valid layout goes into the only memory. -/
theorem Valid.data_memory {l : Layout} {functions : List Signature} (h : l.Valid functions)
    {d : RawData} (hd : d ∈ l.data) {memory : Nat} {offset : Initializer}
    (hmode : d.mode = .active memory offset) : memory = 0 := by
  have hrule := h.data d hd
  simp only [dataRule, hmode, Except.bind_eq_ok, rule_eq_ok, decide_eq_true_eq] at hrule
  obtain ⟨_, hmemory, -⟩ := hrule
  have hone := h.oneMemory
  omega

/-! ## §3 The sections of a decoded module -/

/-- A list of entries that are written as they are. -/
theorem Completes.listing_self {α : Type} {bound : Nat} {l result : Layout} {id : UInt8}
    {rest : List UInt8} {p : Parser α} {put : List α → Layout} {encode : α → List UInt8}
    {as : List α} (hrank : rank? id.toNat = some (bound + 1))
    (hput : sectionContents id.toNat l = vec p >>= fun as => pure (put as)) (hempty : put [] = l)
    (hp : Rewrites p Eq encode) (has : Listed p as)
    (hrest : Completes (bound + 1) (put as) rest result) :
    Completes bound l (Encode.listing id encode as ++ rest) result :=
  Completes.listing hrank hput hempty hp has (List.forall₂_refl as) hrest

theorem functionType_rewrites :
    Rewrites u32 (fun type f => f.type = type) fun f : Function => Leb.unsigned f.type := by
  intro s type s' f hrun hstands
  exact u32_rewrites _ _ _ _ hrun hstands.symm

/-- Each part of the module stands for a part of the layout. -/
structure Stands (l : Layout) (m : Module) : Prop where
  types : m.types = l.types
  imports : m.imports = l.imports
  functionTypes : List.Forall₂ (fun type f => f.type = type) l.functionTypes m.functions
  tables : m.table.toList = l.tables
  memories : m.memory.toList = l.memories
  globals : m.globals = l.globals
  exports : m.exports = l.exports
  start : m.start = l.start
  elements : List.Forall₂ (fun e kept => e.table = 0 ∧ e.toSegment = .ok kept) l.elements m.elements
  bodies : List.Forall₂ (fun b f => f.locals = b.locals ∧ f.body = b.code.map Prod.snd) l.bodies
    m.functions
  data : List.Forall₂
    (fun d kept => (∀ memory offset, d.mode = .active memory offset → memory = 0) ∧
      d.toSegment = .ok kept) l.data m.data

/-- A module stands for the valid layout that it is made from. -/
theorem Valid.stands {l : Layout} {functions : List Signature} {m : Module}
    (hvalid : l.Valid functions) (hmodule : l.toModule = .ok m) : l.Stands m := by
  obtain ⟨elements, data, helements, hdata, rfl⟩ := toModule_eq_ok.mp hmodule
  have hcount := hvalid.functionCount
  -- segments may have named their table or memory; in a valid layout it is the first
  have helements' : List.Forall₂ (fun e kept => e.table = 0 ∧ e.toSegment = .ok kept)
      l.elements elements := by
    rw [List.forall₂_iff_zip] at helements ⊢
    refine ⟨helements.1, fun hmem => ⟨?_, helements.2 hmem⟩⟩
    exact hvalid.element_table (List.of_mem_zip hmem).1
  have hdata' : List.Forall₂
      (fun d kept => (∀ memory offset, d.mode = .active memory offset → memory = 0) ∧
        d.toSegment = .ok kept) l.data data := by
    rw [List.forall₂_iff_zip] at hdata ⊢
    refine ⟨hdata.1, fun hmem => ⟨fun memory offset hmode => ?_, hdata.2 hmem⟩⟩
    exact hvalid.data_memory (List.of_mem_zip hmem).1 hmode
  exact
    { types := rfl
      imports := rfl
      functionTypes := forall₂_zipWith_left hcount fun _ _ => rfl
      tables := toList_head?_eq hvalid.tableCount
      memories := toList_head?_eq hvalid.memoryCount
      globals := rfl
      exports := rfl
      start := rfl
      elements := helements'
      bodies := forall₂_zipWith_right hcount fun _ _ => ⟨rfl, rfl⟩
      data := hdata' }

/-- The sections of a module that stands for a layout are parsed as that layout, except that the
data segments are not counted. -/
theorem sections_complete {l : Layout} {m : Module} (hparsed : l.Parsed) (h : l.Stands m) :
    Completes 0 default (Encode.sections m) { l with dataCount := none } := by
  simp only [Encode.sections, List.append_assoc, h.types, h.imports, h.tables, h.memories,
    h.globals, h.exports, h.start]
  rw [← List.append_nil (Encode.listing 11 Encode.dataSegment m.data)]
  refine .listing_self rfl rfl rfl signature_rewrites hparsed.types ?_
  refine .listing_self rfl rfl rfl importEntry_rewrites hparsed.imports ?_
  refine .listing rfl rfl rfl functionType_rewrites hparsed.functionTypes h.functionTypes ?_
  refine .listing_self rfl rfl rfl table_rewrites hparsed.tables ?_
  refine .listing_self rfl rfl rfl limits_rewrites hparsed.memories ?_
  refine .listing_self rfl rfl rfl global_rewrites hparsed.globals ?_
  refine .listing_self rfl rfl rfl exportEntry_rewrites hparsed.exports ?_
  -- behind the start index, whether it is there or not, all is the same
  have hrest : Completes 8 { l with elements := [], dataCount := none, bodies := [], data := [] }
      (Encode.listing 9 Encode.elementSegment m.elements ++
        (Encode.listing 10 Encode.code m.functions ++
          (Encode.listing 11 Encode.dataSegment m.data ++ [])))
      { l with dataCount := none } := by
    refine .listing rfl rfl rfl elementSegment_rewrites hparsed.elements h.elements ?_
    refine .skip (.listing rfl rfl rfl code_rewrites hparsed.bodies h.bodies ?_)
    refine .listing rfl rfl rfl dataSegment_rewrites hparsed.data h.data ?_
    exact .nil 12 _
  obtain ⟨types, imports, functionTypes, tables, memories, globals, exports, start, rest⟩ := l
  cases start with
  | none => exact hrest.skip
  | some index =>
    have hindex : index < 2 ^ 32 := hparsed.start index rfl
    refine .cons rfl (sized_reads (((u32_reads hindex).bind_pure _).run 0) ?_) hrest
    have hlength := Leb.length_unsigned_le index
    omega

/-! ## §4 The round trip -/

/-- Rules do not look at the count of data segments, when it is not there. -/
theorem Valid.uncounted {l : Layout} {functions : List Signature} (h : l.Valid functions) :
    Valid { l with dataCount := none } functions :=
  { h with dataCount := rfl }

theorem header_reads : Reads header Encode.header () := by
  intro tail offset
  refine bind_eq_ok.mpr ⟨Encode.header, ⟨tail, offset + Encode.header.length⟩, ?_, rfl⟩
  exact take_reads Encode.header tail offset

/-- The binary form of a decoded module is parsed as the layout it came from, except that the data
segments are not counted. -/
theorem parse_encode {l : Layout} {functions : List Signature} {m : Module}
    (hparsed : l.Parsed) (hvalid : l.Valid functions) (hmodule : l.toModule = .ok m) :
    parse m.encode = .ok { l with dataCount := none } := by
  have hsections := sections_complete hparsed (hvalid.stands hmodule)
  -- the fuel is the length of all bytes, more than the sections need
  obtain ⟨offset', hrun⟩ := hsections 0 m.encode.length (0 + Encode.header.length) le_rfl (by
    rw [Module.encode, List.length_append]
    omega)
  exact parse_eq_ok.mpr ⟨_, _, header_reads (Encode.sections m) 0, hrun⟩

end Layout

/-- Whatever bytes a module was decoded from, it is decoded again from its binary form; writing it
once more changes nothing. -/
theorem decode_encode {wasm : List UInt8} {m : Module} (h : Module.decode wasm = .ok m) :
    Module.decode m.encode = .ok m ∧
      Module.encode <$> Module.decode m.encode = .ok m.encode := by
  obtain ⟨l, functions, hparse, hvalid, hmodule⟩ := Layout.decode_eq_ok.mp h
  have hparsed := Layout.parse_parsed hparse
  have hagain : Module.decode m.encode = .ok m := by
    rw [Layout.decode_eq_ok]
    exact ⟨_, functions, Layout.parse_encode hparsed hvalid hmodule, hvalid.uncounted, hmodule⟩
  refine ⟨hagain, ?_⟩
  rw [hagain]
  rfl

/-- A module spelled at length: padded numbers, a run of no locals, a counted data segment, segments
that name their table and their memory. Its global starts as a signalling NaN. -/
def spelledAtLength : List UInt8 :=
  [0x00, 0x61, 0x73, 0x6D, 0x01, 0x00, 0x00, 0x00, 0x01, 0x85, 0x00, 0x81, 0x00, 0x60, 0x00,
   0x00, 0x03, 0x02, 0x01, 0x00, 0x04, 0x04, 0x01, 0x70, 0x00, 0x01, 0x05, 0x03, 0x01, 0x00,
   0x01, 0x06, 0x09, 0x01, 0x7D, 0x00, 0x43, 0x01, 0x00, 0xA0, 0x7F, 0x0B, 0x07, 0x05, 0x01,
   0x01, 0x67, 0x03, 0x00, 0x08, 0x01, 0x00, 0x09, 0x09, 0x01, 0x02, 0x00, 0x41, 0x00, 0x0B,
   0x00, 0x01, 0x00, 0x0C, 0x01, 0x01, 0x0A, 0x09, 0x01, 0x07, 0x01, 0x00, 0x7F, 0x10, 0x80,
   0x00, 0x0B, 0x0B, 0x0A, 0x01, 0x02, 0x00, 0x41, 0xFF, 0xFF, 0x03, 0x0B, 0x01, 0x2A]

/-- The module that `spelledAtLength` encodes. -/
def ofSpelledAtLength : Module where
  types := [⟨[], none⟩]
  imports := []
  functions := [⟨0, [(0, .i32)], [.call 0, .raw [0x0B]]⟩]
  table := some ⟨1, none⟩
  memory := some ⟨1, none⟩
  globals := [⟨.f32, false, .const (.f32 0x7FA00001)⟩]
  exports := [⟨"g", .global, 0⟩]
  start := some 0
  elements := [⟨0, [0]⟩]
  data := [⟨65535, [42]⟩]

theorem decode_encode_spelledAtLength :
    Module.decode spelledAtLength = .ok ofSpelledAtLength ∧
      Module.decode ofSpelledAtLength.encode = .ok ofSpelledAtLength ∧
      Module.encode <$> Module.decode ofSpelledAtLength.encode = .ok ofSpelledAtLength.encode :=
  have hdecode : Module.decode spelledAtLength = .ok ofSpelledAtLength := by decide +kernel
  ⟨hdecode, decode_encode hdecode⟩

end MeteredWasm.Wasm
