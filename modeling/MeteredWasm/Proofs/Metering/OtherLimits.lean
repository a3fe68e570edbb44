import MeteredWasm.Proofs.Metering.Outcome

/-!
# Other limits for a memory

A module that is a decoded one up to the maximum of its memory. It is decoded from its binary form
exactly when its limits keep the rules of memories and its imports, which may have grown by a
maximum, still fit into a section.
-/

namespace MeteredWasm.Wasm

open MeteredWasm.Run MeteredWasm.Wasm.Parser

namespace Parser

variable {α : Type} {p : Parser α} {encode : α → List UInt8} {as : List α}

/-! ## §1 Lists that are written -/

theorem items_reads (h : ∀ a ∈ as, Reads p (encode a) a) :
    Reads (items p as.length) (as.flatMap encode) as := by
  induction as with
  | nil => exact Reads.pure []
  | cons a as ih =>
    have hrest := ih fun b hb => h b (List.mem_cons_of_mem a hb)
    rw [List.flatMap_cons]
    exact (h a List.mem_cons_self).bind (hrest.bind_pure (a :: ·))

/-- A list is read from its encoding if every item is, and they can be counted. -/
theorem vec_reads (hcount : as.length < 2 ^ 32) (h : ∀ a ∈ as, Reads p (encode a) a) :
    Reads (vec p) (Encode.vec encode as) as := by
  rw [vec_eq_items]
  exact (u32_reads hcount).bind (items_reads h)

end Parser

namespace Layout

theorem Listed.of_reads {α : Type} {p : Parser α} {encode : α → List UInt8} {as : List α}
    (hcount : as.length < 2 ^ 32) (h : ∀ a ∈ as, Reads p (encode a) a)
    (hlength : (Encode.vec encode as).length < 2 ^ 32) : Listed p as :=
  .inr ⟨Encode.vec encode as, _, hlength, (vec_reads hcount h).run 0⟩

/-! ## §2 Limits that are written -/

theorem memoryLimits_iff {l : Limits} :
    memoryLimits l = true ↔
      l.initial ≤ maxPages ∧
        ∀ maximum, l.maximum = some maximum → l.initial ≤ maximum ∧ maximum ≤ maxPages := by
  obtain ⟨initial, maximum⟩ := l
  cases maximum with
  | none => simp [memoryLimits, limitsOrdered]
  | some maximum => simp [memoryLimits, limitsOrdered, and_assoc, and_left_comm]

/-- Limits that keep the rules are read from their encoding. -/
theorem limits_reads {l : Limits} (h : memoryLimits l = true) :
    Reads limits (Encode.limits l) l := by
  obtain ⟨hinitial, hmaximum⟩ := memoryLimits_iff.mp h
  have hword : maxPages < 2 ^ 32 := by decide
  obtain ⟨initial, maximum⟩ := l
  have hreads := u32_reads (Nat.lt_of_le_of_lt hinitial hword)
  cases maximum with
  | none => exact Reads.byte_bind (hreads.bind_pure _)
  | some maximum =>
    have hreads' := u32_reads (Nat.lt_of_le_of_lt (hmaximum maximum rfl).2 hword)
    exact Reads.byte_bind (hreads.bind (hreads'.bind_pure _))

theorem limits_length {l : Limits} (h : memoryLimits l = true) :
    (Encode.limits l).length ≤ (Encode.limits l.withoutMaximum).length + 3 := by
  obtain ⟨initial, maximum⟩ := l
  cases maximum with
  | none => exact Nat.le_add_right _ _
  | some maximum =>
    have hshort := Leb.length_unsigned_mono ((memoryLimits_iff.mp h).2 maximum rfl).2
    have hthree : (Leb.unsigned maxPages).length = 3 := by decide +kernel
    simp only [Encode.limits, Limits.withoutMaximum, List.length_cons, List.length_append]
    omega

/-- The limits of one memory fit into a section. -/
theorem listed_limits {memory : Option Limits}
    (h : ∀ l ∈ memory.toList, memoryLimits l = true) : Listed limits memory.toList := by
  cases memory with
  | none => exact .inl rfl
  | some l =>
    have hlimits := h l List.mem_cons_self
    refine .of_reads (by simp) (fun l' hl' => limits_reads (h l' hl')) ?_
    have hlength := limits_length hlimits
    have hplain : (Encode.limits l.withoutMaximum).length = (Leb.unsigned l.initial).length + 1 :=
      rfl
    have hinitial := Leb.length_unsigned_le l.initial
    have hone := Leb.length_unsigned_le 1
    have hbound : l.initial ≤ 65536 := (memoryLimits_iff.mp hlimits).1
    rw [Option.toList_some, Encode.vec, List.length_append, List.length_singleton,
      List.flatMap_singleton]
    omega

/-! ## §3 Imports that are written -/

end Layout

/-- Imports that agree up to a maximum are the same, or memories under the same names. -/
theorem Import.eq_or_memory {i i' : Import} (h : i'.withoutMaximum = i.withoutMaximum) :
    i' = i ∨ ∃ l l', i.kind = .memory l ∧ i' = { i with kind := .memory l' } ∧
      l'.withoutMaximum = l.withoutMaximum := by
  obtain ⟨namespace_, name, kind⟩ := i
  obtain ⟨namespace', name', kind'⟩ := i'
  cases kind with
  | memory l =>
    cases kind' with
    | memory l' =>
      simp only [withoutMaximum, Import.mk.injEq, ImportKind.memory.injEq] at h
      obtain ⟨rfl, rfl, hl⟩ := h
      exact .inr ⟨l, l', rfl, rfl, hl⟩
    | function | table | global => cases h
  | function | table | global =>
    cases kind' with
    | memory l' => cases h
    | function | table | global => exact .inl h

namespace Layout

variable {s s' : Input} {i i' : Import}

theorem importEntry_names (hrun : importEntry.run s = .ok (i, s')) :
    Reads name (Encode.name i.namespace_) i.namespace_ ∧ Reads name (Encode.name i.name) i.name := by
  obtain ⟨namespace_, t, hnamespace, hrun⟩ := bind_eq_ok.mp hrun
  obtain ⟨itemName, t', hname, hrun⟩ := bind_eq_ok.mp hrun
  obtain ⟨kind, t'', -, hrun⟩ := bind_eq_ok.mp hrun
  obtain ⟨rfl, -⟩ := pure_eq_ok.mp hrun
  exact ⟨(name_rewrites _ _ _ _ hnamespace rfl).1, (name_rewrites _ _ _ _ hname rfl).1⟩

/-- An import that was parsed is read from its encoding, also with other limits for its memory. -/
theorem importEntry_reads (hrun : importEntry.run s = .ok (i, s'))
    (hsame : i'.withoutMaximum = i.withoutMaximum)
    (hlimits : ∀ l ∈ i'.memory?, memoryLimits l = true) :
    Reads importEntry (Encode.importEntry i') i' := by
  rcases Import.eq_or_memory hsame with rfl | ⟨l, l', -, rfl, -⟩
  · exact (importEntry_rewrites _ _ _ _ hrun rfl).1
  · obtain ⟨hnamespace, hname⟩ := importEntry_names hrun
    have hreads := limits_reads (hlimits l' rfl)
    rw [Encode.importEntry, List.append_assoc]
    exact hnamespace.bind (hname.bind (Reads.bind_pure (Reads.byte_bind (hreads.bind_pure _)) _))

/-- A maximum makes an import longer by three bytes at most. -/
theorem importEntry_length (hsame : i'.withoutMaximum = i.withoutMaximum)
    (hlimits : ∀ l ∈ i'.memory?, memoryLimits l = true) :
    (Encode.importEntry i').length ≤
      (Encode.importEntry i).length + 3 * i'.memory?.toList.length := by
  rcases Import.eq_or_memory hsame with rfl | ⟨l, l', hkind, rfl, hl⟩
  · exact Nat.le_add_right _ _
  · have hlonger := limits_length (hlimits l' rfl)
    have hshorter : (Encode.limits l'.withoutMaximum).length ≤ (Encode.limits l).length := by
      rw [hl]
      obtain ⟨initial, maximum⟩ := l
      cases maximum with
      | none => exact Nat.le_refl _
      | some maximum => simp [Encode.limits, Limits.withoutMaximum]
    have hone : (Import.memory? { i with kind := .memory l' }).toList.length = 1 := rfl
    rw [hone]
    simp only [Encode.importEntry, hkind, List.length_append, List.length_cons]
    omega

theorem importEntries_length {imports imports' : List Import}
    (hsame : List.Forall₂ (fun i' i => i'.withoutMaximum = i.withoutMaximum) imports' imports)
    (hlimits : ∀ l ∈ imports'.filterMap Import.memory?, memoryLimits l = true) :
    (imports'.flatMap Encode.importEntry).length ≤ (imports.flatMap Encode.importEntry).length +
      3 * (imports'.filterMap Import.memory?).length := by
  induction hsame with
  | nil => exact Nat.zero_le _
  | @cons i' i imports' imports hfirst _ ih =>
    have hhere : ∀ l ∈ i'.memory?, memoryLimits l = true :=
      fun l hl => hlimits l (List.mem_filterMap.mpr ⟨i', List.mem_cons_self, hl⟩)
    have hthere : ∀ l ∈ imports'.filterMap Import.memory?, memoryLimits l = true := by
      intro l hl
      obtain ⟨j, hj, hkind⟩ := List.mem_filterMap.mp hl
      exact hlimits l (List.mem_filterMap.mpr ⟨j, List.mem_cons_of_mem i' hj, hkind⟩)
    have hcount : ((i' :: imports').filterMap Import.memory?).length =
        i'.memory?.toList.length + (imports'.filterMap Import.memory?).length := by
      rw [List.filterMap_cons]
      cases i'.memory? with
      | none => exact (Nat.zero_add _).symm
      | some l => exact Nat.add_comm _ _
    have hlength := importEntry_length hfirst hhere
    have hlengths := ih hthere
    simp only [hcount, List.flatMap_cons, List.length_append]
    omega

/-! ## §4 Rules -/

theorem length_memories {imports imports' : List Import}
    (h : imports'.map Import.withoutMaximum = imports.map Import.withoutMaximum) :
    (imports'.filterMap Import.memory?).length = (imports.filterMap Import.memory?).length := by
  have hfound : imports'.filterMap (fun i => i.memory?.map fun _ => ()) =
      imports.filterMap (fun i => i.memory?.map fun _ => ()) :=
    Metering.filterMap_of_withoutMaximum (fun _ _ _ => rfl) h
  have hlength := congrArg List.length hfound
  rwa [← List.map_filterMap, ← List.map_filterMap, List.length_map, List.length_map] at hlength

variable {l : Layout} {functions : List Signature}

/-- The rules look at the maximum of a memory only where they check its limits. -/
theorem Valid.with_limits (h : l.Valid functions) {imports : List Import} {memories : List Limits}
    (himports : imports.map Import.withoutMaximum = l.imports.map Import.withoutMaximum)
    (hmemories : memories.map Limits.withoutMaximum = l.memories.map Limits.withoutMaximum)
    (hlimits : ∀ x ∈ allMemories { l with imports := imports, memories := memories },
      memoryLimits x = true) :
    Valid { l with imports := imports, memories := memories } functions := by
  have hfind {α : Type} {find : Import → Option α} (hmemory : ∀ namespace_ name l,
      find ⟨namespace_, name, .memory l.withoutMaximum⟩ = find ⟨namespace_, name, .memory l⟩) :
      imports.filterMap find = l.imports.filterMap find :=
    Metering.filterMap_of_withoutMaximum hmemory himports
  have htypes : allFunctionTypes { l with imports := imports, memories := memories } =
      l.allFunctionTypes :=
    congrArg (· ++ l.functionTypes) (hfind fun _ _ _ => rfl)
  have htables : allTables { l with imports := imports, memories := memories } = l.allTables :=
    congrArg (· ++ l.tables) (hfind fun _ _ _ => rfl)
  have hglobals : importedGlobals { l with imports := imports, memories := memories } =
      l.importedGlobals :=
    hfind fun _ _ _ => rfl
  have hcount : (allMemories { l with imports := imports, memories := memories }).length =
      l.allMemories.length := by
    have hdefined := congrArg List.length hmemories
    rw [List.length_map, List.length_map] at hdefined
    rw [allMemories, allMemories, List.length_append, List.length_append,
      length_memories himports, hdefined]
  have hall : allGlobals { l with imports := imports, memories := memories } = l.allGlobals :=
    congrArg (· ++ l.globals.map fun g => (g.type, g.isMutable)) hglobals
  have hspace (kind : ExportKind) : exportSpace { l with imports := imports, memories := memories }
      kind = l.exportSpace kind := by
    cases kind with
    | function => exact congrArg List.length htypes
    | table => exact congrArg List.length htables
    | memory => exact hcount
    | global => exact congrArg List.length hall
  have hborder : borderWithin { l with imports := imports, memories := memories }
      functions.toArray = l.borderWithin functions.toArray := by
    have hweights : imports.filterMap
          (fun i => some (borderWeight (importedSignature? l.types.toArray i))) =
        l.imports.filterMap
          (fun i => some (borderWeight (importedSignature? l.types.toArray i))) :=
      hfind fun _ _ _ => rfl
    simp only [List.filterMap_eq_map'] at hweights
    simp only [borderWithin, hweights]
  have henv : typeEnv { l with imports := imports, memories := memories } functions =
      l.typeEnv functions := by
    have hempty : (allMemories { l with imports := imports, memories := memories }).isEmpty =
        l.allMemories.isEmpty := by
      rw [Bool.eq_iff_iff, List.isEmpty_iff_length_eq_zero, List.isEmpty_iff_length_eq_zero, hcount]
    simp only [typeEnv, hall, htables, hempty]
  refine
    { signatures := ?_
      oneTable := by rw [htables]; exact h.oneTable
      tables := by rw [htables]; exact h.tables
      oneMemory := by rw [hcount]; exact h.oneMemory
      memories := List.all_eq_true.mpr hlimits
      globals := by rw [hglobals]; exact h.globals
      exports := by simp only [hspace]; exact h.exports
      names := h.names
      border := hborder.trans h.border
      start := h.start
      elements := by rw [htables, hglobals]; exact h.elements
      data := by rw [hcount, hglobals]; exact h.data
      dataCount := h.dataCount
      bodyCount := h.bodyCount
      bodies := by rw [henv]; exact h.bodies }
  show (allFunctionTypes { l with imports := imports, memories := memories }).mapM _ = _
  rw [htypes]
  exact h.signatures

end Layout

/-! ## §5 The round trip -/

/-- The imports fit into a section, the length of which is a number of 32 bits. -/
def Module.ImportsFit (m : Module) : Prop :=
  (Encode.vec Encode.importEntry m.imports).length < 2 ^ 32

theorem Module.eq_of_withoutMaximum {m m' : Module}
    (h : m'.withoutMaximum = m.withoutMaximum) :
    m' = { m with imports := m'.imports, memory := m'.memory } ∧
      m'.imports.map Import.withoutMaximum = m.imports.map Import.withoutMaximum ∧
      m'.memory.map Limits.withoutMaximum = m.memory.map Limits.withoutMaximum := by
  obtain ⟨types, imports, functions, table, memory, globals, exports, start, elements, data⟩ := m
  obtain ⟨types', imports', functions', table', memory', globals', exports', start', elements',
    data'⟩ := m'
  simp only [withoutMaximum, Module.mk.injEq] at h
  obtain ⟨rfl, himports, rfl, rfl, hmemory, rfl, rfl, rfl, rfl, rfl⟩ := h
  exact ⟨rfl, himports, hmemory⟩

open Layout

/-- The memories of a decoded module keep the rules. -/
theorem memoryLimits_of_decode {wasm : List UInt8} {m : Module} (h : Module.decode wasm = .ok m) :
    m.outline.allMemories.length ≤ 1 ∧
      ∀ l ∈ m.outline.allMemories, memoryLimits l = true := by
  obtain ⟨layout, functions, -, hvalid, hmodule⟩ := decode_eq_ok.mp h
  rw [outline_of_toModule hvalid hmodule]
  exact ⟨hvalid.oneMemory, List.all_eq_true.mp hvalid.memories⟩

/-- With other limits for its memory, a decoded module is decoded from its binary form exactly when
the limits keep the rules and the imports fit. -/
theorem decode_encode_iff {wasm : List UInt8} {m m' : Module} (h : Module.decode wasm = .ok m)
    (hsame : m'.withoutMaximum = m.withoutMaximum) :
    Module.decode m'.encode = .ok m' ↔
      (∀ l ∈ m'.outline.allMemories, memoryLimits l = true) ∧ m'.ImportsFit := by
  constructor
  · intro hagain
    refine ⟨(memoryLimits_of_decode hagain).2, ?_⟩
    obtain ⟨layout, functions, hparse, -, hmodule⟩ := decode_eq_ok.mp hagain
    have hfit := (parse_parsed hparse).imports.length_vec_lt importEntry_rewrites
      (List.forall₂_refl _)
    obtain ⟨_, _, -, -, rfl⟩ := toModule_eq_ok.mp hmodule
    exact hfit
  · rintro ⟨hlimits, hfit⟩
    obtain ⟨layout, functions, hparse, hvalid, hmodule⟩ := decode_eq_ok.mp h
    have hparsed := parse_parsed hparse
    obtain ⟨hfields, himports, hmemory⟩ := Module.eq_of_withoutMaximum hsame
    obtain ⟨elements, data, helements, hdata, rfl⟩ := toModule_eq_ok.mp hmodule
    have hmemories : m'.memory.toList.map Limits.withoutMaximum =
        layout.memories.map Limits.withoutMaximum := by
      rw [← Option.toList_map, hmemory, Option.toList_map, toList_head?_eq hvalid.memoryCount]
    -- the layout of the module, with the new limits
    have hvalid' : Valid { layout with imports := m'.imports, memories := m'.memory.toList }
        functions := hvalid.with_limits himports hmemories hlimits
    have hmodule' : toModule { layout with imports := m'.imports, memories := m'.memory.toList } =
        .ok m' := by
      rw [toModule_eq_ok]
      refine ⟨elements, data, helements, hdata, ?_⟩
      rw [Option.head?_toList]
      exact hfields
    have hcount : m'.imports.length = layout.imports.length := by
      have hlength := congrArg List.length himports
      rwa [List.length_map, List.length_map] at hlength
    have hread : ∀ i' ∈ m'.imports, Reads importEntry (Encode.importEntry i') i' := by
      intro i' hi'
      have hmem := List.mem_map_of_mem (f := Import.withoutMaximum) hi'
      rw [himports] at hmem
      obtain ⟨i, hi, hwithout⟩ := List.mem_map.mp hmem
      obtain ⟨s, s', hrun⟩ := hparsed.imports.exists_run hi
      exact importEntry_reads hrun hwithout.symm fun l hl => hlimits l
        (List.mem_append_left _ (List.mem_filterMap.mpr ⟨i', hi', hl⟩))
    have hparsed' : Parsed { layout with imports := m'.imports, memories := m'.memory.toList } :=
      { hparsed with
        imports := .of_reads (hcount ▸ hparsed.imports.length_lt) hread hfit
        memories := listed_limits fun l hl => hlimits l (List.mem_append_right _ hl) }
    rw [decode_eq_ok]
    exact ⟨_, functions, parse_encode hparsed' hvalid' hmodule', hvalid'.uncounted, hmodule'⟩

/-! ## §6 Modules of less than four gibibytes -/

namespace Layout

theorem sectionContents_imports {id : Nat} {l l' : Layout} {contents : List UInt8} {offset : Nat}
    (hrun : (sectionContents id l).run ⟨contents, 0⟩ = .ok (l', ⟨[], offset⟩)) :
    l'.imports = l.imports ∨
      (Encode.vec Encode.importEntry l'.imports).length ≤ contents.length := by
  unfold sectionContents at hrun
  split at hrun
  case h_13 => simp at hrun
  all_goals
    obtain ⟨as, t, has, hrun⟩ := bind_eq_ok.mp hrun
    obtain ⟨rfl, rfl⟩ := pure_eq_ok.mp hrun
  case h_2 =>
    have hbound := (vec_rewrites_self importEntry_rewrites _ _ _ _ has rfl).2
    exact .inr (Nat.le_of_add_right_le hbound)
  all_goals exact .inl rfl

/-- The imports are written in no more bytes than the sections have, and one. -/
theorem sections_imports {bound fuel lastRank : Nat} {l l' : Layout} {s s' : Input}
    (hl : (Encode.vec Encode.importEntry l.imports).length ≤ bound + 1)
    (hs : s.bytes.length ≤ bound) (hrun : (sections fuel lastRank l).run s = .ok (l', s')) :
    (Encode.vec Encode.importEntry l'.imports).length ≤ bound + 1 := by
  induction fuel generalizing lastRank l s with
  | zero =>
    obtain ⟨rfl, -⟩ := pure_eq_ok.mp hrun
    exact hl
  | succ fuel ih =>
    obtain ⟨-, rfl⟩ | ⟨id, contents, piece, rank, next, t, hbytes, hsized, hread, hrun⟩ :=
      sections_cases hrun
    · exact hl
    · have hpart := hsized.length_le
      rw [hbytes, List.length_cons, List.length_append] at hs
      refine ih ?_ (by omega) hrun
      cases hread with
      | custom => exact hl
      | listed hrank hlast hcontents =>
        rcases sectionContents_imports hcontents with hsame | hshort
        · rwa [hsame]
        · omega

end Layout

/-- A maximum for an imported memory leaves room in a module of less than four gibibytes. -/
theorem importsFit_of_length {wasm : List UInt8} {m m' : Module} (h : Module.decode wasm = .ok m)
    (hsame : m'.withoutMaximum = m.withoutMaximum)
    (hlimits : ∀ l ∈ m'.outline.allMemories, memoryLimits l = true)
    (hlength : wasm.length < 2 ^ 32) : m'.ImportsFit := by
  obtain ⟨layout, functions, hparse, hvalid, hmodule⟩ := decode_eq_ok.mp h
  obtain ⟨t, s, hheader, hsections⟩ := parse_eq_ok.mp hparse
  obtain ⟨front, t', htake, hmark⟩ := bind_eq_ok.mp hheader
  obtain ⟨hbytes, hfront, -⟩ := take_eq_ok.mp htake
  obtain ⟨-, rfl⟩ := require_eq_ok.mp hmark
  have hwasm : wasm.length = 8 + t'.bytes.length := by
    rw [← hfront, ← List.length_append, ← hbytes]
  have hnone : (Encode.vec Encode.importEntry (default : Layout).imports).length ≤
      t'.bytes.length + 1 :=
    (length_vec_nil _).trans (Nat.le_add_left 1 _)
  have hbound := sections_imports hnone le_rfl hsections
  -- at most one import has become longer, and there are as many as before
  obtain ⟨-, himports, -⟩ := Module.eq_of_withoutMaximum hsame
  obtain ⟨elements, data, -, -, rfl⟩ := toModule_eq_ok.mp hmodule
  have hforall : List.Forall₂ (fun i' i => i'.withoutMaximum = i.withoutMaximum)
      m'.imports layout.imports := by
    rwa [← List.forall₂_eq_eq_eq, List.forall₂_map_left_iff, List.forall₂_map_right_iff] at himports
  have hentries := importEntries_length hforall fun l hl => hlimits l (List.mem_append_left _ hl)
  have hone : (m'.imports.filterMap Import.memory?).length ≤ 1 := by
    have hmemories := hvalid.oneMemory
    rw [allMemories, List.length_append] at hmemories
    exact (length_memories himports).trans_le (Nat.le_of_add_right_le hmemories)
  have hcount := hforall.length_eq
  rw [Encode.vec, List.length_append] at hbound
  rw [Module.ImportsFit, Encode.vec, List.length_append, hcount]
  omega

end MeteredWasm.Wasm
