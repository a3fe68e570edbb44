import MeteredWasm.Proofs.Wasm.WellTyped

/-!
# Bodies taken apart

What decoding keeps of the code section. The entries of that section are told apart by their
lengths; each spells the function at its place, its runs of locals one by one and its instructions
segment by segment. The binary form of the module has entries that spell the same functions, with
every number in its shortest form and every other byte as it was.

* `CodeEntries`: the entries of a binary, and that there is one way to tell them apart;
* `Function.SpelledBy`: a function and its entry, piece by piece;
* `Layout.parse_codeEntries`: what is parsed as a body is spelled by an entry;
* `Layout.Stands.codeEntries`: the entries that are written;
* `decode_splits`: both, for a module and the bytes it was decoded from.
-/

namespace MeteredWasm.Wasm

open MeteredWasm.Run MeteredWasm.Wasm.Parser

/-! ## §1 Code entries -/

/-- The bytes are sections, each a number and contents behind their length, and these are the
contents of the code sections among them. -/
inductive Sectioned : List UInt8 → List (List UInt8) → Prop where
  | nil : Sectioned [] []
  | code {contents piece rest : List UInt8} {codes : List (List UInt8)} :
      Sized contents piece → Sectioned rest codes →
      Sectioned (10 :: (piece ++ rest)) (contents :: codes)
  | other {id : UInt8} {contents piece rest : List UInt8} {codes : List (List UInt8)} :
      id ≠ 10 → Sized contents piece → Sectioned rest codes →
      Sectioned (id :: (piece ++ rest)) codes

/-- The entries of the code section of a binary, without their lengths. There are none if it has no
such section. -/
def CodeEntries (wasm : List UInt8) (entries : List (List UInt8)) : Prop :=
  ∃ body codes, wasm = Encode.header ++ body ∧ Sectioned body codes ∧
    ((codes = [] ∧ entries = []) ∨
      ∃ contents, codes = [contents] ∧ Counted (Leb.Form 32) Sized entries contents)

theorem Sectioned.unique {bytes : List UInt8} {codes codes' : List (List UInt8)}
    (h : Sectioned bytes codes) (h' : Sectioned bytes codes') : codes = codes' := by
  -- the number of a section and the length behind it tell where the next one starts
  induction h generalizing codes' with
  | nil =>
    cases h'
    rfl
  | @code contents piece rest codes hsized _ ih =>
    generalize hbytes : (10 : UInt8) :: (piece ++ rest) = bytes at h'
    cases h' with
    | nil => cases hbytes
    | code hsized' hrest' =>
      obtain ⟨rfl, rfl⟩ := sized_unambiguous hsized hsized' (List.cons.inj hbytes).2
      rw [ih hrest']
    | other hother => exact absurd (List.cons.inj hbytes).1.symm hother
  | @other id contents piece rest codes hother hsized _ ih =>
    generalize hbytes : id :: (piece ++ rest) = bytes at h'
    cases h' with
    | nil => cases hbytes
    | code => exact absurd (List.cons.inj hbytes).1 hother
    | other _ hsized' hrest' =>
      obtain ⟨rfl, rfl⟩ := sized_unambiguous hsized hsized' (List.cons.inj hbytes).2
      exact ih hrest'

/-- A binary has its code entries in one way only. -/
theorem CodeEntries.unique {wasm : List UInt8} {entries entries' : List (List UInt8)}
    (h : CodeEntries wasm entries) (h' : CodeEntries wasm entries') : entries = entries' := by
  obtain ⟨body, codes, rfl, hsections, hcode⟩ := h
  obtain ⟨body', codes', hbody, hsections', hcode'⟩ := h'
  obtain rfl := List.append_cancel_left hbody
  obtain rfl := hsections.unique hsections'
  rcases hcode with ⟨rfl, rfl⟩ | ⟨contents, rfl, hentries⟩
  · rcases hcode' with ⟨-, rfl⟩ | ⟨contents', hsome, -⟩
    · rfl
    · cases hsome
  · rcases hcode' with ⟨hnone, -⟩ | ⟨contents', hsame, hentries'⟩
    · cases hnone
    · obtain rfl := List.head_eq_of_cons_eq hsame
      have hsame : contents ++ [] = contents ++ [] := rfl
      exact (counted_unambiguous sized_unambiguous hentries hentries' hsame).1

/-! ## §2 Functions in code entries -/

/-- A run of locals: how many there are, in a form of the given kind, and their type. -/
def LocalRun (form : Nat → List UInt8 → Prop) (run : Nat × ValueType) (piece : List UInt8) : Prop :=
  ∃ count, piece = count ++ [Encode.valueType run.2] ∧ form run.1 count

/-- The bytes of an instruction of a body. A call is its opcode and its target, in a form of the
given kind; any other instruction is its own bytes, which spell it and are no call. -/
inductive Instr.Segment (form : Nat → List UInt8 → Prop) : Instr → List UInt8 → Prop where
  | call {target : Nat} {bytes : List UInt8} :
      form target bytes → Segment form (.call target) (callOpcode :: bytes)
  | raw {b : UInt8} {v : List UInt8} {op : Operator} :
      b ≠ callOpcode → Operator.Spells b v op → Segment form (.raw (b :: v)) (b :: v)

/-- A code entry spells the function: its runs of locals, counted, and then its instructions. -/
def Function.SpelledBy (form : Nat → List UInt8 → Prop) (f : Function) (entry : List UInt8) :
    Prop :=
  ∃ declarations operators, entry = declarations ++ operators ∧
    Counted form (LocalRun form) f.locals declarations ∧
    Pieces (Instr.Segment form) f.body operators

/-- Only calls have the opcode of calls. -/
theorem Operator.Spells.eq_call {v : List UInt8} {op : Operator}
    (h : Operator.Spells Instr.callOpcode v op) : ∃ target, op = .call target := by
  generalize hb : Instr.callOpcode = b at h
  cases h with
  | call => exact ⟨_, rfl⟩
  | load hshape =>
    have hrange := loadShape?_range hshape
    exact absurd (hb ▸ hrange) (by decide)
  | store hshape =>
    have hrange := storeShape?_range hshape
    exact absurd (hb ▸ hrange) (by decide)
  | numeric hsignature =>
    have hrange := numericSignature?_range hsignature
    exact absurd (hb ▸ hrange) (by decide)
  | _ => cases hb

theorem u32_form {v : List UInt8} {n : Nat} (h : Reads u32 v n) : Leb.Form 32 n v := by
  obtain ⟨form, hbytes, hform⟩ := u32_cuts (h.run 0)
  rw [List.append_nil] at hbytes
  rwa [← hbytes] at hform

theorem Instr.SpelledAs.segment {item : Operator × Instr} {bytes : List UInt8}
    (h : Instr.SpelledAs item bytes) : Instr.Segment (Leb.Form 32) item.2 bytes := by
  obtain ⟨b, v, rfl, hspells, hkept⟩ := h
  rw [hkept]
  -- a call is kept as its target, which is what its immediate is a form of
  by_cases hcall : ∃ target, item.1 = .call target
  · obtain ⟨target, htarget⟩ := hcall
    rw [htarget] at hspells ⊢
    cases hspells with
    | call hreads => exact .call (u32_form hreads)
  · rw [ofOperator_eq_raw fun target htarget => hcall ⟨target, htarget⟩]
    refine .raw (fun hopcode => ?_) hspells
    subst hopcode
    exact hcall hspells.eq_call

namespace Layout

/-! ## §3 Entries that are parsed -/

theorem localRun_cuts : Cuts localRun (LocalRun (Leb.Form 32)) := by
  intro s run s' hrun
  obtain ⟨count, t, hcount, hrun⟩ := bind_eq_ok.mp hrun
  obtain ⟨type, t', htype, hrun⟩ := bind_eq_ok.mp hrun
  obtain ⟨rfl, rfl⟩ := pure_eq_ok.mp hrun
  obtain ⟨form, hbytes, hform⟩ := u32_cuts hcount
  refine ⟨form ++ [Encode.valueType type], ?_, form, rfl, hform⟩
  rw [hbytes, valueType_bytes htype, List.append_assoc, List.singleton_append]

/-- A body that is parsed is spelled by its code entry, whatever its type. -/
theorem body_spelledBy {contents : List UInt8} {b : Body} {offset : Nat}
    (hrun : body.run ⟨contents, 0⟩ = .ok (b, ⟨[], offset⟩)) (type : Nat) :
    (b.toFunction type).SpelledBy (Leb.Form 32) contents := by
  obtain ⟨t, hlocals, hpieces⟩ := body_eq_ok hrun
  obtain ⟨declarations, hbytes, hdeclarations⟩ := vec_cuts localRun_cuts hlocals
  exact ⟨declarations, t.bytes, hbytes, hdeclarations, hpieces.map Instr.SpelledAs.segment⟩

/-- The contents of a section other than the code leave the bodies as they are. -/
theorem sectionContents_bodies {id : Nat} {l l' : Layout} {s s' : Input} (hid : id ≠ 10)
    (hrun : (sectionContents id l).run s = .ok (l', s')) : l'.bodies = l.bodies := by
  unfold sectionContents at hrun
  split at hrun
  case h_10 => exact absurd rfl hid
  case h_13 => simp at hrun
  all_goals
    obtain ⟨_, t, -, hrun⟩ := bind_eq_ok.mp hrun
    obtain ⟨rfl, rfl⟩ := pure_eq_ok.mp hrun
    rfl

theorem sectionContents_code {l l' : Layout} {s s' : Input}
    (hrun : (sectionContents 10 l).run s = .ok (l', s')) :
    (vec (sized body)).run s = .ok (l'.bodies, s') := by
  obtain ⟨bodies, t, hbodies, hrun⟩ := bind_eq_ok.mp hrun
  obtain ⟨rfl, rfl⟩ := pure_eq_ok.mp hrun
  exact hbodies

/-- Where the bodies come from when sections are parsed: from before, or from one code section. -/
def BodiesFrom (lastRank : Nat) (codes : List (List UInt8)) (l l' : Layout) : Prop :=
  (codes = [] ∧ l'.bodies = l.bodies) ∨
    lastRank < 11 ∧ ∃ contents offset, codes = [contents] ∧
      (vec (sized body)).run ⟨contents, 0⟩ = .ok (l'.bodies, ⟨[], offset⟩)

/-- Parsing takes sections apart, and the bodies are those of the only code section. -/
theorem sections_sectioned {fuel lastRank : Nat} {l l' : Layout} {s s' : Input}
    (hfuel : s.bytes.length ≤ fuel)
    (hrun : (sections fuel lastRank l).run s = .ok (l', s')) :
    ∃ codes, Sectioned s.bytes codes ∧ BodiesFrom lastRank codes l l' := by
  -- on the fuel, which outlasts the bytes; behind the code section its rank has been used
  induction fuel generalizing lastRank l s with
  | zero =>
    obtain ⟨rfl, rfl⟩ := pure_eq_ok.mp hrun
    rw [List.eq_nil_of_length_eq_zero (Nat.le_zero.mp hfuel)]
    exact ⟨[], .nil, .inl ⟨rfl, rfl⟩⟩
  | succ fuel ih =>
    obtain ⟨hend, rfl⟩ | ⟨id, contents, piece, rank, next, t, hbytes, hsized, hread, hrun⟩ :=
      sections_cases hrun
    · rw [hend]
      exact ⟨[], .nil, .inl ⟨rfl, rfl⟩⟩
    · rw [hbytes, List.length_cons, List.length_append] at hfuel
      obtain ⟨codes, hcodes, hbodies⟩ := ih (by omega) hrun
      rw [hbytes]
      cases hread with
      | custom => exact ⟨codes, .other (by decide) hsized hcodes, hbodies⟩
      | @listed _ _ _ offset _ hrank hlast hcontents =>
        by_cases hcode : id = 10
        · subst hcode
          obtain rfl : 11 = rank := Option.some.inj hrank
          -- a second code section would have to come behind its own rank
          obtain ⟨rfl, hsame⟩ | ⟨hlast', -⟩ := hbodies
          · refine ⟨[contents], .code hsized hcodes, .inr ⟨hlast, contents, offset, rfl, ?_⟩⟩
            rw [hsame]
            exact sectionContents_code hcontents
          · exact absurd hlast' (Nat.lt_irrefl 11)
        · have hid : id.toNat ≠ 10 := fun hten => hcode (UInt8.toNat_inj.mp hten)
          have hsame := sectionContents_bodies hid hcontents
          refine ⟨codes, .other hcode hsized hcodes, ?_⟩
          obtain ⟨rfl, hnone⟩ | ⟨hbefore, hsome⟩ := hbodies
          · exact .inl ⟨rfl, hnone.trans hsame⟩
          · exact .inr ⟨hlast.trans hbefore, hsome⟩

theorem header_bytes {s s' : Input} {u : Unit} (hrun : header.run s = .ok (u, s')) :
    s.bytes = Encode.header ++ s'.bytes := by
  obtain ⟨front, t, hfront, hrun⟩ := bind_eq_ok.mp hrun
  obtain ⟨hmark, rfl⟩ := require_eq_ok.mp hrun
  obtain ⟨hbytes, -⟩ := take_eq_ok.mp hfront
  rw [hbytes, beq_iff_eq.mp hmark, Encode.header]

/-- The bodies of a layout that is parsed are spelled by the code entries, in order. -/
theorem parse_codeEntries {wasm : List UInt8} {l : Layout} (h : parse wasm = .ok l) :
    ∃ entries, CodeEntries wasm entries ∧
      List.Forall₂ (fun b entry => ∀ type, (b.toFunction type).SpelledBy (Leb.Form 32) entry)
        l.bodies entries := by
  obtain ⟨t, s, hheader, hsections⟩ := parse_eq_ok.mp h
  have hwasm : wasm = Encode.header ++ t.bytes := header_bytes hheader
  have hfuel : t.bytes.length ≤ wasm.length := by
    rw [hwasm, List.length_append]
    omega
  obtain ⟨codes, hcodes, hbodies⟩ := sections_sectioned hfuel hsections
  obtain ⟨rfl, hnone⟩ | ⟨-, contents, offset, rfl, hvec⟩ := hbodies
  · refine ⟨[], ⟨t.bytes, [], hwasm, hcodes, .inl ⟨rfl, rfl⟩⟩, ?_⟩
    rw [hnone]
    exact .nil
  · obtain ⟨piece, hpiece, count, pieces, rfl, hcount, hpieces⟩ := vec_cuts sized_cuts hvec
    rw [List.append_nil] at hpiece
    have hsplit : ∃ entries, List.Forall₂
        (fun b entry => ∀ type, (b.toFunction type).SpelledBy (Leb.Form 32) entry)
        l.bodies entries ∧ Pieces Sized entries pieces :=
      hpieces.exists_forall₂ fun ⟨contents, _, hsized, hbody⟩ =>
        ⟨contents, body_spelledBy hbody, hsized⟩
    obtain ⟨entries, hentries, hsized⟩ := hsplit
    refine ⟨entries, ⟨t.bytes, _, hwasm, hcodes, .inr ⟨_, rfl, ?_⟩⟩, hentries⟩
    exact ⟨count, pieces, hpiece, hentries.length_eq ▸ hcount, hsized⟩

end Layout

/-! ## §4 Entries that are written -/

/-- The contents of the code entry that is written for a function. -/
def Function.entry (f : Function) : List UInt8 :=
  Encode.vec (fun (count, type) => Leb.unsigned count ++ [Encode.valueType type]) f.locals ++
    f.body.flatMap Instr.encode

theorem code_eq_sized (f : Function) : Encode.code f = Encode.sized f.entry :=
  rfl

theorem shortest_unsigned {n : Nat} {form : List UInt8} (h : Leb.Form 32 n form) :
    Leb.Shortest 32 n (Leb.unsigned n) :=
  (Leb.shortest_iff (by decide) h.fits).mpr rfl

/-- What spells a function is written again with its numbers in the shortest form. -/
theorem Function.SpelledBy.shortest {f : Function} {entry : List UInt8}
    (h : f.SpelledBy (Leb.Form 32) entry) : f.SpelledBy (Leb.Shortest 32) f.entry := by
  obtain ⟨declarations, operators, -, ⟨count, runs, -, hcount, hruns⟩, hsegments⟩ := h
  -- every number that is written was read, so it has 32 bits and a shortest form
  refine ⟨_, _, rfl, ⟨_, _, rfl, shortest_unsigned hcount, .of_encode ?_⟩, .of_encode ?_⟩
  · intro run hrun
    obtain ⟨piece, form, -, hform⟩ := hruns.exists_piece hrun
    exact ⟨_, rfl, shortest_unsigned hform⟩
  · intro i hi
    obtain ⟨segment, hsegment⟩ := hsegments.exists_piece hi
    cases hsegment with
    | call hform => exact .call (shortest_unsigned hform)
    | raw hother hspells => exact .raw hother hspells

theorem sized_encode {contents : List UInt8} (h : contents.length < 2 ^ 32) :
    Sized contents (Encode.sized contents) :=
  ⟨_, rfl, ((Leb.shortest_iff (by decide) h).mpr rfl).1⟩

namespace Sectioned

variable {α : Type} {id : UInt8} {rest : List UInt8} {codes : List (List UInt8)}

theorem cons {contents : List UInt8} (hid : id ≠ 10) (hfits : contents.length < 2 ^ 32)
    (hrest : Sectioned rest codes) : Sectioned (Encode.section_ id contents ++ rest) codes := by
  rw [Encode.section_, List.cons_append]
  exact .other hid (sized_encode hfits) hrest

/-- A section of any other list does not matter to the code sections. -/
theorem listing {p : Parser α} {β : Type} {stands : α → β → Prop} {encode : β → List UInt8}
    {as : List α} {bs : List β} (hid : id ≠ 10) (hp : Rewrites p stands encode)
    (has : Layout.Listed p as) (hstands : List.Forall₂ stands as bs)
    (hrest : Sectioned rest codes) : Sectioned (Encode.listing id encode bs ++ rest) codes := by
  unfold Encode.listing
  split_ifs
  · exact hrest
  · exact cons hid (has.length_vec_lt hp hstands) hrest

/-- The code section that is written lists the functions, if there are any. -/
theorem code_listing {fs : List Function} (hfits : (Encode.vec Encode.code fs).length < 2 ^ 32)
    (hrest : Sectioned rest []) :
    Sectioned (Encode.listing 10 Encode.code fs ++ rest)
      (if fs.isEmpty then [] else [Encode.vec Encode.code fs]) := by
  unfold Encode.listing
  split_ifs
  · exact hrest
  · rw [Encode.section_, List.cons_append]
    exact .code (sized_encode hfits) hrest

end Sectioned

namespace Layout

variable {l : Layout} {m : Module}

theorem Stands.code_fits (h : l.Stands m) (hparsed : l.Parsed) :
    (Encode.vec Encode.code m.functions).length < 2 ^ 32 :=
  hparsed.bodies.length_vec_lt code_rewrites h.bodies

/-- Of the sections that are written for a decoded module at most one is a code section. -/
theorem Stands.sectioned (h : l.Stands m) (hparsed : l.Parsed) :
    Sectioned (Encode.sections m)
      (if m.functions.isEmpty then [] else [Encode.vec Encode.code m.functions]) := by
  simp only [Encode.sections, List.append_assoc, h.types, h.imports, h.tables, h.memories,
    h.globals, h.exports, h.start]
  rw [← List.append_nil (Encode.listing 11 Encode.dataSegment m.data)]
  refine .listing (by decide) signature_rewrites hparsed.types (List.forall₂_refl _) ?_
  refine .listing (by decide) importEntry_rewrites hparsed.imports (List.forall₂_refl _) ?_
  refine .listing (by decide) functionType_rewrites hparsed.functionTypes h.functionTypes ?_
  refine .listing (by decide) table_rewrites hparsed.tables (List.forall₂_refl _) ?_
  refine .listing (by decide) limits_rewrites hparsed.memories (List.forall₂_refl _) ?_
  refine .listing (by decide) global_rewrites hparsed.globals (List.forall₂_refl _) ?_
  refine .listing (by decide) exportEntry_rewrites hparsed.exports (List.forall₂_refl _) ?_
  -- behind the start index, whether it is there or not, all is the same
  have hrest : Sectioned (Encode.listing 9 Encode.elementSegment m.elements ++
      (Encode.listing 10 Encode.code m.functions ++
        (Encode.listing 11 Encode.dataSegment m.data ++ [])))
      (if m.functions.isEmpty then [] else [Encode.vec Encode.code m.functions]) := by
    refine .listing (by decide) elementSegment_rewrites hparsed.elements h.elements ?_
    refine .code_listing (h.code_fits hparsed) ?_
    exact .listing (by decide) dataSegment_rewrites hparsed.data h.data .nil
  split
  · exact hrest
  · rename_i index hstart
    have hindex : index < 2 ^ 32 := hparsed.start index hstart
    have hlength := Leb.length_unsigned_le index
    exact .cons (by decide) (by omega) hrest

/-- The code entries of the binary form of a decoded module, one for each function. -/
theorem Stands.codeEntries (h : l.Stands m) (hparsed : l.Parsed) :
    CodeEntries m.encode (m.functions.map Function.entry) := by
  refine ⟨_, _, rfl, h.sectioned hparsed, ?_⟩
  have hfits := h.code_fits hparsed
  split_ifs with hnone
  · rw [List.isEmpty_iff.mp hnone]
    exact .inl ⟨rfl, rfl⟩
  · have hcount : m.functions.length < 2 ^ 32 := by
      rw [← h.bodies.length_eq]
      exact hparsed.bodies.length_lt
    -- each entry is part of the contents of the section, which fit, so its own length fits
    have hpieces : Pieces (fun f => Sized f.entry) m.functions
        (m.functions.flatMap Encode.code) := by
      refine .of_encode fun f hf => sized_encode ?_
      have hcode : Encode.code f ∈ m.functions.map Encode.code := List.mem_map_of_mem hf
      have hpart := (List.sublist_flatten_of_mem hcode).length_le
      rw [Encode.vec, List.length_append, List.flatMap_def] at hfits
      rw [code_eq_sized, Encode.sized, List.length_append] at hpart
      omega
    refine .inr ⟨_, rfl, _, _, rfl, ?_, hpieces.map id⟩
    rw [List.length_map]
    exact ((Leb.shortest_iff (by decide) hcount).mpr rfl).1

/-- Functions that are made of bodies are spelled by what spells the bodies. -/
theorem forall₂_toFunction {R : Function → List UInt8 → Prop} {types : List Nat}
    {bodies : List Body} {entries : List (List UInt8)} (hlength : types.length = bodies.length)
    (h : List.Forall₂ (fun b entry => ∀ type, R (b.toFunction type) entry) bodies entries) :
    List.Forall₂ R (types.zipWith Body.toFunction bodies) entries := by
  induction h generalizing types with
  | nil =>
    rw [List.zipWith_nil_right]
    exact .nil
  | cons hentry _ ih =>
    obtain ⟨type, types, rfl⟩ := List.exists_cons_of_length_eq_add_one hlength
    exact .cons (hentry type) (ih (Nat.succ.inj hlength))

end Layout

/-! ## §5 The split -/

theorem Instr.eq_end {i : Instr} (h : i.operator? = some .endBlock) : i = .raw [0x0B] := by
  cases i with
  | call target => cases h
  | raw bytes =>
    simp only [Instr.operator?] at h
    split at h
    · rename_i op rest hparse
      split_ifs at h with hempty
      cases h
      obtain ⟨b, v, hspells, hbytes, -⟩ := Operator.parse_eq_ok hparse
      rw [List.isEmpty_iff.mp hempty, List.append_nil] at hbytes
      cases hspells
      exact congrArg Instr.raw hbytes
    · cases h

/-- The last instruction of every body of a decoded module is its end. -/
theorem decode_ends {wasm : List UInt8} {m : Module} (h : Module.decode wasm = .ok m)
    {f : Function} (hf : f ∈ m.functions) : f.body.getLast? = some (.raw [0x0B]) := by
  obtain ⟨functions, htyped⟩ := decode_wellTyped h
  obtain ⟨s, -, hbody⟩ := htyped.bodies f hf
  obtain ⟨i, hlast, hmeaning⟩ := (Function.wellTyped_iff.mp hbody).ends (List.cons_ne_nil _ _)
  rw [hlast, i.eq_end hmeaning]

open Layout in
/-- Decoding takes every code entry apart into the runs of locals and the instructions of the
function at its place, without loss: a segment of the entry is kept as it is, except that a call is
kept as its target. Writing the module spells the same functions, with all numbers shortest. -/
theorem decode_splits {wasm : List UInt8} {m : Module} (h : Module.decode wasm = .ok m) :
    ∃ entries written,
      (∀ es, CodeEntries wasm es ↔ es = entries) ∧
      (∀ es, CodeEntries m.encode es ↔ es = written) ∧
      List.Forall₂ (Function.SpelledBy (Leb.Form 32)) m.functions entries ∧
      List.Forall₂ (Function.SpelledBy (Leb.Shortest 32)) m.functions written ∧
      ∀ f ∈ m.functions, f.body.getLast? = some (.raw [0x0B]) := by
  obtain ⟨l, functions, hparse, hvalid, hmodule⟩ := decode_eq_ok.mp h
  -- the entries that were read and those that are written, each told apart in one way only
  have hwritten := (hvalid.stands hmodule).codeEntries (parse_parsed hparse)
  obtain ⟨entries, hentries, hbodies⟩ := parse_codeEntries hparse
  have hspelled : List.Forall₂ (Function.SpelledBy (Leb.Form 32)) m.functions entries := by
    obtain ⟨elements, data, -, -, rfl⟩ := toModule_eq_ok.mp hmodule
    exact forall₂_toFunction hvalid.functionCount hbodies
  have hshortest : List.Forall₂ (Function.SpelledBy (Leb.Shortest 32)) m.functions
      (m.functions.map Function.entry) := by
    rw [List.forall₂_map_right_iff, List.forall₂_same]
    intro f hf
    obtain ⟨entry, -, hentry⟩ := exists_mem_right hspelled hf
    exact hentry.shortest
  refine ⟨entries, _, fun es => ⟨fun hes => hes.unique hentries, ?_⟩,
    fun es => ⟨fun hes => hes.unique hwritten, ?_⟩, hspelled, hshortest, fun f => decode_ends h⟩
  · rintro rfl
    exact hentries
  · rintro rfl
    exact hwritten

theorem decode_splits_spelledAtLength :
    Module.decode spelledAtLength = .ok ofSpelledAtLength ∧
      ∃ entries written,
        (∀ es, CodeEntries spelledAtLength es ↔ es = entries) ∧
        (∀ es, CodeEntries ofSpelledAtLength.encode es ↔ es = written) ∧
        List.Forall₂ (Function.SpelledBy (Leb.Form 32)) ofSpelledAtLength.functions entries ∧
        List.Forall₂ (Function.SpelledBy (Leb.Shortest 32)) ofSpelledAtLength.functions written ∧
        ∀ f ∈ ofSpelledAtLength.functions, f.body.getLast? = some (.raw [0x0B]) :=
  have hdecode : Module.decode spelledAtLength = .ok ofSpelledAtLength := by decide +kernel
  ⟨hdecode, decode_splits hdecode⟩

end MeteredWasm.Wasm
