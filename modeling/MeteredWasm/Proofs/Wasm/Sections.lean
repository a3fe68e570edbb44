import MeteredWasm.Proofs.Wasm.Bodies

/-!
# Sections

What parsing the sections leaves in a layout, and how the sections that the encoder writes are
parsed: each puts its list into the layout, and a section that was left out stood for an empty list.
-/

namespace MeteredWasm.Wasm

open MeteredWasm.Run MeteredWasm.Wasm.Parser

namespace Layout

variable {α β : Type}

/-! ## §1 What was parsed -/

/-- A list that is empty or was the contents of a section. -/
def Listed (p : Parser α) (as : List α) : Prop :=
  as = [] ∨ ∃ contents offset, contents.length < 2 ^ 32 ∧
    (vec p).run ⟨contents, 0⟩ = .ok (as, ⟨[], offset⟩)

section Listed

variable {p : Parser α} {stands : α → β → Prop} {encode : β → List UInt8} {as : List α}
  {bs : List β}

theorem Listed.length_lt (h : Listed p as) : as.length < 2 ^ 32 := by
  rcases h with rfl | ⟨contents, offset, -, hrun⟩
  · exact Nat.two_pow_pos 32
  · rw [vec_eq_items] at hrun
    obtain ⟨count, t, hcount, hitems⟩ := bind_eq_ok.mp hrun
    rw [items_length hitems]
    exact u32_lt hcount

theorem length_vec_nil (encode : β → List UInt8) : (Encode.vec encode []).length ≤ 1 := by
  rw [Encode.vec, List.flatMap_nil, List.append_nil]
  exact Leb.length_unsigned_le 0

/-- What stands for a list that was in a section fits into one as it is written. -/
theorem Listed.length_vec_lt (h : Listed p as) (hp : Rewrites p stands encode)
    (hstands : List.Forall₂ stands as bs) : (Encode.vec encode bs).length < 2 ^ 32 := by
  rcases h with rfl | ⟨contents, offset, hlength, hrun⟩
  · cases hstands
    exact Nat.lt_of_le_of_lt (length_vec_nil encode) (by decide)
  · obtain ⟨-, hbound⟩ := vec_rewrites hp _ _ _ _ hrun hstands
    exact Nat.lt_of_le_of_lt (Nat.le_of_add_right_le hbound) hlength

end Listed

/-- Every list of the layout was the contents of a section, if it is not empty. -/
structure Parsed (l : Layout) : Prop where
  types : Listed signature l.types
  imports : Listed importEntry l.imports
  functionTypes : Listed u32 l.functionTypes
  tables : Listed table l.tables
  memories : Listed limits l.memories
  globals : Listed global l.globals
  exports : Listed exportEntry l.exports
  start : ∀ index, l.start = some index → index < 2 ^ 32
  elements : Listed elementSegment l.elements
  bodies : Listed (sized body) l.bodies
  data : Listed dataSegment l.data

theorem parsed_default : Parsed default where
  types := .inl rfl
  imports := .inl rfl
  functionTypes := .inl rfl
  tables := .inl rfl
  memories := .inl rfl
  globals := .inl rfl
  exports := .inl rfl
  start := by simp [default]
  elements := .inl rfl
  bodies := .inl rfl
  data := .inl rfl

/-- The contents of a section replace one part of the layout. -/
theorem sectionContents_parsed {id : Nat} {l l' : Layout} {contents : List UInt8} {offset : Nat}
    (hl : l.Parsed) (hlength : contents.length < 2 ^ 32)
    (hrun : (sectionContents id l).run ⟨contents, 0⟩ = .ok (l', ⟨[], offset⟩)) : l'.Parsed := by
  unfold sectionContents at hrun
  split at hrun
  case h_13 => simp at hrun
  case h_8 =>
    obtain ⟨start, t, hstart, hrun⟩ := bind_eq_ok.mp hrun
    obtain ⟨rfl, rfl⟩ := pure_eq_ok.mp hrun
    have hbound : ∀ index, some start = some index → index < 2 ^ 32 := by
      intro index hindex
      cases hindex
      exact u32_lt hstart
    exact { hl with start := hbound }
  case h_12 =>
    obtain ⟨count, t, -, hrun⟩ := bind_eq_ok.mp hrun
    obtain ⟨rfl, rfl⟩ := pure_eq_ok.mp hrun
    exact { hl with }
  all_goals
    obtain ⟨as, t, has, hrun⟩ := bind_eq_ok.mp hrun
    obtain ⟨rfl, rfl⟩ := pure_eq_ok.mp hrun
  case h_1 => exact { hl with types := .inr ⟨contents, offset, hlength, has⟩ }
  case h_2 => exact { hl with imports := .inr ⟨contents, offset, hlength, has⟩ }
  case h_3 => exact { hl with functionTypes := .inr ⟨contents, offset, hlength, has⟩ }
  case h_4 => exact { hl with tables := .inr ⟨contents, offset, hlength, has⟩ }
  case h_5 => exact { hl with memories := .inr ⟨contents, offset, hlength, has⟩ }
  case h_6 => exact { hl with globals := .inr ⟨contents, offset, hlength, has⟩ }
  case h_7 => exact { hl with exports := .inr ⟨contents, offset, hlength, has⟩ }
  case h_9 => exact { hl with elements := .inr ⟨contents, offset, hlength, has⟩ }
  case h_10 => exact { hl with bodies := .inr ⟨contents, offset, hlength, has⟩ }
  case h_11 => exact { hl with data := .inr ⟨contents, offset, hlength, has⟩ }

/-- What a section does to the layout. A custom one does nothing; any other has a higher rank than
those before it, and its contents are put into the layout. -/
inductive SectionRead (lastRank : Nat) (l : Layout) : UInt8 → List UInt8 → Nat → Layout → Prop where
  | custom {contents : List UInt8} : SectionRead lastRank l 0 contents lastRank l
  | listed {id : UInt8} {contents : List UInt8} {rank offset : Nat} {next : Layout} :
      rank? id.toNat = some rank → lastRank < rank →
      (sectionContents id.toNat l).run ⟨contents, 0⟩ = .ok (next, ⟨[], offset⟩) →
      SectionRead lastRank l id contents rank next

/-- Sections are at their end, or there is one more and they go on behind it. -/
theorem sections_cases {fuel lastRank : Nat} {l l' : Layout} {s s' : Input}
    (hrun : (sections (fuel + 1) lastRank l).run s = .ok (l', s')) :
    (s.bytes = [] ∧ l' = l) ∨
      ∃ id contents piece rank next t, s.bytes = id :: (piece ++ t.bytes) ∧
        Sized contents piece ∧ SectionRead lastRank l id contents rank next ∧
        (sections fuel rank next).run t = .ok (l', s') := by
  obtain ⟨_, t, hget, hrun⟩ := bind_eq_ok.mp hrun
  obtain ⟨rfl, rfl⟩ := get_eq_ok.mp hget
  split_ifs at hrun with hempty
  · obtain ⟨rfl, rfl⟩ := pure_eq_ok.mp hrun
    exact .inl ⟨List.isEmpty_iff.mp hempty, rfl⟩
  · obtain ⟨id, t, hid, hrun⟩ := bind_eq_ok.mp hrun
    obtain ⟨hbytes, -⟩ := byte_eq_ok.mp hid
    dsimp only at hrun
    right
    split_ifs at hrun with hcustom
    · obtain rfl : id = 0 := UInt8.toNat_inj.mp hcustom
      obtain ⟨_, t', hsection, hrun⟩ := bind_eq_ok.mp hrun
      obtain ⟨piece, hpiece, contents, -, hsized, -⟩ := sized_cuts hsection
      exact ⟨0, contents, piece, lastRank, l, t', hpiece ▸ hbytes, hsized, .custom, hrun⟩
    · split at hrun
      · simp at hrun
      · rename_i rank hrank
        obtain ⟨_, t', hrequire, hrun⟩ := bind_eq_ok.mp hrun
        obtain ⟨hlast, rfl⟩ := require_eq_ok.mp hrequire
        obtain ⟨next, u, hsection, hrun⟩ := bind_eq_ok.mp hrun
        obtain ⟨piece, hpiece, contents, offset, hsized, hcontents⟩ := sized_cuts hsection
        exact ⟨id, contents, piece, rank, next, u, hpiece ▸ hbytes, hsized,
          .listed hrank (of_decide_eq_true hlast) hcontents, hrun⟩

theorem sections_parsed {fuel lastRank : Nat} {l l' : Layout} {s s' : Input} (hl : l.Parsed)
    (hrun : (sections fuel lastRank l).run s = .ok (l', s')) : l'.Parsed := by
  -- whatever the order of the sections, each replaces one list by the contents of a section
  induction fuel generalizing lastRank l s with
  | zero =>
    obtain ⟨rfl, -⟩ := pure_eq_ok.mp hrun
    exact hl
  | succ fuel ih =>
    obtain ⟨-, rfl⟩ | ⟨id, contents, piece, rank, next, t, -, hsized, hread, hrun⟩ :=
      sections_cases hrun
    · exact hl
    · cases hread with
      | custom => exact ih hl hrun
      | listed hrank hlast hcontents =>
        exact ih (sectionContents_parsed hl hsized.length_lt hcontents) hrun

theorem parse_eq_ok {wasm : List UInt8} {l : Layout} :
    parse wasm = .ok l ↔
      ∃ t s, header.run ⟨wasm, 0⟩ = .ok ((), t) ∧
        (sections wasm.length 0 default).run t = .ok (l, s) := by
  have hparse : parse wasm = .ok l ↔
      ∃ s, (header >>= fun _ => sections wasm.length 0 default).run ⟨wasm, 0⟩ = .ok (l, s) := by
    unfold parse StateT.run
    dsimp only
    split
    · rename_i l' s hrun
      rw [hrun]
      simp
    · rename_i cause hrun
      rw [hrun]
      simp
  rw [hparse]
  simp only [bind_eq_ok]
  constructor
  · rintro ⟨s, _, t, hheader, hsections⟩
    exact ⟨t, s, hheader, hsections⟩
  · rintro ⟨t, s, hheader, hsections⟩
    exact ⟨s, (), t, hheader, hsections⟩

/-- Every layout that is parsed has lists that stood in sections. -/
theorem parse_parsed {wasm : List UInt8} {l : Layout} (h : parse wasm = .ok l) : l.Parsed := by
  obtain ⟨t, s, -, hsections⟩ := parse_eq_ok.mp h
  exact sections_parsed parsed_default hsections

/-! ## §2 Sections that are written -/

/-- The sections that are left, when all ranks up to a bound may have been used, complete the layout
to the given one. -/
def Completes (bound : Nat) (l : Layout) (bytes : List UInt8) (result : Layout) : Prop :=
  ∀ lastRank fuel offset, lastRank ≤ bound → bytes.length ≤ fuel →
    ∃ offset', (sections fuel lastRank l).run ⟨bytes, offset⟩ = .ok (result, ⟨[], offset'⟩)

namespace Completes

theorem nil (bound : Nat) (l : Layout) : Completes bound l [] l := by
  intro lastRank fuel offset _ _
  cases fuel with
  | zero => exact ⟨offset, rfl⟩
  | succ fuel => exact ⟨offset, rfl⟩

/-- A section that is not there leaves its rank unused. -/
theorem skip {bound : Nat} {l result : Layout} {bytes : List UInt8}
    (h : Completes (bound + 1) l bytes result) : Completes bound l bytes result :=
  fun lastRank fuel offset hlast hfuel => h lastRank fuel offset (by omega) hfuel

/-- The next section changes the layout, the rest completes it. -/
theorem cons {bound : Nat} {l l' result : Layout} {id : UInt8} {contents rest : List UInt8}
    (hrank : rank? id.toNat = some (bound + 1))
    (hcontents : Reads (sized (sectionContents id.toNat l)) (Encode.sized contents) l')
    (hrest : Completes (bound + 1) l' rest result) :
    Completes bound l (Encode.section_ id contents ++ rest) result := by
  intro lastRank fuel offset hlast hfuel
  have hlength : (Encode.section_ id contents ++ rest).length =
      (Encode.sized contents).length + rest.length + 1 := by
    rw [Encode.section_, List.cons_append, List.length_cons, List.length_append]
  rw [hlength] at hfuel
  cases fuel with
  | zero => omega
  | succ fuel =>
    obtain ⟨offset', hrun⟩ := hrest (bound + 1) fuel
      (offset + 1 + (Encode.sized contents).length) le_rfl (by omega)
    have hid : id.toNat ≠ 0 := by
      intro hzero
      rw [hzero] at hrank
      cases hrank
    refine ⟨offset', ?_⟩
    refine bind_eq_ok.mpr ⟨_, _, get_eq_ok.mpr ⟨rfl, rfl⟩, ?_⟩
    refine bind_eq_ok.mpr ⟨id, ⟨Encode.sized contents ++ rest, offset + 1⟩, rfl, ?_⟩
    dsimp only
    rw [if_neg hid, hrank]
    refine bind_eq_ok.mpr ⟨(), _, require_eq_ok.mpr ⟨?_, rfl⟩, ?_⟩
    · rw [decide_eq_true_eq]
      omega
    · exact bind_eq_ok.mpr ⟨l', _, hcontents _ _, hrun⟩

/-- A list is put into the layout by its section, which is left out when the list is empty. -/
theorem listing {bound : Nat} {l result : Layout} {id : UInt8} {rest : List UInt8}
    {p : Parser α} {put : List α → Layout} {stands : α → β → Prop} {encode : β → List UInt8}
    {as : List α} {bs : List β} (hrank : rank? id.toNat = some (bound + 1))
    (hput : sectionContents id.toNat l = vec p >>= fun as => pure (put as)) (hempty : put [] = l)
    (hp : Rewrites p stands encode) (has : Listed p as) (hstands : List.Forall₂ stands as bs)
    (hrest : Completes (bound + 1) (put as) rest result) :
    Completes bound l (Encode.listing id encode bs ++ rest) result := by
  rw [Encode.listing]
  -- without a section the list stays as it is in the default layout, empty
  split_ifs with hnone
  · obtain rfl : bs = [] := List.isEmpty_iff.mp hnone
    cases hstands
    rw [hempty] at hrest
    exact hrest.skip
  · have hfits := has.length_vec_lt hp hstands
    rcases has with rfl | ⟨contents, offset, -, hrun⟩
    · cases hstands
      exact absurd rfl hnone
    · obtain ⟨hreads, -⟩ := vec_rewrites hp _ _ _ _ hrun hstands
      refine cons hrank ?_ hrest
      rw [hput]
      exact sized_reads ((hreads.bind_pure put).run 0) hfits

end Completes

end Layout

end MeteredWasm.Wasm
