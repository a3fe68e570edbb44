import MeteredWasm.Proofs.Wasm.Entries
import MeteredWasm.Proofs.Wasm.Pieces

/-!
# Function bodies

A body is its locals and then instructions up to the last byte. The instructions take the bytes of
a body apart into one segment for each item, and the body is read from the encodings of its items,
which are no longer than the segments.
-/

namespace MeteredWasm.Wasm

open MeteredWasm.Run MeteredWasm.Wasm.Parser

/-- Each item stands with its meaning. -/
def Body.Spelled (b : Body) : Prop :=
  ∀ item ∈ b.code, item.2.Spelled item.1

/-! ## §1 Items and their segments -/

namespace Instr

/-- The segment spells an instruction, and the item is what is kept of it. -/
def SpelledAs (item : Operator × Instr) (segment : List UInt8) : Prop :=
  ∃ b v, segment = b :: v ∧ Operator.Spells b v item.1 ∧ item.2 = ofOperator item.1 (b :: v)

variable {item : Operator × Instr} {segment : List UInt8}

theorem SpelledAs.spelled (h : SpelledAs item segment) : item.2.Spelled item.1 := by
  obtain ⟨b, v, -, hspells, hkept⟩ := h
  exact ⟨b, v, hspells, hkept⟩

theorem SpelledAs.ne_nil (h : SpelledAs item segment) : segment ≠ [] := by
  obtain ⟨b, v, rfl, -⟩ := h
  exact List.cons_ne_nil b v

/-- Only the target of a call may be written in fewer bytes than it was spelled with. -/
theorem SpelledAs.length_encode_le (h : SpelledAs item segment) :
    item.2.encode.length ≤ segment.length := by
  obtain ⟨b, v, rfl, hspells, hkept⟩ := h
  rw [hkept]
  exact encode_length_le hspells

theorem parse_cuts : Cuts parse SpelledAs := by
  intro s item s' hrun
  obtain ⟨b, v, hspells, hkept, hbytes, -⟩ := parse_eq_ok hrun
  exact ⟨b :: v, hbytes, b, v, rfl, hspells, hkept⟩

end Instr

theorem Body.Spelled.of_pieces {b : Body} {bytes : List UInt8}
    (h : Pieces Instr.SpelledAs b.code bytes) : b.Spelled := by
  intro item hitem
  obtain ⟨segment, hsegment⟩ := h.exists_piece hitem
  exact hsegment.spelled

namespace Layout

/-- Instructions take all bytes apart into the segments of their items. -/
theorem instructions_pieces {fuel : Nat} {acc : Array (Operator × Instr)} {s s' : Input}
    {code : List (Operator × Instr)} (hfuel : s.bytes.length ≤ fuel)
    (hrun : (instructions fuel acc).run s = .ok (code, s')) :
    ∃ items, code = acc.toList ++ items ∧ Pieces Instr.SpelledAs items s.bytes := by
  -- on the fuel; each item takes at least one byte, so the fuel outlasts the bytes
  induction fuel generalizing acc s with
  | zero =>
    obtain ⟨rfl, rfl⟩ := pure_eq_ok.mp hrun
    rw [List.eq_nil_of_length_eq_zero (Nat.le_zero.mp hfuel)]
    exact ⟨[], (List.append_nil _).symm, .nil⟩
  | succ fuel ih =>
    obtain ⟨_, t, hget, hrun⟩ := bind_eq_ok.mp hrun
    obtain ⟨rfl, rfl⟩ := get_eq_ok.mp hget
    split_ifs at hrun with hempty
    · obtain ⟨rfl, rfl⟩ := pure_eq_ok.mp hrun
      rw [List.isEmpty_iff.mp hempty]
      exact ⟨[], (List.append_nil _).symm, .nil⟩
    · obtain ⟨item, t, hitem, hrun⟩ := bind_eq_ok.mp hrun
      obtain ⟨segment, hbytes, hsegment⟩ := Instr.parse_cuts hitem
      have hpos := List.length_pos_iff.mpr hsegment.ne_nil
      rw [hbytes, List.length_append] at hfuel
      obtain ⟨items, hcode, hitems⟩ := ih (by omega) hrun
      refine ⟨item :: items, ?_, hbytes ▸ .cons hsegment hitems⟩
      rw [hcode, Array.toList_push, List.append_assoc, List.singleton_append]

/-- Items are parsed again from their encodings. -/
theorem instructions_reads {fuel : Nat} {acc : Array (Operator × Instr)}
    {items : List (Operator × Instr)} {offset : Nat}
    (hitems : ∀ item ∈ items, item.2.Spelled item.1)
    (hfuel : (items.flatMap fun item => item.2.encode).length ≤ fuel) :
    ∃ offset', (instructions fuel acc).run ⟨items.flatMap fun item => item.2.encode, offset⟩ =
      .ok (acc.toList ++ items, ⟨[], offset'⟩) := by
  -- on the items, each of which is read from its own encoding
  induction items generalizing fuel acc offset with
  | nil =>
    rw [List.append_nil]
    cases fuel with
    | zero => exact ⟨offset, rfl⟩
    | succ fuel => exact ⟨offset, rfl⟩
  | cons item items ih =>
    have hitem : item.2.Spelled item.1 := hitems item List.mem_cons_self
    have hreads := hitem.encode_reads
    have hpos : 0 < item.2.encode.length := by
      rw [List.length_pos_iff]
      intro hempty
      -- an item that took no bytes would be parsed from nothing
      have hrun := hreads [] 0
      rw [hempty] at hrun
      obtain ⟨b, v, -, -, hbytes, -⟩ := Instr.parse_eq_ok hrun
      cases hbytes
    rw [List.flatMap_cons, List.length_append] at hfuel
    cases fuel with
    | zero => omega
    | succ fuel =>
      have hrest : (items.flatMap fun item => item.2.encode).length ≤ fuel := by omega
      have hspelled : ∀ item ∈ items, item.2.Spelled item.1 :=
        fun item' hmem => hitems item' (List.mem_cons_of_mem _ hmem)
      obtain ⟨offset', hrun⟩ := @ih fuel (acc.push item) _ hspelled hrest
      refine ⟨offset', ?_⟩
      rw [List.flatMap_cons]
      refine bind_eq_ok.mpr ⟨_, _, get_eq_ok.mpr ⟨rfl, rfl⟩, ?_⟩
      rw [if_neg]
      · refine bind_eq_ok.mpr ⟨item, _, hreads _ _, ?_⟩
        rw [hrun, Array.toList_push, List.append_assoc, List.singleton_append]
      · simp only [List.isEmpty_iff, List.append_eq_nil_iff, not_and]
        intro hempty
        simp [hempty] at hpos

/-! ## §2 Bodies -/

/-- A run of locals: how many there are and their type. -/
def localRun : Parser (Nat × ValueType) := do
  let count ← u32
  return (count, ← valueType)

/-- A run of locals is written with its count in the shortest form. -/
theorem localRun_rewrites :
    Rewrites localRun Eq fun (count, type) => Leb.unsigned count ++ [Encode.valueType type] := by
  intro s run s' run' hrun heq
  cases heq
  obtain ⟨count, t, hcount, hrun⟩ := bind_eq_ok.mp hrun
  obtain ⟨type, t', htype, hrun⟩ := bind_eq_ok.mp hrun
  obtain ⟨rfl, rfl⟩ := pure_eq_ok.mp hrun
  obtain ⟨hreads, hbound⟩ := u32_rewrites _ _ _ _ hcount rfl
  obtain ⟨hreads', hbound'⟩ := valueType_rewrites _ _ _ _ htype rfl
  refine ⟨hreads.bind (hreads'.bind_pure _), ?_⟩
  simp only [List.length_append] at hbound' ⊢
  omega

/-- A body takes all bytes: its locals, and then its items. -/
theorem body_eq_ok {s s' : Input} {b : Body} (hrun : body.run s = .ok (b, s')) :
    ∃ t, (vec localRun).run s = .ok (b.locals, t) ∧
      Pieces Instr.SpelledAs b.code t.bytes := by
  obtain ⟨locals, t, hlocals, hrun⟩ := bind_eq_ok.mp hrun
  obtain ⟨_, t', hget, hrun⟩ := bind_eq_ok.mp hrun
  obtain ⟨rfl, rfl⟩ := get_eq_ok.mp hget
  obtain ⟨code, t'', hcode, hrun⟩ := bind_eq_ok.mp hrun
  obtain ⟨rfl, rfl⟩ := pure_eq_ok.mp hrun
  obtain ⟨items, rfl, hpieces⟩ := instructions_pieces le_rfl hcode
  exact ⟨_, hlocals, hpieces⟩

/-- What is known of the items of a body when only its declared length was read. -/
theorem sized_body_spelled {s s' : Input} {b : Body} (hrun : (sized body).run s = .ok (b, s')) :
    b.Spelled ∧ b.code.length < 2 ^ 32 := by
  obtain ⟨t, contents, offset, hlength, -, -, hcontents⟩ := sized_eq_ok.mp hrun
  obtain ⟨t', hlocals, hpieces⟩ := body_eq_ok hcontents
  obtain ⟨-, hbound⟩ := vec_rewrites_self localRun_rewrites _ _ _ _ hlocals rfl
  have hcount := hpieces.length_le Instr.SpelledAs.ne_nil
  have hfits := u32_lt hlength
  refine ⟨.of_pieces hpieces, ?_⟩
  simp only at hbound
  omega

/-- The locals and the items of a body are written again as they are. -/
theorem code_rewrites :
    Rewrites (sized body) (fun b f => f.locals = b.locals ∧ f.body = b.code.map Prod.snd)
      Encode.code := by
  apply sized_rewrites
  intro contents b offset f hrun hstands
  obtain ⟨hlocals, hbody⟩ := hstands
  obtain ⟨t, hruns, hpieces⟩ := body_eq_ok hrun
  have hspelled := Body.Spelled.of_pieces hpieces
  have hencodings := hpieces.length_flatMap_le Instr.SpelledAs.length_encode_le
  obtain ⟨hreads, hbound⟩ := vec_rewrites_self localRun_rewrites _ _ _ _ hruns rfl
  have hitems : f.body.flatMap Instr.encode = b.code.flatMap fun item => item.2.encode := by
    rw [hbody, List.flatMap_map]
  rw [hlocals, hitems]
  refine ⟨?_, ?_⟩
  · obtain ⟨offset', hcode⟩ := @instructions_reads _ #[] b.code _ hspelled le_rfl
    refine ⟨offset', ?_⟩
    refine bind_eq_ok.mpr ⟨b.locals, _, hreads _ _, ?_⟩
    refine bind_eq_ok.mpr ⟨_, _, get_eq_ok.mpr ⟨rfl, rfl⟩, ?_⟩
    exact bind_eq_ok.mpr ⟨b.code, _, hcode, rfl⟩
  · simp only [List.length_append] at hbound ⊢
    omega

end Layout

end MeteredWasm.Wasm
