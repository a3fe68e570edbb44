import MeteredWasm.Proofs.Wasm.Reading
import MeteredWasm.Wasm.Encode

/-!
# Parsers and their encoders

A parser *rewrites* to an encoder when each value that it accepts is also read from what the encoder
writes for it, and the encoder uses no more bytes than the parser did. The second part is what keeps
a section within the lengths that can be declared: the contents had room, so the shorter contents
have room as well.
-/

namespace MeteredWasm.Wasm

open MeteredWasm.Run

namespace Parser

variable {α β : Type}

/-! ## §1 Rewriting -/

/-- What is accepted as `a` may also be spelled as the encoding of any `b` that stands for `a`, in
no more bytes. -/
def Rewrites (p : Parser α) (stands : α → β → Prop) (encode : β → List UInt8) : Prop :=
  ∀ s a s' b, p.run s = .ok (a, s') → stands a b →
    Reads p (encode b) a ∧ (encode b).length + s'.bytes.length ≤ s.bytes.length

/-- A number is written in the shortest form. -/
theorem u32_rewrites : Rewrites u32 Eq Leb.unsigned := by
  rintro s n s' _ hrun rfl
  obtain ⟨used, hread, -⟩ := u32_eq_ok.mp hrun
  obtain ⟨hn, hlength⟩ := Leb.readUnsigned_bound hread
  obtain ⟨front, hbytes, rfl, -⟩ := Leb.readUnsigned_front hread
  refine ⟨u32_reads hn, ?_⟩
  rw [hbytes, List.length_append]
  omega

/-! ## §2 Repetition -/

/-- Items one after another, without an accumulator. -/
def items (p : Parser α) : (count : Nat) → Parser (List α)
  | 0 => pure []
  | count + 1 => do
    let a ← p
    let rest ← items p count
    return a :: rest

theorem repeatGo_eq_items (p : Parser α) (count : Nat) (acc : Array α) :
    repeatGo p count acc = (acc.toList ++ ·) <$> items p count := by
  induction count generalizing acc with
  | zero => simp [repeatGo, items]
  | succ count ih => simp [repeatGo, items, ih]

theorem vec_eq_items (p : Parser α) : vec p = u32 >>= items p := by
  simp [vec, repeatGo_eq_items]

theorem items_length {p : Parser α} {count : Nat} {s s' : Input} {as : List α}
    (hrun : (items p count).run s = .ok (as, s')) : as.length = count := by
  induction count generalizing s s' as with
  | zero =>
    obtain ⟨rfl, -⟩ := pure_eq_ok.mp hrun
    rfl
  | succ count ih =>
    simp only [items, bind_eq_ok, pure_eq_ok] at hrun
    obtain ⟨a, t, -, rest, u, hrest, rfl, -⟩ := hrun
    rw [List.length_cons, ih hrest]

theorem items_rewrites {p : Parser α} {stands : α → β → Prop} {encode : β → List UInt8}
    (hp : Rewrites p stands encode) (count : Nat) :
    Rewrites (items p count) (List.Forall₂ stands) (List.flatMap encode) := by
  induction count with
  | zero =>
    intro s as s' bs hrun hstands
    obtain ⟨rfl, rfl⟩ := pure_eq_ok.mp hrun
    cases hstands
    exact ⟨Reads.pure [], by simp⟩
  | succ count ih =>
    intro s as s' bs hrun hstands
    simp only [items, bind_eq_ok, pure_eq_ok] at hrun
    obtain ⟨a, t, ha, rest, u, hrest, rfl, rfl⟩ := hrun
    cases hstands with
    | cons hab hbs =>
      obtain ⟨hread, hlength⟩ := hp _ _ _ _ ha hab
      obtain ⟨hreads, hlengths⟩ := ih _ _ _ _ hrest hbs
      refine ⟨?_, ?_⟩
      · rw [List.flatMap_cons]
        exact hread.bind (hreads.bind_pure _)
      · rw [List.flatMap_cons, List.length_append]
        omega

/-- A list is rewritten item by item. -/
theorem vec_rewrites {p : Parser α} {stands : α → β → Prop} {encode : β → List UInt8}
    (hp : Rewrites p stands encode) :
    Rewrites (vec p) (List.Forall₂ stands) (Encode.vec encode) := by
  intro s as s' bs hrun hstands
  rw [vec_eq_items, bind_eq_ok] at hrun
  obtain ⟨count, t, hcount, hitems⟩ := hrun
  have hlength : bs.length = count := by rw [← hstands.length_eq, items_length hitems]
  subst hlength
  obtain ⟨hreadCount, hboundCount⟩ := u32_rewrites _ _ _ _ hcount rfl
  obtain ⟨hreads, hbound⟩ := items_rewrites hp _ _ _ _ _ hitems hstands
  refine ⟨?_, ?_⟩
  · rw [vec_eq_items]
    exact hreadCount.bind hreads
  · rw [Encode.vec, List.length_append]
    omega

/-! ## §3 Contents of a declared length -/

theorem sized_eq_ok {p : Parser α} {s s' : Input} {a : α} :
    (sized p).run s = .ok (a, s') ↔
      ∃ t contents offset, u32.run s = .ok (contents.length, t) ∧
        t.bytes = contents ++ s'.bytes ∧ s'.offset = t.offset + contents.length ∧
        p.run ⟨contents, 0⟩ = .ok (a, ⟨[], offset⟩) := by
  unfold sized
  simp only [bind_eq_ok, take_eq_ok]
  constructor
  · rintro ⟨length, t, hlength, contents, u, ⟨hbytes, rfl, hoffset⟩, hcontents⟩
    split at hcontents
    · simp at hcontents
    · rename_i b rest hp
      obtain ⟨bytes, offset⟩ := rest
      split_ifs at hcontents with hempty
      · obtain ⟨rfl, rfl⟩ := pure_eq_ok.mp hcontents
        obtain rfl : bytes = [] := by simpa using hempty
        exact ⟨t, contents, offset, hlength, hbytes, hoffset, hp⟩
      · simp at hcontents
  · rintro ⟨t, contents, offset, hlength, hbytes, hoffset, hp⟩
    refine ⟨contents.length, t, hlength, contents, s', ⟨hbytes, rfl, hoffset⟩, ?_⟩
    have hp' : p ⟨contents, 0⟩ = .ok (a, ⟨[], offset⟩) := hp
    rw [hp']
    rfl

/-- Contents that a parser uses up are read behind their length. -/
theorem sized_reads {p : Parser α} {contents : List UInt8} {a : α} {offset : Nat}
    (hp : p.run ⟨contents, 0⟩ = .ok (a, ⟨[], offset⟩)) (hlength : contents.length < 2 ^ 32) :
    Reads (sized p) (Encode.sized contents) a := by
  intro tail start
  rw [sized_eq_ok]
  refine ⟨⟨contents ++ tail, start + (Leb.unsigned contents.length).length⟩, contents, offset,
    ?_, rfl, ?_, hp⟩
  · rw [Encode.sized, List.append_assoc]
    exact u32_reads hlength _ _
  · rw [Encode.sized, List.length_append, Nat.add_assoc]

/-- Shorter contents are written in no more bytes, their length included. -/
theorem sized_length_le {contents contents' : List UInt8}
    (h : contents'.length ≤ contents.length) :
    (Encode.sized contents').length ≤
      (Leb.unsigned contents.length).length + contents.length := by
  have hlength := Leb.length_unsigned_mono h
  rw [Encode.sized, List.length_append]
  omega

/-- Contents of a declared length are rewritten if the contents are. -/
theorem sized_rewrites {p : Parser α} {stands : α → β → Prop} {encode : β → List UInt8}
    (hp : ∀ contents a offset b, p.run ⟨contents, 0⟩ = .ok (a, ⟨[], offset⟩) → stands a b →
      (∃ offset', p.run ⟨encode b, 0⟩ = .ok (a, ⟨[], offset'⟩)) ∧
        (encode b).length ≤ contents.length) :
    Rewrites (sized p) stands fun b => Encode.sized (encode b) := by
  intro s a s' b hrun hstands
  obtain ⟨t, contents, offset, hlength, hbytes, -, hcontents⟩ := sized_eq_ok.mp hrun
  obtain ⟨⟨offset', hreads⟩, hbound⟩ := hp _ _ _ _ hcontents hstands
  -- the contents fitted behind a length, so the shorter contents do
  obtain ⟨-, hprefix⟩ := u32_rewrites _ _ _ _ hlength rfl
  have hfits := u32_lt hlength
  refine ⟨sized_reads hreads (by omega), ?_⟩
  have hshort := sized_length_le hbound
  rw [hbytes, List.length_append] at hprefix
  show (Encode.sized (encode b)).length + _ ≤ _
  omega

/-! ## §4 Names and value types -/

/-- Bytes are the form of a text exactly when they are read as it. -/
theorem utf8_decode?_eq_some_iff {bytes : List UInt8} {text : String} :
    Text.Utf8.decode? bytes = some text ↔ Text.Utf8.encode text = bytes := by
  unfold Text.Utf8.decode? Text.Utf8.encode String.fromUTF8?
  constructor
  · intro h
    split_ifs at h with hvalid
    cases h
    show bytes.toByteArray.data.toList = bytes
    rw [List.data_toByteArray]
  · rintro rfl
    -- a text is valid by construction
    have hsame : text.toUTF8.data.toList.toByteArray = text.toUTF8 := by
      ext1
      rw [List.data_toByteArray, Array.toArray_toList]
    have hvalid : text.toUTF8.data.toList.toByteArray.IsValidUTF8 := by
      rw [hsame]
      exact text.isValidUTF8
    rw [dif_pos hvalid]
    exact congrArg some (String.toByteArray_inj.mp hsame)

/-- A name is rewritten with the length of its form in the shortest form. -/
theorem name_rewrites : Rewrites name Eq Encode.name := by
  rintro s text s' _ hrun rfl
  simp only [name, bind_eq_ok, require_eq_ok, take_eq_ok] at hrun
  obtain ⟨length, t, hlength, _, _, ⟨hmax, rfl⟩, bytes, u, ⟨hbytes, rfl, -⟩, htext⟩ := hrun
  cases hdecode : Text.Utf8.decode? bytes with
  | none => simp [hdecode] at htext
  | some text' =>
    simp only [hdecode, pure_eq_ok] at htext
    obtain ⟨rfl, rfl⟩ := htext
    obtain rfl := utf8_decode?_eq_some_iff.mp hdecode
    obtain ⟨hreadLength, hbound⟩ := u32_rewrites _ _ _ _ hlength rfl
    refine ⟨?_, ?_⟩
    · refine hreadLength.bind (Reads.require_bind hmax ?_)
      refine (take_reads (Text.Utf8.encode text')).bind_nil ?_
      rw [hdecode]
      exact Reads.pure text'
    · rw [Encode.name, Encode.sized, List.length_append]
      rw [hbytes, List.length_append] at hbound
      omega

theorem valueType_reads (t : ValueType) : Reads valueType [Encode.valueType t] t := by
  cases t <;> exact Reads.byte_bind (Reads.pure _)

/-- A value type has one form only. -/
theorem valueType_bytes {s s' : Input} {t : ValueType} (hrun : valueType.run s = .ok (t, s')) :
    s.bytes = Encode.valueType t :: s'.bytes := by
  simp only [valueType, bind_eq_ok, byte_eq_ok] at hrun
  obtain ⟨b, u, ⟨hbytes, -⟩, hmatch⟩ := hrun
  -- each byte of a type leads to that type, any other byte to a refusal
  split at hmatch <;> simp only [pure_eq_ok, fail_ne_ok] at hmatch
  all_goals
    rename_i hb
    obtain ⟨rfl, rfl⟩ := hmatch
    rw [hbytes]
    exact congrArg (· :: _) (UInt8.toNat_inj.mp hb)

theorem valueType_rewrites : Rewrites valueType Eq fun t => [Encode.valueType t] := by
  rintro s t s' _ hrun rfl
  refine ⟨valueType_reads t, ?_⟩
  rw [valueType_bytes hrun]
  simp [Nat.add_comm]

end Parser

end MeteredWasm.Wasm
