import MeteredWasm.Proofs.Wasm.Rewriting

/-!
# Bytes in pieces

Bytes that are made of one piece for each item of a list. If no piece is the start of another, such
bytes can be taken apart in one way only, once the items are counted. A parser of items that cuts
off one piece each time takes its input apart in that way.

* `Pieces`, `Counted`, `Sized`: how lists and contents are laid out;
* `Unambiguous`: when there is one way only;
* `Parser.Cuts`: what a parser takes from its input.
-/

namespace MeteredWasm.Wasm

open MeteredWasm.Run

variable {α β : Type} {item : α → List UInt8 → Prop} {item' : β → List UInt8 → Prop}
  {as : List α} {bytes : List UInt8}

/-! ## §1 Pieces -/

/-- The bytes are one piece for each item, in order. -/
inductive Pieces (item : α → List UInt8 → Prop) : List α → List UInt8 → Prop where
  | nil : Pieces item [] []
  | cons {a : α} {as : List α} {piece rest : List UInt8} :
      item a piece → Pieces item as rest → Pieces item (a :: as) (piece ++ rest)

/-- A count, in a form of the given kind, and as many pieces. -/
def Counted (form : Nat → List UInt8 → Prop) (item : α → List UInt8 → Prop) (as : List α)
    (bytes : List UInt8) : Prop :=
  ∃ count pieces, bytes = count ++ pieces ∧ form as.length count ∧ Pieces item as pieces

/-- Contents behind their length. -/
def Sized (contents bytes : List UInt8) : Prop :=
  ∃ length, bytes = length ++ contents ∧ Leb.Form 32 contents.length length

theorem Sized.length_lt {contents : List UInt8} (h : Sized contents bytes) :
    contents.length < 2 ^ 32 := by
  obtain ⟨length, -, hlength⟩ := h
  exact hlength.fits

theorem Sized.length_le {contents : List UInt8} (h : Sized contents bytes) :
    contents.length ≤ bytes.length := by
  obtain ⟨length, rfl, -⟩ := h
  rw [List.length_append]
  exact Nat.le_add_left _ _

namespace Pieces

/-- Items may be replaced by others that the same pieces stand for. -/
theorem exists_forall₂ {R : α → β → Prop} (h : Pieces item as bytes)
    (hitem : ∀ {a piece}, item a piece → ∃ b, R a b ∧ item' b piece) :
    ∃ bs, List.Forall₂ R as bs ∧ Pieces item' bs bytes := by
  induction h with
  | nil => exact ⟨[], .nil, .nil⟩
  | cons hpiece _ ih =>
    obtain ⟨b, hb, hpiece'⟩ := hitem hpiece
    obtain ⟨bs, hbs, hpieces⟩ := ih
    exact ⟨b :: bs, .cons hb hbs, .cons hpiece' hpieces⟩

theorem map {f : α → β} (h : Pieces item as bytes)
    (hitem : ∀ {a piece}, item a piece → item' (f a) piece) : Pieces item' (as.map f) bytes := by
  induction h with
  | nil => exact .nil
  | cons hpiece _ ih => exact .cons (hitem hpiece) ih

theorem of_encode {encode : α → List UInt8} (h : ∀ a ∈ as, item a (encode a)) :
    Pieces item as (as.flatMap encode) := by
  induction as with
  | nil => exact .nil
  | cons a as ih =>
    rw [List.flatMap_cons]
    exact .cons (h a List.mem_cons_self) (ih fun b hb => h b (List.mem_cons_of_mem a hb))

/-- Every item has its piece. -/
theorem exists_piece (h : Pieces item as bytes) {a : α} (ha : a ∈ as) : ∃ piece, item a piece := by
  induction h with
  | nil => cases ha
  | cons hpiece _ ih =>
    rcases List.mem_cons.mp ha with rfl | hmem
    · exact ⟨_, hpiece⟩
    · exact ih hmem

/-- If no item is encoded in more bytes than its piece, no list of items is. -/
theorem length_flatMap_le {encode : α → List UInt8} (h : Pieces item as bytes)
    (hitem : ∀ {a piece}, item a piece → (encode a).length ≤ piece.length) :
    (as.flatMap encode).length ≤ bytes.length := by
  induction h with
  | nil => simp
  | cons hpiece _ ih =>
    have hfirst := hitem hpiece
    rw [List.flatMap_cons, List.length_append, List.length_append]
    omega

/-- There are no more items than bytes, if no piece is empty. -/
theorem length_le (h : Pieces item as bytes) (hitem : ∀ {a piece}, item a piece → piece ≠ []) :
    as.length ≤ bytes.length := by
  induction h with
  | nil => simp
  | cons hpiece _ ih =>
    have hfirst := List.length_pos_iff.mpr (hitem hpiece)
    rw [List.length_cons, List.length_append]
    omega

end Pieces

/-! ## §2 One way to take bytes apart -/

/-- No two pieces start the same bytes, nor is one piece that of two items. -/
def Unambiguous (item : α → List UInt8 → Prop) : Prop :=
  ∀ {a a' : α} {piece piece' rest rest' : List UInt8}, item a piece → item a' piece' →
    piece ++ rest = piece' ++ rest' → a = a' ∧ rest = rest'

theorem form_unambiguous : Unambiguous (Leb.Form 32) := by
  intro n n' form form' rest rest' h h' heq
  have hread := h.readUnsigned rest
  rw [heq, h'.readUnsigned rest'] at hread
  simp only [Except.ok.injEq, Prod.mk.injEq] at hread
  exact ⟨hread.1.symm, hread.2.2.symm⟩

theorem sized_unambiguous : Unambiguous Sized := by
  rintro contents contents' _ _ rest rest' ⟨length, rfl, hlength⟩ ⟨length', rfl, hlength'⟩ heq
  rw [List.append_assoc, List.append_assoc] at heq
  obtain ⟨hsame, hrest⟩ := form_unambiguous hlength hlength' heq
  exact List.append_inj hrest hsame

theorem Pieces.unique_of_length (hitem : Unambiguous item) {as' : List α}
    {bytes' rest rest' : List UInt8} (h : Pieces item as bytes) (h' : Pieces item as' bytes')
    (hlength : as.length = as'.length) (heq : bytes ++ rest = bytes' ++ rest') :
    as = as' ∧ rest = rest' := by
  induction h generalizing as' bytes' with
  | nil =>
    cases h' with
    | nil => exact ⟨rfl, heq⟩
    | cons hpiece' hrest' => cases hlength
  | cons hpiece hrest ih =>
    cases h' with
    | nil => cases hlength
    | cons hpiece' hrest' =>
      rw [List.append_assoc, List.append_assoc] at heq
      obtain ⟨rfl, hbehind⟩ := hitem hpiece hpiece' heq
      obtain ⟨rfl, hend⟩ := ih hrest' (Nat.succ.inj hlength) hbehind
      exact ⟨rfl, hend⟩

theorem counted_unambiguous (hitem : Unambiguous item) :
    Unambiguous (Counted (Leb.Form 32) item) := by
  rintro as as' _ _ rest rest' ⟨count, pieces, rfl, hcount, hpieces⟩
    ⟨count', pieces', rfl, hcount', hpieces'⟩ heq
  rw [List.append_assoc, List.append_assoc] at heq
  obtain ⟨hlength, hbehind⟩ := form_unambiguous hcount hcount' heq
  exact hpieces.unique_of_length hitem hpieces' hlength hbehind

/-! ## §3 Parsers that cut off a piece -/

namespace Parser

variable {p : Parser α}

/-- Whatever the parser accepts, it cuts off the front that is the piece of its value. -/
def Cuts (p : Parser α) (item : α → List UInt8 → Prop) : Prop :=
  ∀ {s : Input} {a : α} {s' : Input}, p.run s = .ok (a, s') →
    ∃ piece, s.bytes = piece ++ s'.bytes ∧ item a piece

theorem u32_cuts : Cuts u32 (Leb.Form 32) := by
  intro s n s' hrun
  obtain ⟨used, hread, -⟩ := u32_eq_ok.mp hrun
  obtain ⟨form, hbytes, -, hform⟩ := Leb.readUnsigned_form (by decide) hread
  exact ⟨form, hbytes, hform⟩

theorem items_cuts (hp : Cuts p item) (count : Nat) :
    Cuts (items p count) fun as piece => as.length = count ∧ Pieces item as piece := by
  induction count with
  | zero =>
    intro s as s' hrun
    obtain ⟨rfl, rfl⟩ := pure_eq_ok.mp hrun
    exact ⟨[], rfl, rfl, .nil⟩
  | succ count ih =>
    intro s as s' hrun
    obtain ⟨a, t, ha, hrun⟩ := bind_eq_ok.mp hrun
    obtain ⟨rest, t', hrest, hrun⟩ := bind_eq_ok.mp hrun
    obtain ⟨rfl, rfl⟩ := pure_eq_ok.mp hrun
    obtain ⟨piece, hbytes, hpiece⟩ := hp ha
    obtain ⟨pieces, hbytes', rfl, hpieces⟩ := ih hrest
    refine ⟨piece ++ pieces, ?_, rfl, .cons hpiece hpieces⟩
    rw [hbytes, hbytes', List.append_assoc]

theorem vec_cuts (hp : Cuts p item) : Cuts (vec p) (Counted (Leb.Form 32) item) := by
  intro s as s' hrun
  rw [vec_eq_items] at hrun
  obtain ⟨length, t, hlength, hitems⟩ := bind_eq_ok.mp hrun
  obtain ⟨count, hbytes, hcount⟩ := u32_cuts hlength
  obtain ⟨pieces, hbytes', rfl, hpieces⟩ := items_cuts hp length hitems
  refine ⟨count ++ pieces, ?_, count, pieces, rfl, hcount, hpieces⟩
  rw [hbytes, hbytes', List.append_assoc]

/-- Contents of a declared length are cut off with that length, and parsed on their own. -/
theorem sized_cuts : Cuts (sized p) fun a piece =>
    ∃ contents offset, Sized contents piece ∧ p.run ⟨contents, 0⟩ = .ok (a, ⟨[], offset⟩) := by
  intro s a s' hrun
  obtain ⟨t, contents, offset, hlength, hbytes', -, hcontents⟩ := sized_eq_ok.mp hrun
  obtain ⟨length, hbytes, hform⟩ := u32_cuts hlength
  refine ⟨length ++ contents, ?_, contents, offset, ⟨length, rfl, hform⟩, hcontents⟩
  rw [hbytes, hbytes', List.append_assoc]

end Parser

end MeteredWasm.Wasm
