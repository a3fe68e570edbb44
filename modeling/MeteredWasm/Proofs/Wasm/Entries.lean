import MeteredWasm.Proofs.Endian
import MeteredWasm.Proofs.Wasm.Grammar
import MeteredWasm.Proofs.Wasm.Rewriting
import MeteredWasm.Wasm.Decode

/-!
# Entries of sections

Each kind of entry rewrites to its encoder: whatever spelling of it was accepted, the entry is read
from its encoding, and that is no longer.
-/

namespace MeteredWasm.Wasm

open MeteredWasm.Run MeteredWasm.Wasm.Parser

namespace Parser

theorem byte_length {s s' : Input} {b : UInt8} (hrun : byte.run s = .ok (b, s')) :
    s.bytes.length = s'.bytes.length + 1 := by
  rw [(byte_eq_ok.mp hrun).1, List.length_cons]

/-- A list of items that are kept as they are is kept as it is. -/
theorem vec_rewrites_self {α : Type} {p : Parser α} {encode : α → List UInt8}
    (hp : Rewrites p Eq encode) : Rewrites (vec p) Eq (Encode.vec encode) := by
  rintro s as s' _ hrun rfl
  exact vec_rewrites hp _ _ _ _ hrun (List.forall₂_refl as)

end Parser

namespace Layout

/-! ## §1 Types -/

theorem functionMark_length {s s' : Input} {u : Unit} (hrun : functionMark.run s = .ok (u, s')) :
    s'.bytes.length + 1 ≤ s.bytes.length := by
  obtain ⟨b, t, hb, hrun⟩ := bind_eq_ok.mp hrun
  have hlength := byte_length hb
  split at hrun
  · obtain ⟨-, rfl⟩ := pure_eq_ok.mp hrun
    omega
  · obtain ⟨count, t₁, hcount, hrun⟩ := bind_eq_ok.mp hrun
    obtain ⟨_, t₂, hzero, hrun⟩ := bind_eq_ok.mp hrun
    obtain ⟨-, rfl⟩ := require_eq_ok.mp hzero
    obtain ⟨b', t₃, hb', hrun⟩ := bind_eq_ok.mp hrun
    obtain ⟨-, rfl⟩ := require_eq_ok.mp hrun
    have hlength' := byte_length hb'
    have hbound := (u32_rewrites _ _ _ _ hcount rfl).2
    omega
  · simp at hrun

theorem functionMark_reads : Reads functionMark [0x60] () :=
  Reads.byte_bind (Reads.pure ())

/-- The marks of a final type are left out, the counts are written in the shortest form. -/
theorem signature_rewrites : Rewrites signature Eq Encode.signature := by
  rintro s sig s' _ hrun rfl
  obtain ⟨_, t, hmark, hrun⟩ := bind_eq_ok.mp hrun
  obtain ⟨params, t₁, hparams, hrun⟩ := bind_eq_ok.mp hrun
  obtain ⟨_, t₂, hmax, hrun⟩ := bind_eq_ok.mp hrun
  obtain ⟨hfew, rfl⟩ := require_eq_ok.mp hmax
  obtain ⟨results, t₃, hresults, hrun⟩ := bind_eq_ok.mp hrun
  have hlength := functionMark_length hmark
  obtain ⟨hreads, hbound⟩ := vec_rewrites_self valueType_rewrites _ _ _ _ hparams rfl
  obtain ⟨hreads', hbound'⟩ := vec_rewrites_self valueType_rewrites _ _ _ _ hresults rfl
  -- there is at most one result, so the list of results is that of the first
  have hresult : sig = ⟨params, results.head?⟩ ∧ results = results.head?.toList ∧ t₃ = s' := by
    split at hrun
    · obtain ⟨rfl, rfl⟩ := pure_eq_ok.mp hrun
      exact ⟨rfl, rfl, rfl⟩
    · obtain ⟨rfl, rfl⟩ := pure_eq_ok.mp hrun
      exact ⟨rfl, rfl, rfl⟩
    · simp at hrun
  obtain ⟨rfl, hlist, rfl⟩ := hresult
  rw [hlist] at hreads' hbound'
  refine ⟨?_, ?_⟩
  · show Reads signature ([0x60] ++ (_ ++ _)) _
    refine functionMark_reads.bind (hreads.bind (Reads.require_bind hfew ?_))
    refine hreads'.bind_nil ?_
    cases results with
    | nil => exact Reads.pure _
    | cons r rest => exact Reads.pure _
  · simp only [Encode.signature, List.length_cons, List.length_append]
    omega

theorem limits_rewrites : Rewrites limits Eq Encode.limits := by
  rintro s l s' _ hrun rfl
  obtain ⟨b, t, hb, hrun⟩ := bind_eq_ok.mp hrun
  have hlength := byte_length hb
  split at hrun
  · obtain ⟨initial, t₁, hinitial, hrun⟩ := bind_eq_ok.mp hrun
    obtain ⟨rfl, rfl⟩ := pure_eq_ok.mp hrun
    obtain ⟨hreads, hbound⟩ := u32_rewrites _ _ _ _ hinitial rfl
    refine ⟨Reads.byte_bind (hreads.bind_pure _), ?_⟩
    simp only [Encode.limits, List.length_cons]
    omega
  · obtain ⟨initial, t₁, hinitial, hrun⟩ := bind_eq_ok.mp hrun
    obtain ⟨maximum, t₂, hmaximum, hrun⟩ := bind_eq_ok.mp hrun
    obtain ⟨rfl, rfl⟩ := pure_eq_ok.mp hrun
    obtain ⟨hreads, hbound⟩ := u32_rewrites _ _ _ _ hinitial rfl
    obtain ⟨hreads', hbound'⟩ := u32_rewrites _ _ _ _ hmaximum rfl
    refine ⟨Reads.byte_bind (hreads.bind (hreads'.bind_pure _)), ?_⟩
    simp only [Encode.limits, List.length_cons, List.length_append]
    omega
  · simp at hrun

theorem functionReference_length {s s' : Input} {u : Unit}
    (hrun : functionReference.run s = .ok (u, s')) : s'.bytes.length + 1 ≤ s.bytes.length := by
  obtain ⟨b, t, hb, hrun⟩ := bind_eq_ok.mp hrun
  have hlength := byte_length hb
  split at hrun
  · obtain ⟨-, rfl⟩ := pure_eq_ok.mp hrun
    omega
  · obtain ⟨b', t', hb', hrun⟩ := bind_eq_ok.mp hrun
    obtain ⟨-, rfl⟩ := require_eq_ok.mp hrun
    have hlength' := byte_length hb'
    omega
  · simp at hrun

theorem functionReference_reads : Reads functionReference [0x70] () :=
  Reads.byte_bind (Reads.pure ())

/-- The type of the items is written in its short form. -/
theorem table_rewrites : Rewrites table Eq Encode.table := by
  rintro s l s' _ hrun rfl
  obtain ⟨_, t, hreference, hrun⟩ := bind_eq_ok.mp hrun
  have hlength := functionReference_length hreference
  obtain ⟨hreads, hbound⟩ := limits_rewrites _ _ _ _ hrun rfl
  refine ⟨functionReference_reads.bind hreads, ?_⟩
  simp only [Encode.table, List.length_cons]
  omega

/-- The type of a global and whether it can be assigned. -/
theorem globalType_rewrites :
    Rewrites globalType Eq fun g => Encode.globalType g.1 g.2 := by
  rintro s g s' _ hrun rfl
  obtain ⟨type, t, htype, hrun⟩ := bind_eq_ok.mp hrun
  obtain ⟨b, t', hb, hrun⟩ := bind_eq_ok.mp hrun
  obtain ⟨hreads, hbound⟩ := valueType_rewrites _ _ _ _ htype rfl
  have hlength := byte_length hb
  simp only [List.length_singleton] at hbound
  split at hrun
  · obtain ⟨rfl, rfl⟩ := pure_eq_ok.mp hrun
    refine ⟨hreads.bind (Reads.byte_bind (Reads.pure _)), ?_⟩
    simp only [Encode.globalType, List.length_cons, List.length_nil]
    omega
  · obtain ⟨rfl, rfl⟩ := pure_eq_ok.mp hrun
    refine ⟨hreads.bind (Reads.byte_bind (Reads.pure _)), ?_⟩
    simp only [Encode.globalType, List.length_cons, List.length_nil]
    omega
  · simp at hrun

/-! ## §2 Constant expressions -/

theorem toInt_toInt32_ofInt {i : Int} (h : -(2 ^ (32 - 1)) ≤ i ∧ i < 2 ^ (32 - 1)) :
    (UInt32.ofInt i).toInt32.toInt = i := by
  show (UInt32.ofInt i).toBitVec.toInt = i
  rw [BitVec.toInt_eq_toNat_cond, UInt32.toNat_toBitVec, UInt32.ofInt, UInt32.toNat_ofNat']
  split_ifs <;> omega

theorem toInt_toInt64_ofInt {i : Int} (h : -(2 ^ (64 - 1)) ≤ i ∧ i < 2 ^ (64 - 1)) :
    (UInt64.ofInt i).toInt64.toInt = i := by
  show (UInt64.ofInt i).toBitVec.toInt = i
  rw [BitVec.toInt_eq_toNat_cond, UInt64.toNat_toBitVec, UInt64.ofInt, UInt64.toNat_ofNat']
  split_ifs <;> omega

/-- A constant is written in the shortest form; the bits of a float are kept as they are. -/
theorem constant_spells {b : UInt8} {v : List UInt8} {value : Value}
    (h : Operator.Spells b v (.const value)) :
    ∃ b' v', Encode.constant value = b' :: v' ∧ Operator.Spells b' v' (.const value) ∧
      v'.length ≤ v.length := by
  cases h with
  | @i32Const _ i hreads =>
    obtain ⟨used, hread, hused⟩ := signed_eq_ok.mp (hreads.run 0)
    obtain ⟨hrange, hbound⟩ := Leb.readSigned_bound hread
    refine ⟨0x41, Leb.signed i, ?_, .i32Const (signed_reads hrange), ?_⟩
    · rw [Encode.constant, toInt_toInt32_ofInt hrange]
    · simp only at hused
      omega
  | @i64Const _ i hreads =>
    obtain ⟨used, hread, hused⟩ := signed_eq_ok.mp (hreads.run 0)
    obtain ⟨hrange, hbound⟩ := Leb.readSigned_bound hread
    refine ⟨0x42, Leb.signed i, ?_, .i64Const (signed_reads hrange), ?_⟩
    · rw [Encode.constant, toInt_toInt64_ofInt hrange]
    · simp only at hused
      omega
  | f32Const hlength =>
    have hbits := ofLittleEndian_lt v
    rw [hlength] at hbits
    refine ⟨0x43, v, ?_, .f32Const hlength, le_rfl⟩
    rw [Encode.constant, UInt32.toNat_ofNat_of_lt' hbits, ← hlength, littleEndian_ofLittleEndian]
  | f64Const hlength =>
    have hbits := ofLittleEndian_lt v
    rw [hlength] at hbits
    refine ⟨0x44, v, ?_, .f64Const hlength, le_rfl⟩
    rw [Encode.constant, UInt64.toNat_ofNat_of_lt' hbits, ← hlength, littleEndian_ofLittleEndian]

theorem endBlock_reads : Reads Operator.parse [0x0B] .endBlock :=
  Operator.Spells.endBlock.reads

/-- The instruction of an initial value is rewritten, the `end` behind it is one byte. -/
theorem initializer_rewrites : Rewrites initializer Eq Encode.initializer := by
  rintro s init s' _ hrun rfl
  obtain ⟨init', t, hinit, hrun⟩ := bind_eq_ok.mp hrun
  obtain ⟨last, t', hlast, hrun⟩ := bind_eq_ok.mp hrun
  obtain ⟨op, u, hop, hinit⟩ := bind_eq_ok.mp hinit
  obtain ⟨b, v, hspells, hbytes, -⟩ := Operator.parse_eq_ok hop
  obtain ⟨b', v', -, hbytes', -⟩ := Operator.parse_eq_ok hlast
  have hlength : s.bytes.length = v.length + 1 + u.bytes.length := by
    rw [hbytes, List.length_append, List.length_cons]
  have hlength' : t.bytes.length = v'.length + 1 + t'.bytes.length := by
    rw [hbytes', List.length_append, List.length_cons]
  -- nothing but an `end` may follow the value
  have hend : init' = init ∧ t' = s' := by
    split at hrun
    · exact pure_eq_ok.mp hrun
    · simp at hrun
  obtain ⟨rfl, rfl⟩ := hend
  -- either kind of value is spelled by one instruction, in front of the same `end`
  have hreads : ∀ {c w}, Operator.Spells c w op → Reads initializer (c :: w ++ [0x0B]) init' := by
    intro c w hspells'
    unfold initializer
    refine Reads.bind ?_ (endBlock_reads.bind_nil (Reads.pure _))
    refine hspells'.reads.bind_nil ?_
    split at hinit
    · rw [← (pure_eq_ok.mp hinit).1]
      exact Reads.pure _
    · rw [← (pure_eq_ok.mp hinit).1]
      exact Reads.pure _
    · simp at hinit
  split at hinit
  · rename_i value
    obtain ⟨rfl, rfl⟩ := pure_eq_ok.mp hinit
    obtain ⟨c, w, hconstant, hspells', hshort⟩ := constant_spells hspells
    refine ⟨?_, ?_⟩
    · rw [Encode.initializer, hconstant]
      exact hreads hspells'
    · rw [Encode.initializer, hconstant, List.length_append, List.length_cons,
        List.length_singleton]
      omega
  · rename_i index
    obtain ⟨rfl, rfl⟩ := pure_eq_ok.mp hinit
    cases hspells with
    | globalGet hindex =>
      obtain ⟨hreads', hbound⟩ := u32_rewrites _ _ _ _ (hindex.run 0) rfl
      refine ⟨hreads (.globalGet hreads'), ?_⟩
      simp only [Encode.initializer, List.length_cons, List.length_append, List.length_nil]
        at hbound ⊢
      omega
  · simp at hinit

/-! ## §3 Imports, globals and exports -/

theorem importEntry_rewrites : Rewrites importEntry Eq Encode.importEntry := by
  intro s i s' i' hrun heq
  cases heq
  obtain ⟨namespace_, t, hnamespace, hrun⟩ := bind_eq_ok.mp hrun
  obtain ⟨itemName, t', hname, hrun⟩ := bind_eq_ok.mp hrun
  obtain ⟨kind, t'', hkind, hrun⟩ := bind_eq_ok.mp hrun
  obtain ⟨rfl, rfl⟩ := pure_eq_ok.mp hrun
  obtain ⟨b, u, hb, hkind⟩ := bind_eq_ok.mp hkind
  have hlength := byte_length hb
  obtain ⟨hreads, hbound⟩ := name_rewrites _ _ _ _ hnamespace rfl
  obtain ⟨hreads', hbound'⟩ := name_rewrites _ _ _ _ hname rfl
  -- behind its byte, every kind is one part that is rewritten
  have hpart : ∀ {α : Type} {p : Parser α} {encode : α → List UInt8} {f : α → ImportKind},
      Rewrites p Eq encode → (p >>= fun a => pure (f a)).run u = .ok (kind, t'') →
      ∃ a, f a = kind ∧ Reads (p >>= fun a => pure (f a)) (encode a) (f a) ∧
        (Encode.name namespace_).length + (Encode.name itemName).length + (encode a).length + 1 +
          t''.bytes.length ≤ s.bytes.length := by
    intro α p encode f hp hrun
    obtain ⟨a, u', ha, hrun⟩ := bind_eq_ok.mp hrun
    obtain ⟨hsame, rfl⟩ := pure_eq_ok.mp hrun
    obtain ⟨hreads'', hbound''⟩ := hp _ _ _ _ ha rfl
    refine ⟨a, hsame, hreads''.bind_pure f, ?_⟩
    omega
  rw [Encode.importEntry, List.append_assoc]
  split at hkind
  · obtain ⟨type, rfl, hreads'', hshort⟩ := hpart u32_rewrites hkind
    refine ⟨hreads.bind (hreads'.bind (Reads.bind_pure (Reads.byte_bind hreads'') _)), ?_⟩
    simp only [List.length_append, List.length_cons]
    omega
  · obtain ⟨l, rfl, hreads'', hshort⟩ := hpart table_rewrites hkind
    refine ⟨hreads.bind (hreads'.bind (Reads.bind_pure (Reads.byte_bind hreads'') _)), ?_⟩
    simp only [List.length_append, List.length_cons]
    omega
  · obtain ⟨l, rfl, hreads'', hshort⟩ := hpart limits_rewrites hkind
    refine ⟨hreads.bind (hreads'.bind (Reads.bind_pure (Reads.byte_bind hreads'') _)), ?_⟩
    simp only [List.length_append, List.length_cons]
    omega
  · obtain ⟨type, rfl, hreads'', hshort⟩ := hpart globalType_rewrites hkind
    refine ⟨hreads.bind (hreads'.bind (Reads.bind_pure (Reads.byte_bind hreads'') _)), ?_⟩
    simp only [List.length_append, List.length_cons] at hshort ⊢
    omega
  · simp at hkind

theorem global_rewrites : Rewrites global Eq Encode.global := by
  intro s g s' g' hrun heq
  cases heq
  obtain ⟨⟨type, isMutable⟩, t, htype, hrun⟩ := bind_eq_ok.mp hrun
  obtain ⟨init, t', hinit, hrun⟩ := bind_eq_ok.mp hrun
  obtain ⟨rfl, rfl⟩ := pure_eq_ok.mp hrun
  obtain ⟨hreads, hbound⟩ := globalType_rewrites _ _ _ _ htype rfl
  obtain ⟨hreads', hbound'⟩ := initializer_rewrites _ _ _ _ hinit rfl
  refine ⟨hreads.bind (hreads'.bind_pure _), ?_⟩
  simp only [Encode.global, List.length_append] at hbound ⊢
  omega

theorem exportEntry_rewrites : Rewrites exportEntry Eq Encode.exportEntry := by
  intro s e s' e' hrun heq
  cases heq
  obtain ⟨itemName, t, hname, hrun⟩ := bind_eq_ok.mp hrun
  obtain ⟨kind, t', hkind, hrun⟩ := bind_eq_ok.mp hrun
  obtain ⟨b, u, hb, hkind⟩ := bind_eq_ok.mp hkind
  obtain ⟨index, t'', hindex, hrun⟩ := bind_eq_ok.mp hrun
  obtain ⟨rfl, rfl⟩ := pure_eq_ok.mp hrun
  have hlength := byte_length hb
  obtain ⟨hreads, hbound⟩ := name_rewrites _ _ _ _ hname rfl
  obtain ⟨hreads', hbound'⟩ := u32_rewrites _ _ _ _ hindex rfl
  -- the byte of a kind determines it, and uses nothing more
  have hspelling : b = Encode.exportKind kind ∧ u = t' := by
    split at hkind
    case h_5 => simp at hkind
    all_goals
      rename_i h
      obtain ⟨rfl, rfl⟩ := pure_eq_ok.mp hkind
      exact ⟨opcode_eq h, rfl⟩
  obtain ⟨rfl, rfl⟩ := hspelling
  refine ⟨?_, ?_⟩
  · show Reads exportEntry (_ ++ ([Encode.exportKind kind] ++ _)) _
    refine hreads.bind (Reads.bind ?_ (hreads'.bind_pure _))
    cases kind <;> exact Reads.byte_bind (Reads.pure _)
  · simp only [Encode.exportEntry, List.length_append, List.length_cons]
    omega

/-! ## §4 Segments -/

theorem segmentOffset_eq_ok {kind : SegmentKind} {init : Initializer} {offset : Nat} :
    segmentOffset kind init = .ok offset ↔
      ∃ bits, init = .const (.i32 bits) ∧ bits.toNat = offset := by
  constructor
  · intro h
    unfold segmentOffset at h
    split at h
    · cases h
      exact ⟨_, rfl, rfl⟩
    · cases h
  · rintro ⟨bits, rfl, rfl⟩
    rfl

theorem element_toSegment_eq_ok {e : RawElement} {kept : ElementSegment} :
    e.toSegment = .ok kept ↔
      ∃ bits, e.offset = .const (.i32 bits) ∧ kept = ⟨bits.toNat, e.functions⟩ := by
  constructor
  · intro h
    simp only [RawElement.toSegment, bind, Except.bind] at h
    split at h
    · cases h
    · rename_i offset hoffset
      obtain ⟨bits, hconst, rfl⟩ := segmentOffset_eq_ok.mp hoffset
      cases h
      exact ⟨bits, hconst, rfl⟩
  · rintro ⟨bits, hconst, rfl⟩
    rw [RawElement.toSegment, hconst]
    rfl

theorem data_toSegment_eq_ok {d : RawData} {kept : DataSegment} :
    d.toSegment = .ok kept ↔
      ∃ memory bits, d.mode = .active memory (.const (.i32 bits)) ∧
        kept = ⟨bits.toNat, d.bytes⟩ := by
  constructor
  · intro h
    simp only [RawData.toSegment, bind, Except.bind] at h
    split at h
    · rename_i memory init hmode
      split at h
      · cases h
      · rename_i offset hoffset
        obtain ⟨bits, rfl, rfl⟩ := segmentOffset_eq_ok.mp hoffset
        cases h
        exact ⟨memory, bits, hmode, rfl⟩
    · cases h
  · rintro ⟨memory, bits, hmode, rfl⟩
    rw [RawData.toSegment, hmode]
    rfl

/-- The offset of a segment is written as the constant it was read from. -/
theorem encode_segmentOffset (bits : UInt32) :
    Encode.segmentOffset bits.toNat = Encode.initializer (.const (.i32 bits)) := by
  rw [Encode.segmentOffset, UInt32.ofNat_toNat]

/-- Either form of an element segment has an offset, functions, and a byte or more for the flags. -/
theorem elementSegment_parts {s s' : Input} {e : RawElement}
    (hrun : elementSegment.run s = .ok (e, s')) :
    ∃ u t t', initializer.run u = .ok (e.offset, t) ∧ u.bytes.length + 1 ≤ s.bytes.length ∧
      (vec u32).run t' = .ok (e.functions, s') ∧ t'.bytes.length ≤ t.bytes.length := by
  obtain ⟨flags, u, hflags, hrun⟩ := bind_eq_ok.mp hrun
  have hpos := Leb.length_unsigned_pos flags
  obtain ⟨-, hbound⟩ := u32_rewrites _ _ _ _ hflags rfl
  split at hrun
  · obtain ⟨offset, t, hoffset, hrun⟩ := bind_eq_ok.mp hrun
    obtain ⟨functions, t', hfunctions, hrun⟩ := bind_eq_ok.mp hrun
    obtain ⟨rfl, rfl⟩ := pure_eq_ok.mp hrun
    exact ⟨u, t, t, hoffset, by omega, hfunctions, le_rfl⟩
  · obtain ⟨table, u', htable, hrun⟩ := bind_eq_ok.mp hrun
    obtain ⟨offset, t, hoffset, hrun⟩ := bind_eq_ok.mp hrun
    obtain ⟨b, t', hb, hrun⟩ := bind_eq_ok.mp hrun
    obtain ⟨_, t'', hzero, hrun⟩ := bind_eq_ok.mp hrun
    obtain ⟨-, rfl⟩ := require_eq_ok.mp hzero
    obtain ⟨functions, t'', hfunctions, hrun⟩ := bind_eq_ok.mp hrun
    obtain ⟨rfl, rfl⟩ := pure_eq_ok.mp hrun
    have hlength := byte_length hb
    obtain ⟨-, hbound'⟩ := u32_rewrites _ _ _ _ htable rfl
    exact ⟨u', t, t', hoffset, by omega, hfunctions, by omega⟩
  · simp at hrun

/-- An element segment for the first table, kept with a known offset, is written without naming the
table. -/
theorem elementSegment_rewrites :
    Rewrites elementSegment (fun e kept => e.table = 0 ∧ e.toSegment = .ok kept)
      Encode.elementSegment := by
  intro s e s' kept hrun hstands
  obtain ⟨hfirst, hkept⟩ := hstands
  obtain ⟨u, t, t', hoffset, hflags, hfunctions, hkind⟩ := elementSegment_parts hrun
  obtain ⟨bits, hconst, rfl⟩ := element_toSegment_eq_ok.mp hkept
  obtain ⟨hreads, hbound⟩ := initializer_rewrites _ _ _ _ hoffset rfl
  obtain ⟨hreads', hbound'⟩ := vec_rewrites_self u32_rewrites _ _ _ _ hfunctions rfl
  -- with the table and the offset known, the short form says the same
  obtain ⟨table, init, functions⟩ := e
  obtain rfl : table = 0 := hfirst
  obtain rfl : init = .const (.i32 bits) := hconst
  have hencode : Encode.elementSegment ⟨bits.toNat, functions⟩ =
      [0x00] ++ (Encode.initializer (.const (.i32 bits)) ++ Encode.vec Leb.unsigned functions) := by
    rw [Encode.elementSegment, encode_segmentOffset]
    rfl
  rw [hencode]
  refine ⟨?_, ?_⟩
  · have hflag : Reads u32 [0x00] 0 := fun _ _ => rfl
    exact hflag.bind (hreads.bind (hreads'.bind_pure _))
  · simp only [List.length_append, List.length_singleton] at hbound hbound' ⊢
    omega

/-- Either form of an active data segment has an offset, and a byte or more for the flags. -/
theorem dataSegment_parts {s s' : Input} {d : RawData} {memory : Nat} {init : Initializer}
    (hrun : dataSegment.run s = .ok (d, s')) (hactive : d.mode = .active memory init) :
    ∃ u t t', initializer.run u = .ok (init, t) ∧ u.bytes.length + 1 ≤ s.bytes.length ∧
      u32.run t = .ok (d.bytes.length, t') ∧ t'.bytes = d.bytes ++ s'.bytes := by
  obtain ⟨mode, t, hmode, hrun⟩ := bind_eq_ok.mp hrun
  obtain ⟨length, t', hlength, hrun⟩ := bind_eq_ok.mp hrun
  obtain ⟨bytes, t'', htake, hrun⟩ := bind_eq_ok.mp hrun
  obtain ⟨rfl, rfl⟩ := pure_eq_ok.mp hrun
  obtain ⟨hbytes, rfl, -⟩ := take_eq_ok.mp htake
  obtain rfl : mode = .active memory init := hactive
  obtain ⟨flags, u, hflags, hmode⟩ := bind_eq_ok.mp hmode
  have hpos := Leb.length_unsigned_pos flags
  obtain ⟨-, hbound⟩ := u32_rewrites _ _ _ _ hflags rfl
  split at hmode
  · obtain ⟨init', u', hinit, hmode⟩ := bind_eq_ok.mp hmode
    obtain ⟨hsame, rfl⟩ := pure_eq_ok.mp hmode
    cases hsame
    exact ⟨u, _, t', hinit, by omega, hlength, hbytes⟩
  · cases (pure_eq_ok.mp hmode).1
  · obtain ⟨index, u', hindex, hmode⟩ := bind_eq_ok.mp hmode
    obtain ⟨init', u'', hinit, hmode⟩ := bind_eq_ok.mp hmode
    obtain ⟨hsame, rfl⟩ := pure_eq_ok.mp hmode
    cases hsame
    obtain ⟨-, hbound'⟩ := u32_rewrites _ _ _ _ hindex rfl
    exact ⟨u', _, t', hinit, by omega, hlength, hbytes⟩
  · simp at hmode

/-- A data segment for the first memory, kept with a known offset, is written without naming the
memory. -/
theorem dataSegment_rewrites :
    Rewrites dataSegment
      (fun d kept => (∀ memory offset, d.mode = .active memory offset → memory = 0) ∧
        d.toSegment = .ok kept)
      Encode.dataSegment := by
  intro s d s' kept hrun hstands
  obtain ⟨hfirst, hkept⟩ := hstands
  obtain ⟨memory, bits, hactive, rfl⟩ := data_toSegment_eq_ok.mp hkept
  obtain rfl : memory = 0 := hfirst _ _ hactive
  obtain ⟨mode, bytes⟩ := d
  obtain rfl : mode = .active 0 (.const (.i32 bits)) := hactive
  obtain ⟨u, t, t', hinit, hflags, hlength, hbytes⟩ := dataSegment_parts hrun rfl
  dsimp only at hlength hbytes ⊢
  obtain ⟨hreads, hbound⟩ := initializer_rewrites _ _ _ _ hinit rfl
  obtain ⟨hreads', hbound'⟩ := u32_rewrites _ _ _ _ hlength rfl
  have hencode : Encode.dataSegment ⟨bits.toNat, bytes⟩ =
      ([0x00] ++ Encode.initializer (.const (.i32 bits))) ++
        (Leb.unsigned bytes.length ++ bytes) := by
    rw [Encode.dataSegment, encode_segmentOffset]
    rfl
  rw [hencode]
  refine ⟨?_, ?_⟩
  · have hflag : Reads u32 [0x00] 0 := fun _ _ => rfl
    refine Reads.bind (hflag.bind (hreads.bind_pure _)) ?_
    exact hreads'.bind ((take_reads bytes).bind_pure _)
  · rw [hbytes, List.length_append] at hbound'
    simp only [List.length_append, List.length_singleton]
    omega

end Layout

end MeteredWasm.Wasm
