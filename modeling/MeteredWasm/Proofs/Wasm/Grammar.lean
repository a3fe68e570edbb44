import MeteredWasm.Proofs.Wasm.Reading
import MeteredWasm.Wasm.Instruction

/-!
# The grammar of instructions

How an instruction is spelled: its opcode, then its immediates. The parser of instructions accepts
exactly this grammar, so everything that the instrumentation concludes from the first byte of an
instruction can be read off one case analysis.

* `Operator.parse_eq_ok`: what is accepted is a spelling;
* `Operator.Spells.reads`: every spelling is accepted, wherever it stands;
* `Instr.Spelled`: an item of a decoded body together with its meaning.
-/

namespace MeteredWasm.Wasm

open MeteredWasm.Run MeteredWasm.Wasm.Parser

/-! ## §1 Spellings -/

/-- An opcode and immediates spell an instruction. -/
inductive Operator.Spells : UInt8 → List UInt8 → Operator → Prop where
  | unreachable : Spells 0x00 [] .unreachable
  | nop : Spells 0x01 [] .nop
  | block {v : List UInt8} {type : Option ValueType} :
      Reads blockType v type → Spells 0x02 v (.block type)
  | loop {v : List UInt8} {type : Option ValueType} :
      Reads blockType v type → Spells 0x03 v (.loop type)
  | ifThen {v : List UInt8} {type : Option ValueType} :
      Reads blockType v type → Spells 0x04 v (.ifThen type)
  | elseThen : Spells 0x05 [] .elseThen
  | endBlock : Spells 0x0B [] .endBlock
  | br {v : List UInt8} {label : Nat} : Reads u32 v label → Spells 0x0C v (.br label)
  | brIf {v : List UInt8} {label : Nat} : Reads u32 v label → Spells 0x0D v (.brIf label)
  | brTable {u v : List UInt8} {labels : List Nat} {default : Nat} :
      Reads (vec u32) u labels → Reads u32 v default →
      Spells 0x0E (u ++ v) (.brTable labels default)
  | ret : Spells 0x0F [] .ret
  | call {v : List UInt8} {function : Nat} : Reads u32 v function → Spells 0x10 v (.call function)
  | callIndirect {v : List UInt8} {type : Nat} :
      Reads u32 v type → Spells 0x11 (v ++ [0]) (.callIndirect type)
  | drop : Spells 0x1A [] .drop
  | select : Spells 0x1B [] .select
  | localGet {v : List UInt8} {index : Nat} : Reads u32 v index → Spells 0x20 v (.localGet index)
  | localSet {v : List UInt8} {index : Nat} : Reads u32 v index → Spells 0x21 v (.localSet index)
  | localTee {v : List UInt8} {index : Nat} : Reads u32 v index → Spells 0x22 v (.localTee index)
  | globalGet {v : List UInt8} {index : Nat} :
      Reads u32 v index → Spells 0x23 v (.globalGet index)
  | globalSet {v : List UInt8} {index : Nat} :
      Reads u32 v index → Spells 0x24 v (.globalSet index)
  | memorySize : Spells 0x3F [0] .memorySize
  | memoryGrow : Spells 0x40 [0] .memoryGrow
  | i32Const {v : List UInt8} {i : Int} :
      Reads (signed 32) v i → Spells 0x41 v (.const (.i32 (UInt32.ofInt i)))
  | i64Const {v : List UInt8} {i : Int} :
      Reads (signed 64) v i → Spells 0x42 v (.const (.i64 (UInt64.ofInt i)))
  | f32Const {v : List UInt8} :
      v.length = 4 → Spells 0x43 v (.const (.f32 (UInt32.ofNat (ofLittleEndian v))))
  | f64Const {v : List UInt8} :
      v.length = 8 → Spells 0x44 v (.const (.f64 (UInt64.ofNat (ofLittleEndian v))))
  | load {b : UInt8} {v : List UInt8} {type : ValueType} {natural : Nat} {arg : MemArg} :
      loadShape? b = some (type, natural) → Reads MemArg.parse v arg →
      Spells b v (.load type natural arg)
  | store {b : UInt8} {v : List UInt8} {type : ValueType} {natural : Nat} {arg : MemArg} :
      storeShape? b = some (type, natural) → Reads MemArg.parse v arg →
      Spells b v (.store type natural arg)
  | numeric {b : UInt8} {s : Signature} :
      numericSignature? b = some s → Spells b [] (.numeric b)

theorem MemArg.parse_local : Local MemArg.parse :=
  u32_local.bind fun _ => u32_local.bind fun _ => Local.pure _

/-! ## §2 Ranges of opcodes -/

theorem loadShape?_range {b : UInt8} {shape : ValueType × Nat} (h : loadShape? b = some shape) :
    0x28 ≤ b.toNat ∧ b.toNat ≤ 0x35 := by
  unfold loadShape? at h
  split at h <;> first | omega | simp at h

theorem storeShape?_range {b : UInt8} {shape : ValueType × Nat} (h : storeShape? b = some shape) :
    0x36 ≤ b.toNat ∧ b.toNat ≤ 0x3E := by
  unfold storeShape? at h
  split at h <;> first | omega | simp at h

/-- A fact about all bytes is a fact about 256 numbers. -/
theorem forall_byte {motive : UInt8 → Prop} (h : ∀ n < 256, motive (UInt8.ofNat n)) (b : UInt8) :
    motive b := by
  have hb := h b.toNat b.toNat_lt
  rwa [UInt8.ofNat_toNat] at hb

theorem numericSignature?_range {b : UInt8} {s : Signature} (h : numericSignature? b = some s) :
    0x45 ≤ b.toNat ∧ b.toNat ≤ 0xC4 := by
  have htable : ∀ b : UInt8, (numericSignature? b).isSome → 0x45 ≤ b.toNat ∧ b.toNat ≤ 0xC4 :=
    forall_byte (by decide +kernel)
  exact htable b (by rw [h]; rfl)

/-! ## §3 Soundness -/

/-- A parser whose result is packed up spells an instruction if its bytes do. -/
theorem map_spells {α : Type} {p : Parser α} {f : α → Operator} {b : UInt8} {s s' : Input}
    {op : Operator} (hp : Local p) (hspells : ∀ {v a}, Reads p v a → Operator.Spells b v (f a))
    (hrun : (f <$> p).run s = .ok (op, s')) :
    ∃ v, s.bytes = v ++ s'.bytes ∧ s'.offset = s.offset + v.length ∧ Operator.Spells b v op := by
  obtain ⟨a, ha, rfl⟩ := map_eq_ok.mp hrun
  obtain ⟨v, hbytes, hoffset, hreads⟩ := hp _ _ _ ha
  exact ⟨v, hbytes, hoffset, hspells hreads⟩

/-- An instruction without immediates. -/
theorem pure_spells {b : UInt8} {s s' : Input} {op op' : Operator}
    (hspells : Operator.Spells b [] op) (hrun : (pure op : Parser Operator).run s = .ok (op', s')) :
    ∃ v, s.bytes = v ++ s'.bytes ∧ s'.offset = s.offset + v.length ∧ Operator.Spells b v op' := by
  obtain ⟨rfl, rfl⟩ := pure_eq_ok.mp hrun
  exact ⟨[], rfl, rfl, hspells⟩

theorem reserved_eq_ok {s s' : Input} {u : Unit} :
    reserved.run s = .ok (u, s') ↔ s.bytes = 0 :: s'.bytes ∧ s'.offset = s.offset + 1 := by
  unfold reserved
  simp only [bind_eq_ok, byte_eq_ok, require_eq_ok, beq_iff_eq]
  constructor
  · rintro ⟨b, t, ⟨hbytes, hoffset⟩, rfl, rfl⟩
    exact ⟨hbytes, hoffset⟩
  · rintro ⟨hbytes, hoffset⟩
    exact ⟨0, s', ⟨hbytes, hoffset⟩, rfl, rfl⟩

theorem word_eq_ok {count : Nat} {s s' : Input} {n : Nat} :
    (word count).run s = .ok (n, s') ↔
      ∃ v, v.length = count ∧ s.bytes = v ++ s'.bytes ∧ s'.offset = s.offset + v.length ∧
        n = ofLittleEndian v := by
  unfold word
  simp only [bind_eq_ok, take_eq_ok, pure_eq_ok]
  constructor
  · rintro ⟨v, t, ⟨hbytes, rfl, hoffset⟩, rfl, rfl⟩
    exact ⟨v, rfl, hbytes, hoffset, rfl⟩
  · rintro ⟨v, rfl, hbytes, hoffset, rfl⟩
    exact ⟨v, s', ⟨hbytes, rfl, hoffset⟩, rfl, rfl⟩

/-- An opcode is known from its number. -/
theorem opcode_eq {b : UInt8} {n : Nat} (h : b.toNat = n) : b = UInt8.ofNat n := by
  rw [← h, UInt8.ofNat_toNat]

/-- The immediates that are accepted after an opcode spell an instruction with it. -/
theorem parseImmediates_spells {b : UInt8} {s s' : Input} {op : Operator}
    (hrun : (Operator.parseImmediates b).run s = .ok (op, s')) :
    ∃ v, s.bytes = v ++ s'.bytes ∧ s'.offset = s.offset + v.length ∧ Operator.Spells b v op := by
  unfold Operator.parseImmediates at hrun
  split at hrun
  case h_1 h => exact opcode_eq h ▸ pure_spells .unreachable hrun
  case h_2 h => exact opcode_eq h ▸ pure_spells .nop hrun
  case h_3 h => exact opcode_eq h ▸ map_spells blockType_local .block hrun
  case h_4 h => exact opcode_eq h ▸ map_spells blockType_local .loop hrun
  case h_5 h => exact opcode_eq h ▸ map_spells blockType_local .ifThen hrun
  case h_6 h => exact opcode_eq h ▸ pure_spells .elseThen hrun
  case h_7 h => exact opcode_eq h ▸ pure_spells .endBlock hrun
  case h_8 h => exact opcode_eq h ▸ map_spells u32_local .br hrun
  case h_9 h => exact opcode_eq h ▸ map_spells u32_local .brIf hrun
  case h_10 h =>
    obtain ⟨labels, t, hlabels, hrun⟩ := bind_eq_ok.mp hrun
    obtain ⟨default, t', hdefault, hrun⟩ := bind_eq_ok.mp hrun
    obtain ⟨rfl, rfl⟩ := pure_eq_ok.mp hrun
    obtain ⟨u, hu, hoffset, hreads⟩ := vec_local u32_local _ _ _ hlabels
    obtain ⟨v, hv, hoffset', hreads'⟩ := u32_local _ _ _ hdefault
    refine ⟨u ++ v, ?_, ?_, opcode_eq h ▸ .brTable hreads hreads'⟩
    · rw [hu, hv, List.append_assoc]
    · rw [hoffset', hoffset, List.length_append, Nat.add_assoc]
  case h_11 h => exact opcode_eq h ▸ pure_spells .ret hrun
  case h_12 h => exact opcode_eq h ▸ map_spells u32_local .call hrun
  case h_13 h =>
    obtain ⟨type, t, htype, hrun⟩ := bind_eq_ok.mp hrun
    obtain ⟨⟨⟩, t', hreserved, hrun⟩ := bind_eq_ok.mp hrun
    obtain ⟨rfl, rfl⟩ := pure_eq_ok.mp hrun
    obtain ⟨v, hv, hoffset, hreads⟩ := u32_local _ _ _ htype
    obtain ⟨hzero, hoffset'⟩ := reserved_eq_ok.mp hreserved
    refine ⟨v ++ [0], ?_, ?_, opcode_eq h ▸ .callIndirect hreads⟩
    · rw [hv, hzero, List.append_assoc, List.singleton_append]
    · rw [hoffset', hoffset, List.length_append, Nat.add_assoc, List.length_singleton]
  case h_14 h => exact opcode_eq h ▸ pure_spells .drop hrun
  case h_15 h => exact opcode_eq h ▸ pure_spells .select hrun
  case h_16 h => exact opcode_eq h ▸ map_spells u32_local .localGet hrun
  case h_17 h => exact opcode_eq h ▸ map_spells u32_local .localSet hrun
  case h_18 h => exact opcode_eq h ▸ map_spells u32_local .localTee hrun
  case h_19 h => exact opcode_eq h ▸ map_spells u32_local .globalGet hrun
  case h_20 h => exact opcode_eq h ▸ map_spells u32_local .globalSet hrun
  case h_21 h =>
    obtain ⟨⟨⟩, t, hreserved, hrun⟩ := bind_eq_ok.mp hrun
    obtain ⟨rfl, rfl⟩ := pure_eq_ok.mp hrun
    obtain ⟨hzero, hoffset⟩ := reserved_eq_ok.mp hreserved
    exact ⟨[0], hzero, hoffset, opcode_eq h ▸ .memorySize⟩
  case h_22 h =>
    obtain ⟨⟨⟩, t, hreserved, hrun⟩ := bind_eq_ok.mp hrun
    obtain ⟨rfl, rfl⟩ := pure_eq_ok.mp hrun
    obtain ⟨hzero, hoffset⟩ := reserved_eq_ok.mp hreserved
    exact ⟨[0], hzero, hoffset, opcode_eq h ▸ .memoryGrow⟩
  case h_23 h =>
    rw [bind_pure_comp] at hrun
    exact opcode_eq h ▸ map_spells (signed_local 32) .i32Const hrun
  case h_24 h =>
    rw [bind_pure_comp] at hrun
    exact opcode_eq h ▸ map_spells (signed_local 64) .i64Const hrun
  case h_25 h =>
    obtain ⟨n, t, hn, hrun⟩ := bind_eq_ok.mp hrun
    obtain ⟨rfl, rfl⟩ := pure_eq_ok.mp hrun
    obtain ⟨v, hlength, hv, hoffset, rfl⟩ := word_eq_ok.mp hn
    exact ⟨v, hv, hoffset, opcode_eq h ▸ .f32Const hlength⟩
  case h_26 h =>
    obtain ⟨n, t, hn, hrun⟩ := bind_eq_ok.mp hrun
    obtain ⟨rfl, rfl⟩ := pure_eq_ok.mp hrun
    obtain ⟨v, hlength, hv, hoffset, rfl⟩ := word_eq_ok.mp hn
    exact ⟨v, hv, hoffset, opcode_eq h ▸ .f64Const hlength⟩
  case h_27 =>
    split at hrun
    case h_1 hload => exact map_spells MemArg.parse_local (.load hload) hrun
    case h_2 hstore _ => exact map_spells MemArg.parse_local (.store hstore) hrun
    case h_3 hnumeric _ _ => exact pure_spells (.numeric hnumeric) hrun
    case h_4 => simp at hrun

/-! ## §4 Completeness -/

theorem reserved_reads : Reads reserved [0] () :=
  Reads.byte_bind (Reads.pure ())

theorem word_reads (v : List UInt8) : Reads (word v.length) v (ofLittleEndian v) :=
  (take_reads v).bind_pure ofLittleEndian

/-- The opcodes from here on are those of loads, stores and numeric instructions. -/
theorem parseImmediates_of_range {b : UInt8}
    (h : (0x28 ≤ b.toNat ∧ b.toNat ≤ 0x3E) ∨ 0x45 ≤ b.toNat) :
    Operator.parseImmediates b =
      match loadShape? b, storeShape? b, numericSignature? b with
      | some (type, natural), _, _ => .load type natural <$> MemArg.parse
      | _, some (type, natural), _ => .store type natural <$> MemArg.parse
      | _, _, some _ => pure (.numeric b)
      | _, _, _ => fail (.unknownOpcode b) := by
  unfold Operator.parseImmediates
  split
  case h_27 => rfl
  all_goals omega

/-- Every spelling is read as its instruction. -/
theorem Operator.Spells.reads {b : UInt8} {v : List UInt8} {op : Operator}
    (h : Operator.Spells b v op) : Reads Operator.parse (b :: v) op := by
  refine Reads.byte_bind ?_
  cases h with
  | unreachable => exact Reads.pure _
  | nop => exact Reads.pure _
  | block hreads => exact hreads.map _
  | loop hreads => exact hreads.map _
  | ifThen hreads => exact hreads.map _
  | elseThen => exact Reads.pure _
  | endBlock => exact Reads.pure _
  | br hreads => exact hreads.map _
  | brIf hreads => exact hreads.map _
  | brTable hreads hreads' => exact hreads.bind (hreads'.bind_pure _)
  | ret => exact Reads.pure _
  | call hreads => exact hreads.map _
  | callIndirect hreads => exact hreads.bind (reserved_reads.bind_pure _)
  | drop => exact Reads.pure _
  | select => exact Reads.pure _
  | localGet hreads => exact hreads.map _
  | localSet hreads => exact hreads.map _
  | localTee hreads => exact hreads.map _
  | globalGet hreads => exact hreads.map _
  | globalSet hreads => exact hreads.map _
  | memorySize => exact reserved_reads.bind_pure _
  | memoryGrow => exact reserved_reads.bind_pure _
  | i32Const hreads => exact hreads.bind_pure _
  | i64Const hreads => exact hreads.bind_pure _
  | f32Const hlength => exact (hlength ▸ word_reads v).bind_pure _
  | f64Const hlength => exact (hlength ▸ word_reads v).bind_pure _
  | load hshape hreads =>
    have hrange := loadShape?_range hshape
    rw [parseImmediates_of_range (by omega), hshape]
    exact hreads.map _
  | store hshape hreads =>
    have hrange := storeShape?_range hshape
    -- the ranges of the three kinds of opcodes do not overlap
    have hload : loadShape? b = none := Option.eq_none_iff_forall_ne_some.mpr fun _ hsome => by
      have := loadShape?_range hsome
      omega
    rw [parseImmediates_of_range (by omega), hload, hshape]
    exact hreads.map _
  | numeric hsignature =>
    have hrange := numericSignature?_range hsignature
    have hload : loadShape? b = none := Option.eq_none_iff_forall_ne_some.mpr fun _ hsome => by
      have := loadShape?_range hsome
      omega
    have hstore : storeShape? b = none := Option.eq_none_iff_forall_ne_some.mpr fun _ hsome => by
      have := storeShape?_range hsome
      omega
    rw [parseImmediates_of_range (by omega), hload, hstore, hsignature]
    exact Reads.pure _

/-- What is accepted as an instruction is a spelling of it. -/
theorem Operator.parse_eq_ok {s s' : Input} {op : Operator}
    (hrun : Operator.parse.run s = .ok (op, s')) :
    ∃ b v, Operator.Spells b v op ∧ s.bytes = b :: v ++ s'.bytes ∧
      s'.offset = s.offset + (b :: v).length := by
  obtain ⟨b, t, hb, himmediates⟩ := bind_eq_ok.mp hrun
  obtain ⟨hbytes, hoffset⟩ := byte_eq_ok.mp hb
  obtain ⟨v, hv, hoffset', hspells⟩ := parseImmediates_spells himmediates
  refine ⟨b, v, hspells, ?_, ?_⟩
  · rw [hbytes, hv, List.cons_append]
  · rw [hoffset', hoffset, List.length_cons]
    omega

/-- An opcode that has a signature stands alone. -/
theorem Operator.Spells.eq_numeric {b : UInt8} {v : List UInt8} {op : Operator} {s : Signature}
    (h : Operator.Spells b v op) (hsignature : numericSignature? b = some s) :
    v = [] ∧ op = .numeric b := by
  have hrange := numericSignature?_range hsignature
  cases h with
  | numeric => exact ⟨rfl, rfl⟩
  | load hshape =>
    have hload := loadShape?_range hshape
    omega
  | store hshape =>
    have hstore := storeShape?_range hshape
    omega
  | _ => simp at hrange

/-! ## §5 Items of a body -/

namespace Instr

/-- An item of a body that was parsed, with its meaning. -/
def Spelled (i : Instr) (op : Operator) : Prop :=
  ∃ b v, Operator.Spells b v op ∧ i = ofOperator op (b :: v)

/-- Only a call is kept as its target. -/
theorem ofOperator_eq_raw {op : Operator} (h : ∀ target, op ≠ .call target)
    (encoding : List UInt8) : ofOperator op encoding = .raw encoding := by
  cases op with
  | call target => exact absurd rfl (h target)
  | _ => rfl

/-- A call is kept as its target, anything else as its spelling. -/
theorem Spelled.cases {i : Instr} {op : Operator} (h : i.Spelled op) :
    (∃ v target, i = .call target ∧ op = .call target ∧ Reads u32 v target) ∨
      ∃ b v, i = .raw (b :: v) ∧ (∀ target, op ≠ .call target) ∧ Operator.Spells b v op := by
  obtain ⟨b, v, hspells, rfl⟩ := h
  -- calls are the only instructions that are kept by meaning
  by_cases hcall : ∃ target, op = .call target
  · obtain ⟨target, rfl⟩ := hcall
    cases hspells with
    | call hreads => exact .inl ⟨v, target, rfl, rfl, hreads⟩
  · have hother : ∀ target, op ≠ .call target := fun target htarget => hcall ⟨target, htarget⟩
    exact .inr ⟨b, v, ofOperator_eq_raw hother _, hother, hspells⟩

/-- The first byte of an item is the opcode of its meaning. -/
theorem Spelled.opcode_spells {i : Instr} {op : Operator} (h : i.Spelled op) :
    ∃ v, Operator.Spells i.opcode v op := by
  obtain ⟨v, target, rfl, rfl, hreads⟩ | ⟨b, v, rfl, -, hspells⟩ := h.cases
  · exact ⟨v, .call hreads⟩
  · exact ⟨v, hspells⟩

/-- The meaning of an item can be recovered from it. -/
theorem Spelled.operator? {i : Instr} {op : Operator} (h : i.Spelled op) :
    i.operator? = some op := by
  obtain ⟨v, target, rfl, rfl, -⟩ | ⟨b, v, rfl, -, hspells⟩ := h.cases
  · rfl
  · have hrun : Operator.parse ⟨b :: v, 0⟩ = .ok (op, ⟨[], 0 + (b :: v).length⟩) :=
      hspells.reads.run 0
    simp [Instr.operator?, hrun]

theorem parse_reads {b : UInt8} {v : List UInt8} {op : Operator} (h : Operator.Spells b v op) :
    Reads parse (b :: v) (op, ofOperator op (b :: v)) := by
  intro tail offset
  have hrun : Operator.parse ⟨b :: v ++ tail, offset⟩ =
      .ok (op, ⟨tail, offset + (b :: v).length⟩) := h.reads tail offset
  simp only [StateT.run, parse, hrun, Nat.add_sub_cancel_left, List.take_left]

/-- What is accepted as an item of a body is spelled by the bytes that were used. -/
theorem parse_eq_ok {s s' : Input} {op : Operator} {i : Instr}
    (hrun : parse.run s = .ok ((op, i), s')) :
    ∃ b v, Operator.Spells b v op ∧ i = ofOperator op (b :: v) ∧ s.bytes = b :: v ++ s'.bytes ∧
      s'.offset = s.offset + (b :: v).length := by
  unfold StateT.run parse at hrun
  split at hrun
  · simp at hrun
  · rename_i op' t hparse
    simp only [Except.ok.injEq, Prod.mk.injEq] at hrun
    obtain ⟨⟨rfl, rfl⟩, rfl⟩ := hrun
    obtain ⟨b, v, hspells, hbytes, hoffset⟩ := Operator.parse_eq_ok hparse
    refine ⟨b, v, hspells, ?_, hbytes, hoffset⟩
    rw [hbytes, hoffset, Nat.add_sub_cancel_left, List.take_left]

/-- An item is parsed again from its encoding. -/
theorem Spelled.encode_reads {i : Instr} {op : Operator} (h : i.Spelled op) :
    Reads parse i.encode (op, i) := by
  obtain ⟨v, target, rfl, rfl, hreads⟩ | ⟨b, v, rfl, hother, hspells⟩ := h.cases
  · have htarget : target < 2 ^ 32 := u32_lt (hreads.run 0)
    exact parse_reads (.call (u32_reads htarget))
  · rw [← ofOperator_eq_raw hother]
    exact ofOperator_eq_raw hother (b :: v) ▸ parse_reads hspells

/-- An encoding is no longer than any spelling: the target of a call is written in the shortest
form. -/
theorem encode_length_le {b : UInt8} {v : List UInt8} {op : Operator}
    (h : Operator.Spells b v op) : (ofOperator op (b :: v)).encode.length ≤ (b :: v).length := by
  by_cases hcall : ∃ target, op = .call target
  · obtain ⟨target, rfl⟩ := hcall
    cases h with
    | call hreads =>
      obtain ⟨used, hread, hused⟩ := u32_eq_ok.mp (hreads.run 0)
      have hbound := (Leb.readUnsigned_bound hread).2
      simp only [Nat.zero_add] at hused
      simp only [ofOperator, encode, List.length_cons]
      omega
  · rw [ofOperator_eq_raw fun target htarget => hcall ⟨target, htarget⟩]
    exact le_rfl

end Instr

end MeteredWasm.Wasm
