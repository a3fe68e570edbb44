import Mathlib.Data.List.TakeWhile
import MeteredWasm.Proofs.Intrinsic.Effects
import MeteredWasm.Proofs.Memory.Refinement

/-!
# Messages of assertions

An assertion that does not hold ends the call with a message out of the memory, given by its end or by
its length. Of a message only as many bytes are kept as the configuration says. Where the end is
looked for, the limit counts as it is; where the length is given, the limit counts modulo `2 ^ 32`.

* `LinearMemory.cString_of_slice`: a text that ends with a zero byte is read up to the limit;
* `Intrinsic.assertion_messages_kept`: what is kept of a message, however it is given;
* `Intrinsic.assertion_limit_wraps`: a limit of `2 ^ 32` bytes, of which nothing is left.
-/

namespace MeteredWasm

open Wasm (Value)

variable {ω : Type}

/-! ## §1 Texts in the memory -/

namespace LinearMemory

variable {m m' : LinearMemory} {start : Nat} {data : List UInt8}

theorem stretch_of_slice {length : Nat} (h : m.slice start length = .ok data) :
    start + length ≤ m.size ∧ stretch (byteAt m.bytes) start length = data := by
  rw [slice_eq] at h
  split_ifs at h with hin
  cases h
  exact ⟨hin, rfl⟩

/-- The front of a range that can be read. -/
theorem slice_take {length kept : Nat} (h : m.slice start length = .ok data)
    (hkept : kept ≤ length) : m.slice start kept = .ok (data.take kept) := by
  obtain ⟨hin, rfl⟩ := stretch_of_slice h
  rw [slice_eq, if_pos (by omega), take_stretch _ _ hkept]

/-- A text without zero bytes that has one behind it is read up to a limit. -/
theorem cString_of_slice {text : List UInt8} (hzero : 0 ∉ text)
    (h : m.slice start (text.length + 1) = .ok (text ++ [0])) (limit : Nat) :
    m.cString start (some limit) = .ok (text.take limit) := by
  obtain ⟨hin, hstored⟩ := stretch_of_slice h
  have hnonzero : ∀ b ∈ text, decide (b ≠ 0) = true := by
    intro b hb
    exact decide_eq_true fun hb0 => hzero (hb0 ▸ hb)
  have hread : (stretch (byteAt m.bytes) start limit).takeWhile (· ≠ 0) = text.take limit := by
    rcases Nat.lt_or_ge text.length limit with hlong | hshort
    · -- the zero byte lies before the limit
      obtain ⟨further, rfl⟩ := Nat.exists_eq_add_of_lt hlong
      rw [Nat.add_right_comm, stretch_append, hstored, List.append_assoc,
        List.takeWhile_append_of_pos hnonzero, List.take_of_length_le (by omega)]
      exact List.append_nil text
    · -- the limit comes before the end of the text, or with it
      have hfront : stretch (byteAt m.bytes) start limit = text.take limit := by
        rw [← take_stretch _ _ (Nat.le_succ_of_le hshort), hstored,
          List.take_append_of_le_length hshort]
      rw [hfront]
      exact List.takeWhile_eq_self_iff.mpr fun b hb => hnonzero b (List.mem_of_mem_take hb)
  have hbound : (some limit).elim (m.size < limit) (· = limit) := rfl
  have hroom : start + min ((text.take limit).length + 1) limit ≤ m.size := by
    rw [List.length_take]
    omega
  rw [cString_eq m start (some limit) hbound, hread, if_pos hroom]

/-- What is written where there is room for it is read again. -/
theorem slice_of_write (hlength : data.length < UInt32.size) (hin : start + data.length ≤ m.size) :
    ∃ m', m.write start data = .ok m' ∧ m'.slice start data.length = .ok data := by
  have hsize : data.toByteArray.size = data.length := List.size_toByteArray
  obtain ⟨m', hblit⟩ : ∃ m', m.blit start data.toByteArray = .ok m' :=
    ⟨_, dif_pos (by rwa [hsize])⟩
  refine ⟨m', (if_pos hlength).trans hblit, ?_⟩
  have hroom : start + data.length ≤ m'.size := by
    rwa [size_eq, pages_of_blit hblit, ← size_eq]
  rw [slice_eq, if_pos hroom]
  congr 1
  apply List.ext_getElem
  · exact length_stretch _ _ _
  · intro i hi hi'
    rw [getElem_stretch, byteAt_blit hblit, if_pos (by omega), Nat.add_sub_cancel_left,
      byteAt_toByteArray, List.getElem?_eq_getElem hi', Option.getD_some]

end LinearMemory

/-! ## §2 Assertions that do not hold -/

/-- A runtime fault that tells what is kept of the contract's own message, and changes nothing. -/
def Context.FailsWith (c : Context ω) (kept : List UInt8) (outcome : CallOutcome ω) : Prop :=
  ∃ fault : Fault, outcome = (.error fault, c) ∧ fault.kind? = some .runtime ∧
    fault.message = "runtime error: assertion failure with message: " ++
      Text.Utf8.decodeLossy kept

theorem Context.failsWith (c : Context ω) (kept : List UInt8) :
    c.FailsWith kept (.error (.assertionMessage kept), c) := by
  refine ⟨_, rfl, rfl, ?_⟩
  show "runtime error: " ++ ("assertion failure with message: " ++ _) = _
  rw [← String.append_assoc]
  rfl

namespace Intrinsic

open Session (exec_bind_ok exec_slice exec_trap exec_get_bind)

variable {c : Context ω} {start length : UInt32} {kept : List UInt8}

theorem exec_zeroTerminated (hgas : Gas.callBase ≤ c.gas) (host : Host ω)
    (h : c.memory.cString start.toNat (some c.config.maxAssertMessage.toNat) = .ok kept) :
    ((assertion .zeroTerminated).call host [.i32 0, .i32 start]).exec c =
      (.error (.assertionMessage kept), charged c) := by
  have hargs : (assertion .zeroTerminated).signature.accepts [.i32 0, .i32 start] := rfl
  have hread : (Session.trap (c.memory.cString start.toNat
      (some c.config.maxAssertMessage.toNat))).exec (charged c) = (.ok kept, charged c) := by
    rw [exec_trap, h]
    rfl
  rw [exec_call_paid hargs hgas, run, AssertionCall.run, if_pos rfl, exec_get_bind]
  exact exec_bind_ok hread

theorem exec_message (hgas : Gas.callBase ≤ c.gas) (host : Host ω)
    (h : c.memory.slice start.toNat
      (min length.toNat (c.config.maxAssertMessage.toNat % 2 ^ 32)) = .ok kept) :
    ((assertion .message).call host [.i32 0, .i32 start, .i32 length]).exec c =
      (.error (.assertionMessage kept), charged c) := by
  have hargs : (assertion .message).signature.accepts [.i32 0, .i32 start, .i32 length] := rfl
  have hread : (Session.slice start (min length c.config.maxAssertMessage.toUInt32)).exec
      (charged c) = (.ok kept, charged c) := by
    rw [exec_slice, UInt32.toNat_min, UInt64.toNat_toUInt32]
    exact congrArg (Except.mapError Fault.trap · , charged c) h
  rw [exec_call_paid hargs hgas, run, AssertionCall.run, if_pos rfl, exec_get_bind]
  exact exec_bind_ok hread

/-! ## §3 Limits -/

/-- An assertion that does not hold, over a text without zero bytes that has one behind it. Found by
its end, the text is kept up to the limit. With its length given, it is kept up to what is left of the
limit modulo `2 ^ 32`; so for limits below `2 ^ 32`, and for texts that are shorter still, both ways
come to the same. -/
theorem assertion_messages_kept (host : Host ω) (c : Context ω) (start length : UInt32)
    (text : List UInt8) (hgas : Gas.callBase ≤ c.gas) (hlength : text.length = length.toNat)
    (hzero : 0 ∉ text)
    (hstored : c.memory.slice start.toNat (text.length + 1) = .ok (text ++ [0])) :
    let limit := c.config.maxAssertMessage.toNat
    let byEnd := ((assertion .zeroTerminated).call host [.i32 0, .i32 start]).exec c
    let byLength := ((assertion .message).call host [.i32 0, .i32 start, .i32 length]).exec c
    (charged c).FailsWith (text.take limit) byEnd ∧
      (charged c).FailsWith (text.take (limit % 2 ^ 32)) byLength ∧
      (limit < 2 ^ 32 ∨ text.length ≤ limit % 2 ^ 32 → byLength = byEnd) := by
  intro limit byEnd byLength
  have hscanned : byEnd = (.error (.assertionMessage (text.take limit)), charged c) :=
    exec_zeroTerminated hgas host (LinearMemory.cString_of_slice hzero hstored limit)
  -- the narrowed limit may lie behind the end of the text, but the length does not
  have hfront : c.memory.slice start.toNat (min length.toNat (limit % 2 ^ 32)) =
      .ok (text.take (limit % 2 ^ 32)) := by
    rw [← hlength, LinearMemory.slice_take hstored (by omega),
      List.take_append_of_le_length (Nat.min_le_left _ _), Nat.min_comm, ← List.take_eq_take_min]
  have hmeasured : byLength =
      (.error (.assertionMessage (text.take (limit % 2 ^ 32))), charged c) :=
    exec_message hgas host hfront
  refine ⟨?_, ?_, ?_⟩
  · rw [hscanned]
    exact Context.failsWith _ _
  · rw [hmeasured]
    exact Context.failsWith _ _
  · intro hlimit
    have hkept : text.take (limit % 2 ^ 32) = text.take limit := by
      rcases hlimit with hsmall | hshort
      · rw [Nat.mod_eq_of_lt hsmall]
      · rw [List.take_of_length_le hshort,
          List.take_of_length_le (hshort.trans (Nat.mod_le limit _))]
    rw [hscanned, hmeasured, hkept]

/-- Of two letters the limit `2 ^ 32 + 1` keeps both if their end is found, and else one. -/
theorem assertion_messages_kept_letters :
    ∃ memory, (LinearMemory.withPages 1).write 65533 [0x61, 0x62, 0] = .ok memory ∧
      let config : Config := { maxAssertMessage := 4294967297 }
      let c := Context.start () memory 100 default default config
      Gas.callBase ≤ c.gas ∧ (0 : UInt8) ∉ [0x61, 0x62] ∧
        c.memory.slice 65533 3 = .ok [0x61, 0x62, 0] ∧
        ∀ host : Host Unit,
          (charged c).FailsWith [0x61, 0x62]
            (((assertion .zeroTerminated).call host [.i32 0, .i32 65533]).exec c) ∧
          (charged c).FailsWith [0x61]
            (((assertion .message).call host [.i32 0, .i32 65533, .i32 2]).exec c) := by
  have hwritten : ∃ memory, (LinearMemory.withPages 1).write 65533 [0x61, 0x62, 0] = .ok memory ∧
      memory.slice 65533 3 = .ok [0x61, 0x62, 0] :=
    LinearMemory.slice_of_write (by decide) (by rw [LinearMemory.size_eq]; decide)
  obtain ⟨memory, hwrite, hslice⟩ := hwritten
  refine ⟨memory, hwrite, ?_⟩
  intro config c
  have hgas : Gas.callBase ≤ c.gas := Nat.le_refl 100
  have hzero : (0 : UInt8) ∉ [0x61, 0x62] := by decide
  have hlimit : c.config.maxAssertMessage.toNat = 4294967297 := rfl
  refine ⟨hgas, hzero, hslice, ?_⟩
  intro host
  obtain ⟨hend, hlength, -⟩ :=
    assertion_messages_kept host c 65533 2 [0x61, 0x62] hgas rfl hzero hslice
  rw [hlimit] at hend hlength
  exact ⟨hend, hlength⟩

/-- A limit of `2 ^ 32` bytes keeps a letter if its end is found, and nothing of it if its length is
given. -/
theorem assertion_limit_wraps :
    ∃ memory, (LinearMemory.withPages 1).write 0 [0x61, 0] = .ok memory ∧
      let config : Config := { maxAssertMessage := 4294967296 }
      let c := Context.start () memory 100 default default config
      c.memory.slice 0 2 = .ok [0x61, 0] ∧
        ∀ host : Host Unit,
          (charged c).FailsWith [0x61]
            (((assertion .zeroTerminated).call host [.i32 0, .i32 0]).exec c) ∧
          ¬(charged c).FailsWith [0x61]
            (((assertion .message).call host [.i32 0, .i32 0, .i32 1]).exec c) := by
  have hwritten : ∃ memory, (LinearMemory.withPages 1).write 0 [0x61, 0] = .ok memory ∧
      memory.slice 0 2 = .ok [0x61, 0] :=
    LinearMemory.slice_of_write (by decide) (by rw [LinearMemory.size_eq]; decide)
  obtain ⟨memory, hwrite, hslice⟩ := hwritten
  refine ⟨memory, hwrite, ?_⟩
  intro config c
  have hgas : Gas.callBase ≤ c.gas := Nat.le_refl 100
  have hlimit : c.config.maxAssertMessage.toNat = 4294967296 := rfl
  have hstored : c.memory.slice 0 2 = .ok [0x61, 0] := hslice
  refine ⟨hstored, ?_⟩
  intro host
  constructor
  · have hzero : (0 : UInt8) ∉ [0x61] := by decide
    have htext : c.memory.cString (0 : UInt32).toNat (some c.config.maxAssertMessage.toNat) =
        .ok [0x61] := by
      rw [hlimit]
      exact LinearMemory.cString_of_slice hzero hstored 4294967296
    rw [exec_zeroTerminated hgas host htext]
    exact Context.failsWith _ _
  · rintro ⟨fault, houtcome, -, hmessage⟩
    have hnothing : c.memory.slice (0 : UInt32).toNat
        (min (1 : UInt32).toNat (c.config.maxAssertMessage.toNat % 2 ^ 32)) = .ok [] := by
      rw [hlimit]
      exact LinearMemory.slice_take hstored (by decide)
    rw [exec_message hgas host hnothing] at houtcome
    cases houtcome
    exact absurd hmessage (by decide +kernel)

end Intrinsic

end MeteredWasm
