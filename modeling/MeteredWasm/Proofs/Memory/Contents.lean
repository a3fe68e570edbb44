import Mathlib.Algebra.BigOperators.Ring.Finset
import Mathlib.Tactic.SplitIfs
import MeteredWasm.Memory.Linear
import MeteredWasm.Proofs.Endian

/-!
# Contents of memories

Which byte stands at which offset once a memory has been changed, and which bytes are read from a
range. Everything is said of single bytes, so that nothing below has to take arrays apart.
-/

namespace MeteredWasm

/-- The bytes at consecutive offsets. -/
def stretch (byte : Nat → UInt8) (start length : Nat) : List UInt8 :=
  (List.range' start length).map byte

@[simp]
theorem length_stretch (byte : Nat → UInt8) (start length : Nat) :
    (stretch byte start length).length = length := by
  rw [stretch, List.length_map, List.length_range']

theorem stretch_succ (byte : Nat → UInt8) (start length : Nat) :
    stretch byte start (length + 1) = byte start :: stretch byte (start + 1) length := by
  rw [stretch, List.range'_succ, List.map_cons, stretch]

theorem getElem_stretch (byte : Nat → UInt8) (start length i : Nat)
    (h : i < (stretch byte start length).length) :
    (stretch byte start length)[i] = byte (start + i) := by
  simp only [stretch, List.getElem_map, List.getElem_range', Nat.one_mul]

theorem stretch_append (byte : Nat → UInt8) (start length further : Nat) :
    stretch byte start (length + further) =
      stretch byte start length ++ stretch byte (start + length) further := by
  rw [stretch, stretch, stretch, ← List.map_append, List.range'_append_1]

theorem take_stretch (byte : Nat → UInt8) (start : Nat) {length kept : Nat} (h : kept ≤ length) :
    (stretch byte start length).take kept = stretch byte start kept := by
  rw [stretch, stretch, ← List.map_take, List.take_range'_of_length_ge h]

/-- The front of a stretch is a stretch. -/
theorem takeWhile_stretch (byte : Nat → UInt8) (start length : Nat) (p : UInt8 → Bool) :
    (stretch byte start length).takeWhile p =
      stretch byte start ((stretch byte start length).takeWhile p).length := by
  have hwhole := (stretch byte start length).takeWhile_append_dropWhile (p := p)
  have hlength := congrArg List.length hwhole
  rw [List.length_append, length_stretch] at hlength
  have hsplit := stretch_append byte start ((stretch byte start length).takeWhile p).length
    ((stretch byte start length).dropWhile p).length
  rw [hlength] at hsplit
  exact List.append_inj_left (hwhole.trans hsplit) (length_stretch _ _ _).symm

theorem toList_ofFn (byte : Nat → UInt8) (start length : Nat) :
    (Vector.ofFn fun k : Fin length => byte (start + k)).toList = stretch byte start length := by
  apply List.ext_getElem
  · rw [Vector.length_toList, length_stretch]
  · intro i hi _
    rw [getElem_stretch, Vector.getElem_toList, Vector.getElem_ofFn]

/-- Consecutive bytes spell a number, each byte worth 256 times the one before. -/
theorem ofLittleEndian_stretch (byte : Nat → UInt8) (start length : Nat) :
    ofLittleEndian (stretch byte start length) =
      ∑ k ∈ Finset.range length, (byte (start + k)).toNat * 256 ^ k := by
  induction length generalizing start with
  | zero => rfl
  | succ length ih =>
    rw [stretch_succ, ofLittleEndian_cons, ih, Finset.sum_range_succ', Nat.add_comm, Finset.mul_sum]
    simp only [Nat.pow_zero, Nat.mul_one, Nat.add_zero, Nat.pow_succ]
    congr 1
    apply Finset.sum_congr rfl
    intro k _
    rw [Nat.add_assoc start 1 k, Nat.add_comm 1 k, Nat.mul_comm 256, Nat.mul_assoc]

/-- The bytes of a number, the one worth the least first. -/
theorem getElem?_littleEndian {count k : Nat} (n : Nat) (h : k < count) :
    (littleEndian count n)[k]? = some (UInt8.ofNat (n / 256 ^ k)) := by
  induction count generalizing n k with
  | zero => cases h
  | succ count ih =>
    cases k with
    | zero =>
      show some (UInt8.ofNat (n % 256)) = some (UInt8.ofNat (n / 256 ^ 0))
      rw [Nat.pow_zero, Nat.div_one]
      exact congrArg some UInt8.ofNat_mod_size
    | succ k =>
      show (littleEndian count (n / 256))[k]? = _
      rw [ih _ (Nat.lt_of_succ_lt_succ h), Nat.div_div_eq_div_mul, Nat.pow_succ, Nat.mul_comm]

theorem length_littleEndian (count n : Nat) : (littleEndian count n).length = count := by
  induction count generalizing n with
  | zero => rfl
  | succ count ih => rw [littleEndian, List.length_cons, ih]

namespace LinearMemory

/-! ## §1 Bytes of arrays -/

theorem byteAt_eq_getD (bytes : ByteArray) (i : Nat) :
    byteAt bytes i = bytes.data[i]?.getD 0 := by
  unfold byteAt
  split_ifs with h
  · have h' : i < bytes.data.size := h
    rw [Array.getElem?_eq_getElem h', Option.getD_some, ByteArray.getElem_eq_getElem_data]
  · have h' : bytes.data.size ≤ i := Nat.le_of_not_lt h
    rw [Array.getElem?_eq_none h', Option.getD_none]

theorem byteAt_of_size_le {bytes : ByteArray} {i : Nat} (h : bytes.size ≤ i) :
    byteAt bytes i = 0 :=
  dif_neg (Nat.not_lt.mpr h)

theorem byteAt_toByteArray (data : List UInt8) (i : Nat) :
    byteAt data.toByteArray i = data[i]?.getD 0 := by
  rw [byteAt_eq_getD, List.data_toByteArray, List.getElem?_toArray]

theorem byteAt_append (a b : ByteArray) (i : Nat) :
    byteAt (a ++ b) i = if i < a.size then byteAt a i else byteAt b (i - a.size) := by
  simp only [byteAt_eq_getD, ByteArray.data_append, Array.getElem?_append, ByteArray.size]
  split_ifs <;> rfl

theorem byteAt_extract (bytes : ByteArray) (start stop i : Nat) :
    byteAt (bytes.extract start stop) i =
      if start + i < stop then byteAt bytes (start + i) else 0 := by
  by_cases hsize : start + i < bytes.size
  · simp only [byteAt_eq_getD, ByteArray.data_extract, Array.getElem?_extract]
    have hdata : bytes.data.size = bytes.size := rfl
    split_ifs with h₁ h₂ h₂
    · rfl
    · omega
    · omega
    · rfl
  · rw [byteAt_of_size_le (Nat.le_of_not_lt hsize), byteAt_of_size_le, ite_self]
    rw [ByteArray.size_extract]
    omega

theorem byteAt_push (bytes : ByteArray) (value : UInt8) (i : Nat) :
    byteAt (bytes.push value) i = if i = bytes.size then value else byteAt bytes i := by
  have hdata : (bytes.push value).data = bytes.data.push value := rfl
  simp only [byteAt_eq_getD, hdata, Array.getElem?_push, ByteArray.size]
  split_ifs <;> rfl

theorem byteAt_repeated (value : UInt8) (n i : Nat) :
    byteAt (repeated value n) i = if i < n then value else 0 := by
  induction n using Nat.strongRecOn generalizing i with
  | ind n ih =>
    have hsize := size_repeated value (n / 2)
    unfold repeated
    split
    · next hzero =>
      subst hzero
      exact byteAt_of_size_le (Nat.zero_le i)
    · next hpos =>
      -- two halves, and one more if there is an odd number of them
      have hhalf := ih (n / 2) (by omega)
      have htwice : ∀ i, byteAt (repeated value (n / 2) ++ repeated value (n / 2)) i =
          if i < 2 * (n / 2) then value else 0 := by
        intro i
        rw [byteAt_append, hsize, hhalf, hhalf]
        split_ifs <;> first | rfl | omega
      split
      · rw [htwice]
        congr 2
        omega
      · rw [byteAt_push, htwice, ByteArray.size_append, hsize]
        split_ifs <;> first | rfl | omega

/-- A range of an array, as a list. -/
theorem toList_extract {bytes : ByteArray} {start length : Nat}
    (h : start + length ≤ bytes.size) :
    (bytes.extract start (start + length)).data.toList = stretch (byteAt bytes) start length := by
  have hsize : (bytes.extract start (start + length)).data.toList.length = length := by
    rw [Array.length_toList]
    show (bytes.extract start (start + length)).size = length
    rw [ByteArray.size_extract]
    omega
  apply List.ext_getElem
  · rw [hsize, length_stretch]
  · intro i hi _
    rw [hsize] at hi
    have hlt : start + i < bytes.size := by omega
    rw [getElem_stretch, byteAt, dif_pos hlt, Array.getElem_toList,
      ByteArray.getElem_eq_getElem_data]
    simp only [ByteArray.data_extract, Array.getElem_extract]

/-! ## §2 Reading -/

variable {m m' : LinearMemory}

theorem slice_eq (m : LinearMemory) (start length : Nat) :
    m.slice start length =
      if start + length ≤ m.size then .ok (stretch (byteAt m.bytes) start length)
      else .error .outOfBounds := by
  unfold slice
  split_ifs with h
  · rw [toList_extract h]
  · rfl

theorem sliceVector_eq (m : LinearMemory) (start length : Nat) :
    m.sliceVector start length =
      if start + length ≤ m.size then
        .ok (Vector.ofFn fun k : Fin length => byteAt m.bytes (start + k))
      else .error .outOfBounds := by
  unfold sliceVector
  split_ifs with h
  · congr 1
    apply Vector.ext
    intro i hi
    have hlt : start + i < m.bytes.size := Nat.lt_of_lt_of_le (Nat.add_lt_add_left hi start) h
    rw [Vector.getElem_ofFn, byteAt, dif_pos hlt, ByteArray.getElem_eq_getElem_data]
    simp only [Vector.getElem_mk, ByteArray.data_extract, Array.getElem_extract]
  · rfl

theorem load_eq (m : LinearMemory) (start width : Nat) :
    m.load start width =
      if start + width ≤ m.size then
        .ok (∑ k ∈ Finset.range width, (byteAt m.bytes (start + k)).toNat * 256 ^ k)
      else .error .outOfBounds := by
  rw [load, slice_eq]
  split_ifs with h
  · rw [← ofLittleEndian_stretch]
    rfl
  · rfl

/-- Scanning counts the bytes before the first zero byte. -/
theorem scan_eq (bytes : ByteArray) (start count done : Nat) :
    scan bytes start count done =
      done + ((stretch (byteAt bytes) (start + done) count).takeWhile (· ≠ 0)).length := by
  induction count generalizing done with
  | zero => rfl
  | succ count ih =>
    rw [scan, stretch_succ, List.takeWhile_cons]
    by_cases hzero : byteAt bytes (start + done) = 0
    · simp [hzero]
    · have hgo : decide (byteAt bytes (start + done) ≠ 0) = true := decide_eq_true hzero
      rw [if_neg hzero, if_pos hgo, ih, List.length_cons, Nat.add_assoc start done 1]
      omega

/-! ## §3 Writing -/

/-- The contents of an array, a range of which has been overwritten. -/
theorem byteAt_copySlice {src dest : ByteArray} {start : Nat} (h : start + src.size ≤ dest.size)
    (i : Nat) :
    byteAt (src.copySlice 0 dest start src.size) i =
      if start ≤ i ∧ i < start + src.size then byteAt src (i - start) else byteAt dest i := by
  have hfront : (dest.extract 0 start).size = start := by
    rw [ByteArray.size_extract]
    omega
  have hdata : src.data.size = src.size := rfl
  have hbytes : dest.data.size = dest.size := rfl
  rw [ByteArray.copySlice_eq_append]
  simp only [byteAt_append, byteAt_extract, ByteArray.size_append, hfront, ByteArray.size_extract,
    hdata, hbytes, Nat.zero_add, Nat.sub_zero, Nat.min_self]
  -- what stood before the range, the new bytes, and what stood behind the range
  by_cases hbefore : i < start
  · rw [if_pos (by omega), if_pos hbefore, if_pos hbefore, if_neg (by omega)]
  · by_cases hinside : i < start + src.size
    · rw [if_pos hinside, if_neg hbefore, if_pos (by omega), if_pos (by omega)]
    · have hplace : start + src.size + (i - (start + src.size)) = i := by omega
      have hbehind : ¬(start ≤ i ∧ i < start + src.size) := fun h => hinside h.2
      rw [if_neg hinside, hplace, if_neg hbehind]
      split_ifs with hend
      · rfl
      · exact (byteAt_of_size_le (Nat.le_of_not_lt hend)).symm

/-- The contents after a range has been overwritten. -/
theorem byteAt_blit {start : Nat} {src : ByteArray} (h : m.blit start src = .ok m') (i : Nat) :
    byteAt m'.bytes i =
      if start ≤ i ∧ i < start + src.size then byteAt src (i - start) else byteAt m.bytes i := by
  unfold blit at h
  split_ifs at h with hin
  cases h
  exact byteAt_copySlice hin i

/-- A zeroed memory has zeros everywhere. -/
theorem byteAt_withPages (pages i : Nat) : byteAt (withPages pages).bytes i = 0 := by
  show byteAt (repeated 0 (pages * pageSize)) i = 0
  rw [byteAt_repeated, ite_self]

/-! ## §4 Page counts -/

theorem size_eq (m : LinearMemory) : m.size = m.pages * pageSize :=
  m.size_bytes

theorem pages_of_blit {start : Nat} {src : ByteArray} (h : m.blit start src = .ok m') :
    m'.pages = m.pages := by
  unfold blit at h
  split_ifs at h
  cases h
  rfl

theorem pages_of_write {start : Nat} {data : List UInt8} (h : m.write start data = .ok m') :
    m'.pages = m.pages := by
  unfold write at h
  split_ifs at h
  exact pages_of_blit h

theorem pages_of_copyWithin {dst src length : Nat} (h : m.copyWithin dst src length = .ok m') :
    m'.pages = m.pages := by
  unfold copyWithin at h
  split_ifs at h
  exact pages_of_blit h

theorem pages_of_fill {start length : Nat} {value : UInt8}
    (h : m.fill start value length = .ok m') : m'.pages = m.pages := by
  unfold fill at h
  split_ifs at h
  exact pages_of_blit h

theorem pages_of_reset {pages : Nat} {image : ByteArray} (h : reset pages image = .ok m) :
    m.pages = pages :=
  pages_of_blit h

/-- An image that fits is laid into zeroed pages. -/
theorem reset_of_le {pages : Nat} {image : ByteArray} (h : image.size ≤ pages * pageSize) :
    ∃ m, reset pages image = .ok m := by
  have hfits : 0 + image.size ≤ (withPages pages).size := by
    rw [Nat.zero_add, size_eq]
    exact h
  exact ⟨_, dif_pos hfits⟩

/-- What growing within the maximum leaves. -/
theorem grow_of_le {delta maximum : Nat} (h : m.pages + delta ≤ maximum) :
    ∃ grown, m.grow delta maximum = (Int32.ofNat m.pages, grown) ∧
      grown.pages = m.pages + delta ∧
      grown.bytes = m.bytes ++ repeated 0 (delta * pageSize) := by
  rw [grow, if_pos h]
  exact ⟨_, rfl, rfl, rfl⟩

theorem grow_of_lt {delta maximum : Nat} (h : maximum < m.pages + delta) :
    m.grow delta maximum = (-1, m) :=
  if_neg (Nat.not_le.mpr h)

end LinearMemory

end MeteredWasm
