import MeteredWasm.Proofs.Memory.Contents

/-!
# Memories as plain byte arrays

What operations on a memory mean: there is a number of pages, and a byte for every offset. The
buffer that holds the bytes, and how it is cut, joined and reused, cannot be told from the answers:
after any operations, every answer is the one that the plain array gives, and so are the bytes that
are left.
-/

namespace MeteredWasm

/-! ## §1 Operations -/

/-- What can be done with a memory. Offsets, lengths and numbers of pages are words. -/
inductive MemoryOperation where
  | reset (pages : UInt32) (image : ByteArray)
  | grow (delta maximum : UInt32)
  | write (start length : UInt32) (data : Vector UInt8 length.toNat)
  | storeWide (start : UInt32) (value : BitVec 128)
  | copyWithin (dst src length : UInt32)
  | fill (start : UInt32) (value : UInt8) (length : UInt32)
  | modify (start length : UInt32) (f : Vector UInt8 length.toNat → Vector UInt8 length.toNat)
  | slice (start length : UInt32)
  | readArray (start length : UInt32)
  | loadLong (start : UInt32)
  | loadWide (start : UInt32)
  /-- No limit is the greatest there is. -/
  | cString (start : UInt32) (limit : Option UInt64)

/-- What an operation that does not fail gives. -/
inductive MemoryAnswer where
  | done
  | pages (count : Int32)
  | bytes (contents : List UInt8)
  | number (value : Nat)
deriving DecidableEq

namespace LinearMemory

/-- What comes of a change; one that fails leaves the memory as it was. -/
def changed (m : LinearMemory) :
    Except Trap LinearMemory → Except Trap MemoryAnswer × LinearMemory
  | .ok m' => (.ok .done, m')
  | .error t => (.error t, m)

/-- Carry out an operation. -/
def perform (m : LinearMemory) : MemoryOperation → Except Trap MemoryAnswer × LinearMemory
  | .reset pages image => m.changed (reset pages.toNat image)
  | .grow delta maximum =>
    let grown := m.grow delta.toNat maximum.toNat
    (.ok (.pages grown.1), grown.2)
  | .write start _ data => m.changed (m.write start.toNat data.toList)
  | .storeWide start value => m.changed (m.write start.toNat (littleEndian 16 value.toNat))
  | .copyWithin dst src length => m.changed (m.copyWithin dst.toNat src.toNat length.toNat)
  | .fill start value length => m.changed (m.fill start.toNat value length.toNat)
  | .modify start length f => m.changed (m.modify start.toNat length.toNat f)
  | .slice start length => ((m.slice start.toNat length.toNat).map .bytes, m)
  | .readArray start length =>
    ((m.sliceVector start.toNat length.toNat).map fun v => .bytes v.toList, m)
  | .loadLong start => ((m.load start.toNat 8).map .number, m)
  | .loadWide start => ((m.load start.toNat 16).map .number, m)
  | .cString start limit => ((m.cString start.toNat (limit.map UInt64.toNat)).map .bytes, m)

/-- Carry out operations, one after the other, whatever comes of each. -/
def performAll (m : LinearMemory) :
    List MemoryOperation → List (Except Trap MemoryAnswer) × LinearMemory
  | [] => ([], m)
  | op :: rest =>
    let first := m.perform op
    let others := first.2.performAll rest
    (first.1 :: others.1, others.2)

end LinearMemory

/-! ## §2 Plain byte arrays -/

/-- A number of pages, and a byte for every offset, whether there is a page for it or not. -/
structure PagedBytes where
  pages : Nat
  byte : Nat → UInt8

namespace PagedBytes

/-- Nothing but zeros. -/
def zeroed (pages : Nat) : PagedBytes :=
  ⟨pages, fun _ => 0⟩

/-- The number of bytes that can be accessed. -/
def size (p : PagedBytes) : Nat :=
  p.pages * pageSize

/-- Other bytes in a range, each given by its distance from the start. -/
def patch (p : PagedBytes) (start length : Nat) (f : Nat → UInt8) : PagedBytes :=
  { p with byte := fun i => if start ≤ i ∧ i < start + length then f (i - start) else p.byte i }

/-- The number at an offset, its first byte worth the least. -/
def number (p : PagedBytes) (start length : Nat) : Nat :=
  ∑ k ∈ Finset.range length, (p.byte (start + k)).toNat * 256 ^ k

/-- A change under a condition. -/
def changeIf (p : PagedBytes) (fits : Prop) [Decidable fits] (p' : PagedBytes) :
    Except Trap MemoryAnswer × PagedBytes :=
  if fits then (.ok .done, p') else (.error .outOfBounds, p)

/-- An answer under a condition. -/
def readIf (p : PagedBytes) (fits : Prop) [Decidable fits] (answer : MemoryAnswer) :
    Except Trap MemoryAnswer × PagedBytes :=
  (if fits then .ok answer else .error .outOfBounds, p)

/-- What an operation means. -/
def perform (p : PagedBytes) : MemoryOperation → Except Trap MemoryAnswer × PagedBytes
  | .reset pages image =>
    p.changeIf (image.size ≤ pages.toNat * pageSize)
      ⟨pages.toNat, fun i => if h : i < image.size then image[i] else 0⟩
  | .grow delta maximum =>
    if p.pages + delta.toNat ≤ maximum.toNat then
      (.ok (.pages (Int32.ofNat p.pages)),
        ⟨p.pages + delta.toNat, fun i => if i < p.size then p.byte i else 0⟩)
    else (.ok (.pages (-1)), p)
  | .write start length data =>
    p.changeIf (start.toNat + length.toNat ≤ p.size)
      (p.patch start.toNat length.toNat fun k => data[k]?.getD 0)
  | .storeWide start value =>
    p.changeIf (start.toNat + 16 ≤ p.size)
      (p.patch start.toNat 16 fun k => UInt8.ofNat (value.toNat / 256 ^ k))
  | .copyWithin dst src length =>
    p.changeIf (src.toNat + length.toNat ≤ p.size ∧ dst.toNat + length.toNat ≤ p.size)
      (p.patch dst.toNat length.toNat fun k => p.byte (src.toNat + k))
  | .fill start value length =>
    p.changeIf (start.toNat + length.toNat ≤ p.size)
      (p.patch start.toNat length.toNat fun _ => value)
  | .modify start length f =>
    let old := Vector.ofFn fun k : Fin length.toNat => p.byte (start.toNat + k)
    p.changeIf (start.toNat + length.toNat ≤ p.size)
      (p.patch start.toNat length.toNat fun k => (f old)[k]?.getD 0)
  | .slice start length | .readArray start length =>
    p.readIf (start.toNat + length.toNat ≤ p.size)
      (.bytes (stretch p.byte start.toNat length.toNat))
  | .loadLong start => p.readIf (start.toNat + 8 ≤ p.size) (.number (p.number start.toNat 8))
  | .loadWide start => p.readIf (start.toNat + 16 ≤ p.size) (.number (p.number start.toNat 16))
  | .cString start limit =>
    -- looked at are the bytes of the text and the zero behind it, but never more than the limit
    let limit := limit.elim (2 ^ 64 - 1) UInt64.toNat
    let text := (stretch p.byte start.toNat limit).takeWhile (· ≠ 0)
    p.readIf (start.toNat + min (text.length + 1) limit ≤ p.size) (.bytes text)

/-- What operations mean, one after the other. -/
def performAll (p : PagedBytes) :
    List MemoryOperation → List (Except Trap MemoryAnswer) × PagedBytes
  | [] => ([], p)
  | op :: rest =>
    let first := p.perform op
    let others := first.2.performAll rest
    (first.1 :: others.1, others.2)

theorem patch_congr (p : PagedBytes) (start : Nat) {length : Nat} {f g : Nat → UInt8}
    (h : ∀ k < length, f k = g k) : p.patch start length f = p.patch start length g := by
  unfold patch
  congr 1
  funext i
  split_ifs with hin
  · exact h _ (by omega)
  · rfl

end PagedBytes

/-! ## §3 One operation -/

namespace LinearMemory

open PagedBytes (patch_congr)

/-- A memory as a plain byte array. -/
def view (m : LinearMemory) : PagedBytes :=
  ⟨m.pages, byteAt m.bytes⟩

theorem size_view (m : LinearMemory) : m.view.size = m.size :=
  m.size_eq.symm

theorem view_withPages (pages : Nat) : (withPages pages).view = .zeroed pages := by
  unfold view PagedBytes.zeroed
  congr 1
  funext i
  exact byteAt_withPages pages i

/-- The outcome of an operation, as it shows. -/
def shown (outcome : Except Trap MemoryAnswer × LinearMemory) :
    Except Trap MemoryAnswer × PagedBytes :=
  (outcome.1, outcome.2.view)

theorem view_of_blit {m m' : LinearMemory} {start : Nat} {src : ByteArray}
    (h : m.blit start src = .ok m') : m'.view = m.view.patch start src.size (byteAt src) := by
  unfold view PagedBytes.patch
  congr 1
  · exact pages_of_blit h
  · funext i
    exact byteAt_blit h i

theorem shown_blit (m : LinearMemory) (start : Nat) (src : ByteArray) :
    shown (m.changed (m.blit start src)) =
      m.view.changeIf (start + src.size ≤ m.view.size)
        (m.view.patch start src.size (byteAt src)) := by
  rw [size_view]
  unfold PagedBytes.changeIf
  split_ifs with hin
  · obtain ⟨m', hm'⟩ : ∃ m', m.blit start src = .ok m' := ⟨_, dif_pos hin⟩
    rw [hm', ← view_of_blit hm']
    rfl
  · have herror : m.blit start src = .error .outOfBounds := dif_neg hin
    rw [herror]
    rfl

theorem getElem?_toList_getD {n : Nat} (v : Vector UInt8 n) {k : Nat} (hk : k < n) :
    v.toList[k]? = some (v[k]?.getD 0) := by
  rw [Vector.getElem?_toList, Vector.getElem?_eq_getElem hk, Option.getD_some]

/-- Overwriting a range with bytes that are known one by one. -/
theorem shown_write (m : LinearMemory) (start : Nat) (data : List UInt8) (f : Nat → UInt8)
    (hlength : data.length < UInt32.size) (hf : ∀ k < data.length, data[k]? = some (f k)) :
    shown (m.changed (m.write start data)) =
      m.view.changeIf (start + data.length ≤ m.view.size) (m.view.patch start data.length f) := by
  rw [write, if_pos hlength, shown_blit, List.size_toByteArray]
  congr 1
  apply patch_congr
  intro k hk
  rw [byteAt_toByteArray, hf k hk, Option.getD_some]

theorem shown_writeVector (m : LinearMemory) (start : Nat) {length : Nat}
    (hlength : length < UInt32.size) (v : Vector UInt8 length) :
    shown (m.changed (m.write start v.toList)) =
      m.view.changeIf (start + length ≤ m.view.size)
        (m.view.patch start length fun k => v[k]?.getD 0) := by
  have hdata : v.toList.length = length := Vector.length_toList
  rw [shown_write m start v.toList (fun k => v[k]?.getD 0) (hdata.symm ▸ hlength), hdata]
  intro k hk
  exact getElem?_toList_getD v (hdata ▸ hk)

theorem shown_copyWithin (m : LinearMemory) (dst src length : Nat) :
    shown (m.changed (m.copyWithin dst src length)) =
      m.view.changeIf (src + length ≤ m.view.size ∧ dst + length ≤ m.view.size)
        (m.view.patch dst length fun k => m.view.byte (src + k)) := by
  unfold copyWithin
  split_ifs with hsrc
  · have hsize : (m.bytes.extract src (src + length)).size = length := by
      rw [ByteArray.size_extract]
      unfold size at hsrc
      omega
    rw [shown_blit, hsize, size_view]
    -- what is written was extracted before, so that overlapping ranges do not matter
    have hcopied : ∀ k < length,
        byteAt (m.bytes.extract src (src + length)) k = m.view.byte (src + k) := by
      intro k hk
      rw [byteAt_extract, if_pos (Nat.add_lt_add_left hk src)]
      rfl
    rw [patch_congr _ _ hcopied]
    simp only [PagedBytes.changeIf, hsrc, true_and]
  · simp only [PagedBytes.changeIf, size_view, hsrc, false_and, if_false]
    rfl

theorem shown_fill (m : LinearMemory) (start : Nat) (value : UInt8) (length : Nat) :
    shown (m.changed (m.fill start value length)) =
      m.view.changeIf (start + length ≤ m.view.size)
        (m.view.patch start length fun _ => value) := by
  unfold fill
  split_ifs with hin
  · rw [shown_blit, size_repeated]
    congr 1
    apply patch_congr
    intro k hk
    rw [byteAt_repeated, if_pos hk]
  · simp only [PagedBytes.changeIf, size_view, hin, if_false]
    rfl

theorem view_of_reset {pages : Nat} {image : ByteArray} {m : LinearMemory}
    (h : reset pages image = .ok m) : m.view = ⟨pages, byteAt image⟩ := by
  rw [view_of_blit h, view_withPages]
  unfold PagedBytes.patch PagedBytes.zeroed
  congr 1
  funext i
  -- both the fresh pages and the image read as zero behind the image
  split_ifs with hin
  · rfl
  · exact (byteAt_of_size_le (by omega)).symm

theorem shown_reset (m : LinearMemory) (pages : Nat) (image : ByteArray) :
    shown (m.changed (reset pages image)) =
      m.view.changeIf (image.size ≤ pages * pageSize) ⟨pages, byteAt image⟩ := by
  unfold PagedBytes.changeIf
  split_ifs with hfits
  · obtain ⟨m', hm'⟩ := reset_of_le hfits
    rw [hm', ← view_of_reset hm']
    rfl
  · have herror : reset pages image = .error .outOfBounds := by
      apply dif_neg
      rw [Nat.zero_add, size_eq]
      exact hfits
    rw [herror]
    rfl

theorem shown_modify (m : LinearMemory) (start length : Nat) (hlength : length < UInt32.size)
    (f : Vector UInt8 length → Vector UInt8 length) :
    shown (m.changed (m.modify start length f)) =
      m.view.changeIf (start + length ≤ m.view.size)
        (m.view.patch start length fun k =>
          (f (Vector.ofFn fun k : Fin length => m.view.byte (start + k)))[k]?.getD 0) := by
  unfold modify
  rw [sliceVector_eq]
  split_ifs with hin
  · exact shown_writeVector m start hlength (f (Vector.ofFn _))
  · simp only [PagedBytes.changeIf, size_view, hin, if_false]
    rfl

/-- What is read of a text, if it is looked for in a window that only the end of the memory keeps
from being as long as allowed. -/
theorem extract_text (m : LinearMemory) (start : Nat) {window bound : Nat}
    (hwindow : window ≤ bound) (hin : start + window ≤ m.size)
    (hend : window < bound → start + window = m.size) :
    let text := (stretch (byteAt m.bytes) start bound).takeWhile (· ≠ 0)
    let length := scan m.bytes start window 0
    (if length < window ∨ window = bound then
        Except.ok (m.bytes.extract start (start + length)).data.toList
      else .error Trap.outOfBounds) =
      if start + min (text.length + 1) bound ≤ m.size then .ok text
      else .error .outOfBounds := by
  intro text length
  obtain ⟨further, rfl⟩ := Nat.exists_eq_add_of_le hwindow
  let seen := (stretch (byteAt m.bytes) start window).takeWhile (· ≠ 0)
  have hseen : seen.length ≤ window := by
    have hle := (List.takeWhile_sublist (l := stretch (byteAt m.bytes) start window)
      (fun b : UInt8 => decide (b ≠ 0))).length_le
    rwa [length_stretch] at hle
  have hlength : length = seen.length := by
    simp only [length, scan_eq, Nat.zero_add, Nat.add_zero, seen]
  have hread : (m.bytes.extract start (start + length)).data.toList = seen := by
    rw [toList_extract (by unfold size at hin; omega), hlength]
    exact (takeWhile_stretch _ _ _ _).symm
  have htext : text = if seen.length = window then
      stretch (byteAt m.bytes) start window ++
        (stretch (byteAt m.bytes) (start + window) further).takeWhile (· ≠ 0)
      else seen := by
    simp only [text, stretch_append, List.takeWhile_append, length_stretch, seen]
  rw [hread, hlength]
  by_cases hfull : seen.length = window
  · rw [if_pos hfull] at htext
    by_cases hlast : further = 0
    · -- the limit is reached inside the memory
      subst hlast
      have hall : text = seen := by
        rw [htext, show seen = _ from takeWhile_stretch _ _ _ _, hfull]
        exact List.append_nil _
      rw [hall, if_pos (Or.inr (Nat.add_zero window).symm), if_pos (by omega)]
    · -- the memory ends first
      have htextLength : window ≤ text.length := by
        rw [htext, List.length_append, length_stretch]
        exact Nat.le_add_right _ _
      rw [if_neg (by omega), if_neg (by omega)]
  · -- there is a zero byte in the window
    rw [if_neg hfull] at htext
    rw [htext, if_pos (by omega), if_pos (by omega)]

/-- The text at an offset has its end, or the limit, inside the memory. -/
theorem cString_eq (m : LinearMemory) (start : Nat) (limit : Option Nat) {bound : Nat}
    (hbound : limit.elim (m.size < bound) (· = bound)) :
    let text := (stretch (byteAt m.bytes) start bound).takeWhile (· ≠ 0)
    m.cString start limit =
      if start + min (text.length + 1) bound ≤ m.size then .ok text
      else .error .outOfBounds := by
  intro text
  unfold cString
  by_cases hpast : m.size < start
  · rw [if_pos hpast, if_neg (by omega)]
  · rw [if_neg hpast]
    cases limit with
    | none =>
      have hshort : m.size < bound := hbound
      have hnot : m.size - start ≠ bound := by omega
      have hwindow : m.size - start ≤ bound := by omega
      have hread := extract_text m start hwindow (by omega) (by omega)
      rw [← hread]
      simp only [hnot, reduceCtorEq]
    | some limit =>
      have hlimit : limit = bound := hbound
      subst hlimit
      have hread := extract_text m start (Nat.min_le_right (m.size - start) limit) (by omega)
        (by omega)
      rw [← hread]
      simp only [Option.some.injEq, eq_comm]

theorem shown_grow (m : LinearMemory) (delta maximum : UInt32) :
    shown (m.perform (.grow delta maximum)) = m.view.perform (.grow delta maximum) := by
  have hview : m.view.pages = m.pages := rfl
  simp only [perform, PagedBytes.perform, hview]
  split_ifs with hfits
  · obtain ⟨grown, hgrow, hpages, hbytes⟩ := grow_of_le hfits
    rw [hgrow]
    refine congrArg (Prod.mk _) ?_
    show PagedBytes.mk _ _ = _
    rw [hpages]
    congr 1
    funext i
    rw [hbytes, byteAt_append, byteAt_repeated, ite_self, size_view]
    rfl
  · rw [grow_of_lt (Nat.lt_of_not_le hfits)]
    rfl

theorem shown_slice (m : LinearMemory) (start length : Nat) :
    (m.slice start length).map MemoryAnswer.bytes =
      (m.view.readIf (start + length ≤ m.view.size)
        (.bytes (stretch m.view.byte start length))).1 := by
  rw [slice_eq, PagedBytes.readIf, size_view]
  split_ifs <;> rfl

theorem shown_sliceVector (m : LinearMemory) (start length : Nat) :
    (m.sliceVector start length).map (fun v => MemoryAnswer.bytes v.toList) =
      (m.view.readIf (start + length ≤ m.view.size)
        (.bytes (stretch m.view.byte start length))).1 := by
  rw [sliceVector_eq, PagedBytes.readIf, size_view, ← toList_ofFn]
  split_ifs <;> rfl

theorem shown_load (m : LinearMemory) (start width : Nat) :
    (m.load start width).map MemoryAnswer.number =
      (m.view.readIf (start + width ≤ m.view.size) (.number (m.view.number start width))).1 := by
  rw [load_eq, PagedBytes.readIf, size_view]
  split_ifs <;> rfl

theorem shown_cString (m : LinearMemory) (hpages : m.pages < UInt32.size) (start : Nat)
    (limit : Option UInt64) :
    let bound := limit.elim (2 ^ 64 - 1) UInt64.toNat
    let text := (stretch m.view.byte start bound).takeWhile (· ≠ 0)
    (m.cString start (limit.map UInt64.toNat)).map MemoryAnswer.bytes =
      (m.view.readIf (start + min (text.length + 1) bound ≤ m.view.size) (.bytes text)).1 := by
  intro bound text
  have hbound : (limit.map UInt64.toNat).elim (m.size < bound) (· = bound) := by
    cases limit with
    | none =>
      -- fewer than 2³² pages never reach the greatest limit
      show m.size < 2 ^ 64 - 1
      rw [size_eq]
      unfold pageSize
      have : UInt32.size = 2 ^ 32 := rfl
      omega
    | some limit => rfl
  rw [cString_eq m start _ hbound, PagedBytes.readIf, size_view]
  split_ifs with h₁ h₂ h₂
  · rfl
  · exact absurd h₁ h₂
  · exact absurd h₂ h₁
  · rfl

/-- Every operation does what it means. -/
theorem shown_perform (m : LinearMemory) (hpages : m.pages < UInt32.size) (op : MemoryOperation) :
    shown (m.perform op) = m.view.perform op := by
  cases op with
  | reset pages image => exact shown_reset m pages.toNat image
  | grow delta maximum => exact shown_grow m delta maximum
  | write start length data => exact shown_writeVector m start.toNat length.toNat_lt_size data
  | storeWide start value =>
    have hlength := length_littleEndian 16 value.toNat
    have hwrite := shown_write m start.toNat (littleEndian 16 value.toNat)
      (fun k => UInt8.ofNat (value.toNat / 256 ^ k)) (hlength.symm ▸ by decide)
      (fun k hk => getElem?_littleEndian _ (hlength ▸ hk))
    rwa [hlength] at hwrite
  | copyWithin dst src length => exact shown_copyWithin m dst.toNat src.toNat length.toNat
  | fill start value length => exact shown_fill m start.toNat value length.toNat
  | modify start length f => exact shown_modify m start.toNat length.toNat length.toNat_lt_size f
  | slice start length =>
    exact congrArg (Prod.mk · _) (shown_slice m start.toNat length.toNat)
  | readArray start length =>
    exact congrArg (Prod.mk · _) (shown_sliceVector m start.toNat length.toNat)
  | loadLong start => exact congrArg (Prod.mk · _) (shown_load m start.toNat 8)
  | loadWide start => exact congrArg (Prod.mk · _) (shown_load m start.toNat 16)
  | cString start limit => exact congrArg (Prod.mk · _) (shown_cString m hpages start.toNat limit)

/-- An operation that fails changes nothing. -/
theorem perform_of_error {m : LinearMemory} {op : MemoryOperation} {t : Trap}
    (h : (m.perform op).1 = .error t) : (m.perform op).2 = m := by
  have hchanged : ∀ result, (m.changed result).1 = .error t → (m.changed result).2 = m := by
    rintro (_ | m') hresult
    · rfl
    · cases hresult
  cases op with
  | grow delta maximum => cases h
  | slice | readArray | loadLong | loadWide | cString => rfl
  | reset | write | storeWide | copyWithin | fill | modify =>
    simp only [perform] at h ⊢
    exact hchanged _ h

end LinearMemory

/-! ## §4 Operations in sequence -/

/-- The number of pages stays a word. -/
theorem PagedBytes.pages_perform {p : PagedBytes} (h : p.pages < UInt32.size)
    (op : MemoryOperation) : (p.perform op).2.pages < UInt32.size := by
  have hif : ∀ (fits : Prop) [Decidable fits] (p' : PagedBytes), p'.pages < UInt32.size →
      (p.changeIf fits p').2.pages < UInt32.size := by
    intro fits _ p' h'
    unfold changeIf
    split_ifs
    · exact h'
    · exact h
  cases op with
  | reset pages image => exact hif _ _ pages.toNat_lt_size
  | grow delta maximum =>
    simp only [perform]
    split_ifs with hfits
    · exact Nat.lt_of_le_of_lt hfits maximum.toNat_lt_size
    · exact h
  | slice | readArray | loadLong | loadWide | cString => exact h
  | write | storeWide | copyWithin | fill | modify => exact hif _ _ h

theorem LinearMemory.performAll_view (m : LinearMemory) (hpages : m.pages < UInt32.size)
    (operations : List MemoryOperation) :
    ((m.performAll operations).1, (m.performAll operations).2.view) =
      m.view.performAll operations := by
  induction operations generalizing m with
  | nil => rfl
  | cons op rest ih =>
    have hstep := m.shown_perform hpages op
    have hanswer : (m.perform op).1 = (m.view.perform op).1 := congrArg Prod.fst hstep
    have hview : (m.perform op).2.view = (m.view.perform op).2 := congrArg Prod.snd hstep
    have hstill : (m.perform op).2.pages < UInt32.size := by
      have := PagedBytes.pages_perform (p := m.view) hpages op
      rwa [← hview] at this
    have hrest := ih (m.perform op).2 hstill
    rw [hview] at hrest
    simp only [performAll, PagedBytes.performAll, ← hrest, hanswer]

/-- Whatever is done with a memory that starts with zeroed pages (none of them, for the empty
memory), all answers are those of the plain byte array, and so are the size and the bytes
afterwards. The size is a whole number of pages, and an operation that fails then changes
nothing. -/
theorem LinearMemory.performAll_refines (pages : UInt32) (operations : List MemoryOperation) :
    let reached := (withPages pages.toNat).performAll operations
    let meant := (PagedBytes.zeroed pages.toNat).performAll operations
    reached.1 = meant.1 ∧
      reached.2.view = meant.2 ∧
      reached.2.size = meant.2.size ∧
      pageSize ∣ reached.2.size ∧
      ∀ op t, (reached.2.perform op).1 = .error t → (reached.2.perform op).2 = reached.2 := by
  intro reached meant
  have hall : (reached.1, reached.2.view) = meant := by
    have h := performAll_view (withPages pages.toNat) pages.toNat_lt_size operations
    rwa [view_withPages] at h
  have hview : reached.2.view = meant.2 := congrArg Prod.snd hall
  refine ⟨congrArg Prod.fst hall, hview, ?_, ?_, fun op t => perform_of_error⟩
  · rw [← hview, size_view]
  · rw [size_eq]
    exact Nat.dvd_mul_left pageSize reached.2.pages

end MeteredWasm
