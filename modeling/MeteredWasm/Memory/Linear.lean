import MeteredWasm.Endian
import MeteredWasm.Fault

/-!
# Linear memory

The byte-addressed memory of a running module: whole pages of 64 KiB, every access checked against
the active size. A failing operation leaves the memory as it was.
-/

namespace MeteredWasm

/-- The size of a page in bytes. -/
def pageSize : Nat := 65536

/-- One byte, repeated. -/
def repeated (value : UInt8) (n : Nat) : ByteArray :=
  if n = 0 then ByteArray.empty
  else
    let half := repeated value (n / 2)
    if n % 2 = 0 then half ++ half else (half ++ half).push value
termination_by n

theorem size_repeated (value : UInt8) (n : Nat) : (repeated value n).size = n := by
  induction n using Nat.strongRecOn with
  | ind n ih =>
    unfold repeated
    split
    · simp_all
    · next h =>
      have hn := ih (n / 2) (by omega)
      split <;> simp_all [ByteArray.size_push, ByteArray.size_append] <;> omega

/-- A memory of whole pages. -/
structure LinearMemory where
  pages : Nat
  bytes : ByteArray
  size_bytes : bytes.size = pages * pageSize

namespace LinearMemory

/-! ## §1 Size -/

/-- A zeroed memory. -/
def withPages (pages : Nat) : LinearMemory :=
  ⟨pages, repeated 0 (pages * pageSize), size_repeated _ _⟩

/-- The memory without pages. -/
def empty : LinearMemory :=
  withPages 0

instance : Inhabited LinearMemory := ⟨empty⟩

/-- The active size in bytes. -/
def size (m : LinearMemory) : Nat :=
  m.bytes.size

/-- A memory with other contents of the same size. -/
def withBytes (m : LinearMemory) (bytes : ByteArray) (h : bytes.size = m.bytes.size) :
    LinearMemory :=
  ⟨m.pages, bytes, h.trans m.size_bytes⟩

/-- The number of bytes does not change when a range inside is overwritten. -/
theorem size_copySlice (src dest : ByteArray) (start : Nat) (h : start + src.size ≤ dest.size) :
    (src.copySlice 0 dest start src.size).size = dest.size := by
  simp only [ByteArray.copySlice_eq_append, ByteArray.size_append, ByteArray.size_extract]
  simp only [ByteArray.size] at *
  omega

/-! ## §2 Reading -/

/-- The bytes of a range. -/
def slice (m : LinearMemory) (start length : Nat) : Except Trap (List UInt8) :=
  if start + length ≤ m.size then .ok (m.bytes.extract start (start + length)).data.toList
  else .error .outOfBounds

/-- The bytes of a range, as many as asked for. -/
def sliceVector (m : LinearMemory) (start length : Nat) : Except Trap (Vector UInt8 length) :=
  if h : start + length ≤ m.size then
    .ok ⟨(m.bytes.extract start (start + length)).data, by
      have hs : (m.bytes.extract start (start + length)).size = length := by
        simp only [ByteArray.size_extract, size] at *
        omega
      exact hs⟩
  else .error .outOfBounds

/-- A little-endian number of `width` bytes. -/
def load (m : LinearMemory) (start width : Nat) : Except Trap Nat := do
  return ofLittleEndian (← m.slice start width)

/-- The byte at a position; past the end it reads as zero. -/
def byteAt (bytes : ByteArray) (i : Nat) : UInt8 :=
  if h : i < bytes.size then bytes[i] else 0

/-- The number of nonzero bytes from `start` on, at most `count`, counted on from `done`. -/
def scan (bytes : ByteArray) (start : Nat) : (count done : Nat) → Nat
  | 0, done => done
  | count + 1, done =>
    if byteAt bytes (start + done) = 0 then done else scan bytes start count (done + 1)

/-- The bytes before the first zero byte, or the first `limit` bytes if none of them is zero.
Reaching the end of the memory before either is a trap, and so is starting past it. -/
def cString (m : LinearMemory) (start : Nat) (limit : Option Nat) : Except Trap (List UInt8) :=
  if m.size < start then .error .outOfBounds
  else
    let tail := m.size - start
    let window := match limit with
      | some limit => min tail limit
      | none => tail
    let length := scan m.bytes start window 0
    if length < window ∨ limit = some window then
      .ok (m.bytes.extract start (start + length)).data.toList
    else .error .outOfBounds

/-! ## §3 Writing -/

/-- Overwrite a range with the contents of an array. -/
def blit (m : LinearMemory) (start : Nat) (src : ByteArray) : Except Trap LinearMemory :=
  if h : start + src.size ≤ m.size then
    .ok (m.withBytes (src.copySlice 0 m.bytes start src.size) (size_copySlice _ _ _ h))
  else .error .outOfBounds

/-- Overwrite a range with the given bytes. Their number must fit into a word. -/
def write (m : LinearMemory) (start : Nat) (data : List UInt8) : Except Trap LinearMemory :=
  if data.length < UInt32.size then m.blit start data.toByteArray else .error .outOfBounds

/-- Copy a range to another place; the source is read before anything is written. -/
def copyWithin (m : LinearMemory) (dst src length : Nat) : Except Trap LinearMemory :=
  if src + length ≤ m.size then m.blit dst (m.bytes.extract src (src + length))
  else .error .outOfBounds

/-- Set every byte of a range. -/
def fill (m : LinearMemory) (start : Nat) (value : UInt8) (length : Nat) :
    Except Trap LinearMemory :=
  if start + length ≤ m.size then m.blit start (repeated value length)
  else .error .outOfBounds

/-- Replace the bytes of a range by what a function makes of them. -/
def modify (m : LinearMemory) (start length : Nat) (f : Vector UInt8 length → Vector UInt8 length) :
    Except Trap LinearMemory := do
  m.write start (f (← m.sliceVector start length)).toList

/-! ## §4 Resizing -/

/-- Start again with zeroed pages and an image at the beginning. The image must fit. -/
def reset (pages : Nat) (image : ByteArray) : Except Trap LinearMemory :=
  (withPages pages).blit 0 image

/-- Add zeroed pages, unless the new count passes the maximum. Gives the old page count, or minus
one when the memory did not grow. -/
def grow (m : LinearMemory) (delta maximum : Nat) : Int32 × LinearMemory :=
  if m.pages + delta ≤ maximum then
    let grown : LinearMemory :=
      ⟨m.pages + delta, m.bytes ++ repeated 0 (delta * pageSize), by
        simp [ByteArray.size_append, size_repeated, m.size_bytes, Nat.add_mul]⟩
    (Int32.ofNat m.pages, grown)
  else (-1, m)

end LinearMemory

end MeteredWasm
