import MeteredWasm.Proofs.Memory.Refinement
import MeteredWasm.Proofs.Sandbox.MemoryLimits

/-!
# The initial image is what the data segments describe

Each byte of a fresh memory is put there by the last data segment that reaches its place. The image
of a module, laid into zeroed pages, has these bytes, and so have zeroed pages into which the
segments are written one after the other. Both go through together, but for an empty segment at the
end of the memory, which can be written and is refused as a part of the image.
-/

namespace MeteredWasm

open Wasm (DataSegment Limits Module)

/-! ## §1 Segments -/

namespace Wasm.DataSegment

/-- The place behind the last byte of the segment. -/
def stop (s : DataSegment) : Nat :=
  s.offset + s.bytes.length

/-- The byte that the segment has for a place. -/
def byte? (s : DataSegment) (i : Nat) : Option UInt8 :=
  if s.offset ≤ i then s.bytes[i - s.offset]? else none

theorem byte?_getD (s : DataSegment) (i : Nat) (old : UInt8) :
    (s.byte? i).getD old =
      if s.offset ≤ i ∧ i < s.offset + s.bytes.length
      then LinearMemory.byteAt s.bytes.toByteArray (i - s.offset) else old := by
  rw [byte?, LinearMemory.byteAt_toByteArray]
  by_cases hbefore : s.offset ≤ i
  · rw [if_pos hbefore]
    by_cases hinside : i < s.offset + s.bytes.length
    · have hlt : i - s.offset < s.bytes.length := by omega
      rw [if_pos ⟨hbefore, hinside⟩, List.getElem?_eq_getElem hlt, Option.getD_some,
        Option.getD_some]
    · have hle : s.bytes.length ≤ i - s.offset := by omega
      rw [if_neg fun h => hinside h.2, List.getElem?_eq_none hle, Option.getD_none]
  · rw [if_neg hbefore, if_neg fun h => hbefore h.1, Option.getD_none]

end Wasm.DataSegment

/-- The byte for a place of the last segment that reaches there. In the gaps there are zeros. -/
def describedByte (segments : List DataSegment) (i : Nat) : UInt8 :=
  (segments.filterMap (·.byte? i)).getLastD 0

/-- If each step puts the bytes of a segment in place, then after all of them each place has the
byte of the last segment that reaches there. -/
theorem byte_of_foldlM {β ε : Type} {step : β → DataSegment → Except ε β} (byte : β → Nat → UInt8)
    (hstep : ∀ {b s b'}, step b s = .ok b' → ∀ i, byte b' i = (s.byte? i).getD (byte b i))
    {segments : List DataSegment} {b b' : β} (h : segments.foldlM step b = .ok b') (i : Nat) :
    byte b' i = (segments.filterMap (·.byte? i)).getLastD (byte b i) := by
  induction segments generalizing b with
  | nil =>
    cases h
    rfl
  | cons s rest ih =>
    rw [List.foldlM_cons] at h
    obtain ⟨next, hnext, hrest⟩ := Except.bind_eq_ok.mp h
    rw [ih hrest, hstep hnext]
    cases hbyte : s.byte? i with
    | none => rw [List.filterMap_cons, hbyte, Option.getD_none]
    | some value => rw [List.filterMap_cons, hbyte, Option.getD_some, List.getLastD_cons]

/-! ## §2 Writing segments -/

namespace LinearMemory

/-- Write data segments, one after the other. -/
def writeSegments (m : LinearMemory) (segments : List DataSegment) : Except Trap LinearMemory :=
  segments.foldlM (fun m s => m.write s.offset s.bytes) m

theorem byteAt_write {m m' : LinearMemory} {s : DataSegment}
    (h : m.write s.offset s.bytes = .ok m') (i : Nat) :
    byteAt m'.bytes i = (s.byte? i).getD (byteAt m.bytes i) := by
  unfold write at h
  split_ifs at h
  rw [byteAt_blit h, s.byte?_getD, List.size_toByteArray]

theorem write_succeeds_iff {m : LinearMemory} {s : DataSegment}
    (hs : s.bytes.length < UInt32.size) :
    (∃ m', m.write s.offset s.bytes = .ok m') ↔ s.stop ≤ m.pages * pageSize := by
  have hfits : s.stop ≤ m.pages * pageSize ↔ s.offset + s.bytes.toByteArray.size ≤ m.size := by
    rw [size_eq, List.size_toByteArray, DataSegment.stop]
  rw [write, if_pos hs, blit, hfits]
  constructor
  · rintro ⟨m', h⟩
    split_ifs at h with hin
    exact hin
  · intro hin
    exact ⟨_, dif_pos hin⟩

theorem pages_of_writeSegments {m m' : LinearMemory} {segments : List DataSegment}
    (h : m.writeSegments segments = .ok m') : m'.pages = m.pages :=
  foldlM_invariant (fun m' => m'.pages = m.pages)
    (fun hwrite hpages => (pages_of_write hwrite).trans hpages) h rfl

/-- The segments are written if each of them fits. -/
theorem writeSegments_succeeds_iff (m : LinearMemory) {segments : List DataSegment}
    (hsegments : ∀ s ∈ segments, s.bytes.length < UInt32.size) :
    (∃ m', m.writeSegments segments = .ok m') ↔
      ∀ s ∈ segments, s.stop ≤ m.pages * pageSize := by
  refine foldlM_succeeds_iff (fun m' => m'.pages = m.pages) ?_ ?_ rfl
  · intro m' s hs hpages
    rw [write_succeeds_iff (hsegments s hs), hpages]
  · exact fun hwrite hpages => (pages_of_write hwrite).trans hpages

/-- What zeroed pages look like once segments are written. -/
theorem view_of_writeSegments {pages : Nat} {segments : List DataSegment} {m : LinearMemory}
    (h : (withPages pages).writeSegments segments = .ok m) :
    m.view = ⟨pages, describedByte segments⟩ := by
  have hbytes (i : Nat) : byteAt m.bytes i = describedByte segments i := by
    have hbyte := byte_of_foldlM (fun m => byteAt m.bytes) byteAt_write h i
    rwa [byteAt_withPages] at hbyte
  unfold view
  rw [funext hbytes, pages_of_writeSegments h]
  rfl

/-- A memory is its pages and its bytes. -/
theorem view_injective {m m' : LinearMemory} (h : m.view = m'.view) : m = m' := by
  have hpages : m.pages = m'.pages := congrArg PagedBytes.pages h
  have hbyte (i : Nat) : byteAt m.bytes i = byteAt m'.bytes i :=
    congrFun (congrArg PagedBytes.byte h) i
  have hsize : m.bytes.size = m'.bytes.size := by
    rw [m.size_bytes, m'.size_bytes, hpages]
  have hbytes : m.bytes = m'.bytes := by
    apply ByteArray.ext
    apply Array.ext hsize
    intro i hi hi'
    have hsame := hbyte i
    rwa [byteAt_eq_getD, byteAt_eq_getD, Array.getElem?_eq_getElem hi,
      Array.getElem?_eq_getElem hi', Option.getD_some, Option.getD_some] at hsame
  cases m
  cases m'
  cases hpages
  cases hbytes
  rfl

end LinearMemory

/-! ## §3 Overlays -/

namespace Metering

theorem byteAt_overlay (image : ByteArray) (s : DataSegment) (i : Nat) :
    LinearMemory.byteAt (overlay image s) i =
      (s.byte? i).getD (LinearMemory.byteAt image i) := by
  have hsize : s.bytes.toByteArray.size = s.bytes.length := List.size_toByteArray
  have hpadded (i : Nat) : LinearMemory.byteAt
      (image ++ repeated 0 (s.offset + s.bytes.length - image.size)) i =
      LinearMemory.byteAt image i := by
    rw [LinearMemory.byteAt_append, LinearMemory.byteAt_repeated, ite_self]
    split_ifs with hin
    · rfl
    · exact (LinearMemory.byteAt_of_size_le (Nat.le_of_not_lt hin)).symm
  have hfits : s.offset + s.bytes.toByteArray.size ≤
      (image ++ repeated 0 (s.offset + s.bytes.length - image.size)).size := by
    rw [hsize, ByteArray.size_append, size_repeated]
    omega
  have hbyte := LinearMemory.byteAt_copySlice hfits i
  rw [hsize, hpadded] at hbyte
  rw [overlay, hbyte, s.byte?_getD]

theorem overlayWithin_eq_ok {size : Nat} {image image' : ByteArray} {s : DataSegment} :
    overlayWithin size image s = .ok image' ↔
      (s.offset < size ∧ s.stop ≤ size) ∧ overlay image s = image' := by
  unfold overlayWithin
  split_ifs with hin
  · exact ⟨fun h => ⟨hin, Except.ok.inj h⟩, fun h => congrArg Except.ok h.2⟩
  · exact ⟨(nomatch ·), fun h => absurd h.1 hin⟩

theorem byteAt_overlayWithin {size : Nat} {image image' : ByteArray} {s : DataSegment}
    (h : overlayWithin size image s = .ok image') (i : Nat) :
    LinearMemory.byteAt image' i = (s.byte? i).getD (LinearMemory.byteAt image i) := by
  obtain ⟨-, rfl⟩ := overlayWithin_eq_ok.mp h
  exact byteAt_overlay image s i

/-- An image ends with the segment that ends last. -/
theorem size_of_overlays_eq {size : Nat} {segments : List DataSegment} {image image' : ByteArray}
    (h : segments.foldlM (overlayWithin size) image = .ok image') :
    image'.size = (segments.map DataSegment.stop).foldl max image.size := by
  induction segments generalizing image with
  | nil =>
    obtain rfl := Except.pure_eq_ok.mp h
    rfl
  | cons s rest ih =>
    rw [List.foldlM_cons] at h
    obtain ⟨next, hnext, hrest⟩ := Except.bind_eq_ok.mp h
    obtain ⟨-, rfl⟩ := overlayWithin_eq_ok.mp hnext
    rw [ih hrest, size_overlay]
    rfl

theorem overlays_succeed_iff {size : Nat} {segments : List DataSegment} (image : ByteArray) :
    (∃ image', segments.foldlM (overlayWithin size) image = .ok image') ↔
      ∀ s ∈ segments, s.offset < size ∧ s.stop ≤ size := by
  refine foldlM_succeeds_iff (fun _ => True) ?_ (fun _ _ => trivial) trivial
  intro image s _ _
  simp only [overlayWithin_eq_ok, exists_and_left, exists_eq', and_true]

/-! ## §4 Images of modules -/

theorem initialImage_eq_overlays {m : Module} {l : Limits} (h : m.memoryLimits? = some l) :
    initialImage m = m.data.foldlM (overlayWithin (l.initial * pageSize)) ByteArray.empty := by
  unfold initialImage
  split_ifs with hempty
  · rw [List.isEmpty_iff.mp hempty]
    rfl
  · rw [h]

open Wasm Wasm.Layout in
/-- The bytes of a decoded segment are counted by a word. -/
theorem length_bytes_of_decode {wasm : List UInt8} {m : Module} (h : Module.decode wasm = .ok m)
    {s : DataSegment} (hs : s ∈ m.data) : s.bytes.length < UInt32.size := by
  obtain ⟨layout, _, hparse, -, hmodule⟩ := decode_eq_ok.mp h
  obtain ⟨_, _, -, hdata, rfl⟩ := toModule_eq_ok.mp hmodule
  obtain ⟨d, hd, hsegment⟩ := exists_mem_left hdata hs
  obtain ⟨_, _, hactive, rfl⟩ := data_toSegment_eq_ok.mp hsegment
  obtain ⟨_, _, hrun⟩ := (parse_parsed hparse).data.exists_run hd
  obtain ⟨_, _, _, -, -, hlength, -⟩ := dataSegment_parts hrun hactive
  exact Parser.u32_lt hlength

/-- Laying the image of a decoded module into the initial pages always goes through, whatever memory
there was before, and leaves what writing the segments into zeroed pages one after the other leaves:
the memory that the segments describe. The image ends where the last of them ends. -/
theorem initialImage_describes {wasm : List UInt8} {m : Module} {image : ByteArray}
    (hdecode : Module.decode wasm = .ok m) (himage : initialImage m = .ok image) :
    let pages := m.memoryLimits?.elim 0 Limits.initial
    ∃ memory : LinearMemory,
      (∀ before : LinearMemory,
        before.changed (LinearMemory.reset pages image) = (.ok .done, memory)) ∧
      (LinearMemory.withPages pages).writeSegments m.data = .ok memory ∧
      memory.view = ⟨pages, describedByte m.data⟩ ∧
      image.size = (m.data.map DataSegment.stop).max?.getD 0 := by
  intro pages
  have hoverlays := overlays_of_initialImage himage
  have hfit := (overlays_succeed_iff ByteArray.empty).mp ⟨image, hoverlays⟩
  obtain ⟨memory, hreset⟩ := LinearMemory.reset_of_le (size_of_initialImage himage)
  obtain ⟨written, hwritten⟩ :=
    ((LinearMemory.withPages pages).writeSegments_succeeds_iff
      fun s hs => length_bytes_of_decode hdecode hs).mpr fun s hs => (hfit s hs).2
  have hview := LinearMemory.view_of_writeSegments hwritten
  have hsame : memory = written := by
    apply LinearMemory.view_injective
    rw [hview, LinearMemory.view_of_reset hreset]
    congr 1
    funext i
    exact byte_of_foldlM LinearMemory.byteAt byteAt_overlayWithin hoverlays i
  subst hsame
  refine ⟨memory, fun before => ?_, hwritten, hview, ?_⟩
  · rw [hreset]
    rfl
  · rw [size_of_overlays_eq hoverlays]
    cases m.data with
    | nil => rfl
    | cons s rest =>
      rw [List.map_cons, List.foldl_cons, List.max?_cons', Option.getD_some, ByteArray.size_empty,
        Nat.zero_max]

/-- The binary form of a module with a page and three data segments. The first two leave a gap, and
the last one covers the end of the first. -/
def overlappingSegments : List UInt8 :=
  [0, 97, 115, 109, 1, 0, 0, 0, 5, 3, 1, 0, 1, 11, 21, 3, 0, 65, 4, 11, 2, 97, 98,
    0, 65, 0, 11, 2, 120, 121, 0, 65, 5, 11, 1, 90]

def ofOverlappingSegments : Module :=
  { (default : Module) with
    memory := some ⟨1, none⟩
    data := [⟨4, [97, 98]⟩, ⟨0, [120, 121]⟩, ⟨5, [90]⟩] }

theorem initialImage_describes_overlapping :
    Module.decode overlappingSegments = .ok ofOverlappingSegments ∧
      initialImage ofOverlappingSegments = .ok ⟨#[120, 121, 0, 0, 97, 90]⟩ ∧
      ∃ memory : LinearMemory,
        (∀ before : LinearMemory,
          before.changed (LinearMemory.reset 1 ⟨#[120, 121, 0, 0, 97, 90]⟩) = (.ok .done, memory)) ∧
        (LinearMemory.withPages 1).writeSegments ofOverlappingSegments.data = .ok memory ∧
        [3, 4, 5, 6].map memory.view.byte = [0, 97, 90, 0] := by
  have hdecode : Module.decode overlappingSegments = .ok ofOverlappingSegments := by decide +kernel
  have himage : initialImage ofOverlappingSegments = .ok ⟨#[120, 121, 0, 0, 97, 90]⟩ := by
    decide +kernel
  obtain ⟨memory, hreset, hwritten, hview, -⟩ := initialImage_describes hdecode himage
  refine ⟨hdecode, himage, memory, hreset, hwritten, ?_⟩
  rw [hview]
  decide +kernel

theorem segment_refused_iff (size : Nat) (s : DataSegment) :
    ¬(s.offset < size ∧ s.stop ≤ size) ↔ size < s.stop ∨ s.bytes = [] ∧ s.offset = size := by
  rw [DataSegment.stop, ← List.length_eq_zero_iff]
  omega

/-- With a memory, the segments of a decoded module can be written one after the other exactly if
all of them end within the initial pages. Then it has an image, too, unless an empty segment stands
at the very end of these pages. -/
theorem initialImage_fails_iff {wasm : List UInt8} {m : Module} {l : Limits}
    (hdecode : Module.decode wasm = .ok m) (hlimits : m.memoryLimits? = some l) :
    ((∃ trap, (LinearMemory.withPages l.initial).writeSegments m.data = .error trap) ↔
      ∃ s ∈ m.data, l.initial * pageSize < s.stop) ∧
    ((∃ fault, initialImage m = .error fault) ↔
      (∃ trap, (LinearMemory.withPages l.initial).writeSegments m.data = .error trap) ∨
        ∃ s ∈ m.data, s.bytes = [] ∧ s.offset = l.initial * pageSize) := by
  have hwrites : (∃ trap, (LinearMemory.withPages l.initial).writeSegments m.data = .error trap) ↔
      ∃ s ∈ m.data, l.initial * pageSize < s.stop := by
    rw [Except.fails_iff, LinearMemory.writeSegments_succeeds_iff _
      fun s hs => length_bytes_of_decode hdecode hs]
    simp only [not_forall, Nat.not_le, exists_prop]
    rfl
  refine ⟨hwrites, ?_⟩
  rw [hwrites, initialImage_eq_overlays hlimits, Except.fails_iff, overlays_succeed_iff]
  simp only [not_forall, segment_refused_iff, exists_prop, and_or_left, exists_or]

/-- The binary form of a module with a page and a data segment of two bytes, which starts at the
last byte of the page. -/
def segmentPastEnd : List UInt8 :=
  [0, 97, 115, 109, 1, 0, 0, 0, 5, 3, 1, 0, 1, 11, 10, 1, 0, 65, 255, 255, 3, 11, 2, 97, 98]

def ofSegmentPastEnd : Module :=
  { (default : Module) with memory := some ⟨1, none⟩, data := [⟨65535, [97, 98]⟩] }

theorem initialImage_fails_iff_pastEnd :
    Module.decode segmentPastEnd = .ok ofSegmentPastEnd ∧
      ofSegmentPastEnd.memoryLimits? = some ⟨1, none⟩ ∧
      (∃ trap, (LinearMemory.withPages 1).writeSegments ofSegmentPastEnd.data = .error trap) ∧
      ∃ fault, initialImage ofSegmentPastEnd = .error fault := by
  have hdecode : Module.decode segmentPastEnd = .ok ofSegmentPastEnd := by decide +kernel
  obtain ⟨hwrites, himage⟩ := initialImage_fails_iff hdecode rfl
  have hfails := hwrites.mpr ⟨⟨65535, [97, 98]⟩, List.mem_singleton_self _, by decide⟩
  exact ⟨hdecode, rfl, hfails, himage.mpr (.inl hfails)⟩

/-- The binary form of a module with a memory without pages and an empty data segment. -/
def emptySegment : List UInt8 :=
  [0, 97, 115, 109, 1, 0, 0, 0, 5, 3, 1, 0, 0, 11, 6, 1, 0, 65, 0, 11, 0]

def ofEmptySegment : Module :=
  { (default : Module) with memory := some ⟨0, none⟩, data := [⟨0, []⟩] }

/-- An empty segment at the end of the memory ends within it and can be written, and is refused. -/
theorem initialImage_refuses_empty :
    Module.decode emptySegment = .ok ofEmptySegment ∧
      ofEmptySegment.memoryLimits? = some ⟨0, none⟩ ∧
      (∀ s ∈ ofEmptySegment.data, s.stop ≤ 0 * pageSize) ∧
      (∃ memory, (LinearMemory.withPages 0).writeSegments ofEmptySegment.data = .ok memory) ∧
      initialImage ofEmptySegment = .error .dataOutsideMemory :=
  ⟨by decide +kernel, rfl, by decide, ⟨_, rfl⟩, by decide +kernel⟩

end Metering

end MeteredWasm
