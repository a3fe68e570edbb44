import MeteredWasm.Proofs.Sandbox.Namespaces

/-!
# Limits of memories

The limits of a memory go a long way: from what a module declares, under the ceiling, to the module
that is built, and into the context of every call. There they hold from the moment when the memory
is set up, whatever intrinsics are called and however the memory is grown.
-/

namespace MeteredWasm

open Wasm (Limits Module Value)

variable {σ Inst ω : Type}

/-! ## §1 Declared limits -/

namespace Wasm

/-- The maximum of a memory that a module defines is not less than its initial size. -/
theorem limitsOrdered_of_decode {code : List UInt8} {m : Module} (h : Module.decode code = .ok m)
    {l : Limits} (hl : m.memory = some l) : Layout.limitsOrdered l = true := by
  obtain ⟨layout, functions, -, hvalid, hmodule⟩ := Layout.decode_eq_ok.mp h
  obtain ⟨_, _, -, -, rfl⟩ := Layout.toModule_eq_ok.mp hmodule
  have hmem : l ∈ layout.allMemories :=
    List.mem_append_right _ (List.mem_of_mem_head? hl)
  have hall := List.all_eq_true.mp hvalid.memories l hmem
  simp only [Layout.memoryLimits, Bool.and_eq_true] at hall
  exact hall.1.1

end Wasm

namespace Metering

/-- Clamped limits are within the ceiling. -/
theorem clampLimits_within {ceiling : Nat} {l l' : Limits} (h : clampLimits ceiling l = .ok l')
    (hordered : Wasm.Layout.limitsOrdered l = true) :
    ∃ maximum, l'.maximum = some maximum ∧ l'.initial ≤ maximum ∧ maximum ≤ ceiling := by
  unfold clampLimits at h
  split_ifs at h with hceiling
  cases h
  refine ⟨_, rfl, Nat.le_min.mpr ⟨?_, Nat.le_of_not_lt hceiling⟩, Nat.min_le_right _ _⟩
  unfold Wasm.Layout.limitsOrdered at hordered
  cases hmaximum : l.maximum with
  | none => exact Nat.le_of_not_lt hceiling
  | some maximum =>
    rw [hmaximum] at hordered
    exact of_decide_eq_true hordered

/-- Where nothing but functions is imported, the memory of an instrumented module is that of the
original, clamped. -/
theorem memory_of_instrument {code : List UInt8} {maxPages : Nat} {out : Instrumented}
    (h : instrument code maxPages = .ok out)
    (himports : ∀ i ∈ out.module.imports, ∃ type, i.kind = .function type) :
    ∃ m, Module.decode code = .ok m ∧
      m.memory.mapM (clampLimits maxPages) = .ok out.module.memoryLimits? := by
  obtain ⟨m, hdecode, hclamp, hmodule, -⟩ := instrument_eq_ok h
  refine ⟨m, hdecode, ?_⟩
  have hnone : out.module.imports.findSome? Wasm.Import.memory? = none := by
    rw [List.findSome?_eq_none_iff]
    intro i hi
    obtain ⟨type, hkind⟩ := himports i hi
    rw [Wasm.Import.memory?, hkind]
  rw [Module.memoryLimits?, hnone, Option.or_none, hmodule, (instrumentBodies_injects _).memory]
  unfold clampMemory at hclamp ⊢
  cases hmemory : m.memory.mapM (clampLimits maxPages) with
  | error e =>
    rw [hmemory] at hclamp
    cases hclamp
  | ok memory => rfl

/-! ## §2 Images -/

theorem size_overlay (image : ByteArray) (s : Wasm.DataSegment) :
    (overlay image s).size = max image.size (s.offset + s.bytes.length) := by
  have hpadded : (image ++ repeated 0 (s.offset + s.bytes.length - image.size)).size =
      max image.size (s.offset + s.bytes.length) := by
    rw [ByteArray.size_append, size_repeated]
    omega
  have hbytes : s.bytes.toByteArray.size = s.bytes.length := List.size_toByteArray
  unfold overlay
  rw [← hbytes, LinearMemory.size_copySlice, hbytes, hpadded]
  rw [hbytes, hpadded]
  exact Nat.le_max_right _ _

/-- An image stays within the memory, segment by segment. -/
theorem size_of_overlays {size : Nat} {segments : List Wasm.DataSegment} {image image' : ByteArray}
    (h : segments.foldlM (overlayWithin size) image = .ok image') (himage : image.size ≤ size) :
    image'.size ≤ size := by
  refine foldlM_invariant (fun image => image.size ≤ size) (fun hstep hle => ?_) h himage
  unfold overlayWithin at hstep
  split_ifs at hstep with hin
  cases hstep
  rw [size_overlay]
  exact Nat.max_le.mpr ⟨hle, hin.2⟩

/-- With no memory there are no segments, and then it does not matter how many pages there are. -/
theorem overlays_of_initialImage {m : Module} {image : ByteArray} (h : initialImage m = .ok image) :
    m.data.foldlM (overlayWithin (m.memoryLimits?.elim 0 Limits.initial * pageSize))
      ByteArray.empty = .ok image := by
  unfold initialImage at h
  split_ifs at h with hempty
  · rw [List.isEmpty_iff.mp hempty]
    exact h
  · cases hlimits : m.memoryLimits? with
    | none =>
      rw [hlimits] at h
      cases h
    | some l =>
      rw [hlimits] at h
      exact h

theorem size_of_initialImage {m : Module} {image : ByteArray} (h : initialImage m = .ok image) :
    image.size ≤ m.memoryLimits?.elim 0 Limits.initial * pageSize :=
  size_of_overlays (overlays_of_initialImage h) (Nat.zero_le _)

theorem initialImage_of_instrument {code : List UInt8} {maxPages : Nat} {out : Instrumented}
    (h : instrument code maxPages = .ok out) : initialImage out.module = .ok out.image := by
  rw [instrument_eq] at h
  obtain ⟨m, -, h⟩ := Except.bind_eq_ok.mp h
  obtain ⟨_, -, h⟩ := Except.bind_eq_ok.mp h
  obtain ⟨image, himage, h⟩ := Except.bind_eq_ok.mp h
  obtain rfl := Except.pure_eq_ok.mp h
  exact himage

/-- The initial size and the maximum that a module is built with are ordered and within the ceiling,
and both are zero without a memory. -/
theorem memoryPages_within {code : List UInt8} {maxPages : Nat} {out : Instrumented}
    (h : instrument code maxPages = .ok out)
    (himports : ∀ i ∈ out.module.imports, ∃ type, i.kind = .function type) :
    out.image.size ≤ out.memoryPages.1 * pageSize ∧
      out.memoryPages.1 ≤ out.memoryPages.2 ∧ out.memoryPages.2 ≤ maxPages ∧
      ∀ m, Module.decode code = .ok m → m.memoryLimits? = none → out.memoryPages.2 = 0 := by
  obtain ⟨m, hdecode, hclamped⟩ := memory_of_instrument h himports
  have himage := size_of_initialImage (initialImage_of_instrument h)
  unfold Instrumented.memoryPages
  -- a memory is defined or there is none, as nothing but functions is imported
  cases hmemory : m.memory with
  | none =>
    rw [hmemory, Option.mapM_none] at hclamped
    rw [← Except.pure_eq_ok.mp hclamped] at himage ⊢
    exact ⟨himage, Nat.le_refl 0, Nat.zero_le _, fun _ _ _ => rfl⟩
  | some l =>
    obtain ⟨l', hl', hsome⟩ : ∃ l', clampLimits maxPages l = .ok l' ∧
        some l' = out.module.memoryLimits? := by
      rw [hmemory, Option.mapM_some] at hclamped
      cases hl' : clampLimits maxPages l with
      | error e =>
        rw [hl'] at hclamped
        cases hclamped
      | ok l' =>
        rw [hl'] at hclamped
        exact ⟨l', rfl, Except.ok.inj hclamped⟩
    obtain ⟨maximum, hmaximum, hinitial, hceiling⟩ :=
      clampLimits_within hl' (Wasm.limitsOrdered_of_decode hdecode hmemory)
    rw [← hsome] at himage ⊢
    -- after the clamp the maximum is there, so that its default does not matter
    simp only [hmaximum, Option.getD_some]
    refine ⟨himage, hinitial, hceiling, ?_⟩
    intro m' hdecode' hnone
    obtain rfl := Except.ok.inj (hdecode.symm.trans hdecode')
    rw [Module.memoryLimits?, hmemory] at hnone
    cases hnone

end Metering

/-! ## §3 Loaded modules -/

namespace Loaded

/-- The image of what was built fits into its initial pages, which are not more than its maximum,
and the maximum keeps to the ceiling. Without a memory there are no pages. -/
theorem build_within {engine : Engine σ Inst} {maxPages : Nat} {code : List UInt8} {s : σ}
    {l : Loaded Inst} (h : (build engine maxPages code s).1 = .ok l) :
    l.image.size ≤ l.initialPages * pageSize ∧ l.initialPages ≤ l.maxPages ∧
      l.maxPages ≤ maxPages ∧
      ∀ m, Module.decode code = .ok m → m.memoryLimits? = none → l.maxPages = 0 := by
  obtain ⟨out, intrinsics, inst, hout, hlink, rfl⟩ := build_eq_ok h
  exact Metering.memoryPages_within hout fun i => Visibility.functions_of_link hlink

/-- The context in which a module is invoked. -/
def entered (l : Loaded Inst) (memory : LinearMemory) (c : Context ω) : Context ω :=
  { c with memory := memory, maxPages := l.maxPages }

/-- With a memory that could be set up, calling an exported function is invoking it. -/
theorem exec_call {l : Loaded Inst} {memory : LinearMemory}
    (hreset : LinearMemory.reset l.initialPages l.image = .ok memory) {name : String}
    {signature : Wasm.Signature} (hexport : l.exports.lookup name = some signature)
    {args : List Value} (harity : signature.params.length = args.length) (engine : Engine σ Inst)
    (host : Host (World σ Inst)) (c : Context (World σ Inst)) :
    (l.call engine host name args).exec c =
      let invoked := (engine.invoke host l.inst name args).exec (l.entered memory c)
      (afterExit invoked.1, invoked.2) := by
  unfold call
  have hfits : ¬signature.params.length ≠ args.length := not_not_intro harity
  simp only [hexport, if_neg hfits, hreset]
  exact Session.exec_bind_ok (Session.exec_changeMemory_ok (f := fun _ => .ok memory) rfl)

end Loaded

/-! ## §4 Running -/

/-- What a running module does, as far as its memory is concerned. -/
inductive Move where
  | call (i : Intrinsic) (args : List Value)
  | grow (delta : UInt32)
  | store (start : UInt32) (bytes : List UInt8)

/-- The context after a move, whatever came of it. -/
def Move.perform (host : Host ω) (c : Context ω) : Move → Context ω
  | .call i args => ((i.call host args).exec c).2
  | .grow delta => ((Session.growMemory delta.toNat).exec c).2
  | .store start bytes => ((Session.write start bytes).exec c).2

/-- The context after some moves. -/
def afterMoves (host : Host ω) (c : Context ω) (moves : List Move) : Context ω :=
  moves.foldl (Move.perform host) c

namespace Session

/-- What steps are made of does not change the number of pages, nor the limit. -/
theorem frame_pages (host : Host ω) :
    Frame host (fun _ => True) fun c c' =>
      c'.memory.pages = c.memory.pages ∧ c'.maxPages = c.maxPages where
  refl _ := ⟨rfl, rfl⟩
  trans _ _ _ h₁ h₂ := ⟨h₂.1.trans h₁.1, h₂.2.trans h₁.2⟩
  memory _ _ h := ⟨h, rfl⟩
  console _ _ := ⟨rfl, rfl⟩
  answer _ _ _ := ⟨rfl, rfl⟩

variable {c : Context ω} {delta : Nat}

theorem exec_growMemory_of_lt (h : c.maxPages < c.memory.pages + delta) :
    (growMemory delta).exec c = (.ok (-1), c) := by
  show (Except.ok (c.memory.grow delta c.maxPages).1,
    { c with memory := (c.memory.grow delta c.maxPages).2 }) = _
  rw [LinearMemory.grow_of_lt h]

theorem exec_growMemory_of_le (h : c.memory.pages + delta ≤ c.maxPages) :
    ∃ grown : LinearMemory, grown.pages = c.memory.pages + delta ∧
      (growMemory delta).exec c =
        (.ok (Int32.ofNat c.memory.pages), { c with memory := grown }) := by
  obtain ⟨grown, hgrow, hpages, -⟩ := LinearMemory.grow_of_le h
  refine ⟨grown, hpages, ?_⟩
  show (Except.ok (c.memory.grow delta c.maxPages).1,
    { c with memory := (c.memory.grow delta c.maxPages).2 }) = _
  rw [hgrow]

/-- A number of pages is not read as minus one. -/
theorem ofNat_ne_minusOne {pages : Nat} (h : pages < UInt32.size - 1) :
    Int32.ofNat pages ≠ -1 := by
  intro heq
  have hbits : (Int32.ofNat pages).toBitVec.toNat = (-1 : Int32).toBitVec.toNat := by rw [heq]
  have hpages : (Int32.ofNat pages).toBitVec.toNat = pages % 2 ^ 32 := BitVec.toNat_ofNat pages 32
  have hminus : (-1 : Int32).toBitVec.toNat = 2 ^ 32 - 1 := by decide
  have hsize : UInt32.size = 2 ^ 32 := rfl
  omega

/-- Growing is refused with minus one where it would pass the limit, and only there. -/
theorem exec_growMemory_eq_minusOne (h : c.memory.pages < UInt32.size - 1) :
    ((growMemory delta).exec c).1 = .ok (-1) ↔ c.maxPages < c.memory.pages + delta := by
  constructor
  · intro hrefused
    by_contra hle
    obtain ⟨grown, -, hexec⟩ := exec_growMemory_of_le (Nat.le_of_not_lt hle)
    rw [hexec] at hrefused
    exact ofNat_ne_minusOne h (Except.ok.inj hrefused)
  · intro hlt
    rw [exec_growMemory_of_lt hlt]

end Session

/-- A move keeps the number of pages between its bounds. -/
theorem Move.perform_within (host : Host ω) {c : Context ω} {low : Nat}
    (h : low ≤ c.memory.pages ∧ c.memory.pages ≤ c.maxPages) (move : Move) :
    (low ≤ (move.perform host c).memory.pages ∧
      (move.perform host c).memory.pages ≤ (move.perform host c).maxPages) ∧
    (move.perform host c).maxPages = c.maxPages := by
  -- what leaves the number of pages alone keeps it within its bounds
  have hkept : ∀ c' : Context ω,
      c'.memory.pages = c.memory.pages ∧ c'.maxPages = c.maxPages →
      (low ≤ c'.memory.pages ∧ c'.memory.pages ≤ c'.maxPages) ∧ c'.maxPages = c.maxPages := by
    rintro c' ⟨hpages, hmax⟩
    rw [hpages, hmax]
    exact ⟨h, rfl⟩
  cases move with
  | call i args =>
    exact hkept _ (i.call_frame (Session.frame_pages host) (fun _ _ => ⟨rfl, rfl⟩) args c)
  | store start bytes =>
    have hsteps : Session.Steps host host (fun _ => True) (Session.write start bytes)
        (Session.write start bytes) := .write start bytes
    exact hkept _ (hsteps.frame (Session.frame_pages host) c.world c)
  | grow delta =>
    rw [perform]
    by_cases hle : c.memory.pages + delta.toNat ≤ c.maxPages
    · obtain ⟨grown, hpages, hexec⟩ := Session.exec_growMemory_of_le hle
      rw [hexec]
      refine ⟨⟨?_, ?_⟩, rfl⟩
      · show low ≤ grown.pages
        rw [hpages]
        exact Nat.le_trans h.1 (Nat.le_add_right _ _)
      · show grown.pages ≤ c.maxPages
        rw [hpages]
        exact hle
    · rw [Session.exec_growMemory_of_lt (Nat.lt_of_not_le hle)]
      exact ⟨h, rfl⟩

/-- Moves keep the number of pages between its bounds. -/
theorem afterMoves_within (host : Host ω) {c : Context ω} {low : Nat}
    (h : low ≤ c.memory.pages ∧ c.memory.pages ≤ c.maxPages) (moves : List Move) :
    (low ≤ (afterMoves host c moves).memory.pages ∧
      (afterMoves host c moves).memory.pages ≤ (afterMoves host c moves).maxPages) ∧
    (afterMoves host c moves).maxPages = c.maxPages := by
  induction moves generalizing c with
  | nil => exact ⟨h, rfl⟩
  | cons move rest ih =>
    obtain ⟨hwithin, hmax⟩ := move.perform_within host h
    obtain ⟨hrest, hmaxRest⟩ := ih hwithin
    exact ⟨hrest, hmaxRest.trans hmax⟩

/-- Whatever was built can be called: its image fits into its memory. From then on, whatever it
calls and however it grows its memory, the number of pages is between the initial one and the
maximum, which keeps to the ceiling; without a memory it is zero. Growing answers with the number of
pages before, or is refused with minus one, and changes nothing, where it would pass the maximum.
Memories of 2³² - 1 pages, whose number reads as minus one as well, are beyond any machine. -/
theorem build_keepsLimits {engine : Engine σ Inst} {config : Config} {code : List UInt8} {s : σ}
    {l : Loaded Inst} (h : (Loaded.build engine config.maxMemoryPages code s).1 = .ok l) :
    l.initialPages ≤ l.maxPages ∧ l.maxPages ≤ config.maxMemoryPages ∧
    ∃ memory, LinearMemory.reset l.initialPages l.image = .ok memory ∧
      (∀ (host : Host (World σ Inst)) (name : String) (args : List Value)
        (signature : Wasm.Signature) (c : Context (World σ Inst)),
        l.exports.lookup name = some signature → signature.params.length = args.length →
        (l.call engine host name args).exec c =
          let invoked := (engine.invoke host l.inst name args).exec (l.entered memory c)
          (Loaded.afterExit invoked.1, invoked.2)) ∧
      ∀ (host : Host (World σ Inst)) (c : Context (World σ Inst)) (moves : List Move),
        let reached := afterMoves host (l.entered memory c) moves
        l.initialPages ≤ reached.memory.pages ∧ reached.memory.pages ≤ l.maxPages ∧
        (∀ m, Module.decode code = .ok m → m.memoryLimits? = none →
          reached.memory.pages = 0) ∧
        ∀ delta : UInt32,
          let grown := (Session.growMemory delta.toNat).exec reached
          let passes := l.maxPages < reached.memory.pages + delta.toNat
          (passes → grown = (.ok (-1), reached)) ∧
          (¬passes → grown.1 = .ok (Int32.ofNat reached.memory.pages) ∧
            grown.2.memory.pages = reached.memory.pages + delta.toNat) ∧
          (reached.memory.pages < UInt32.size - 1 → (grown.1 = .ok (-1) ↔ passes)) := by
  obtain ⟨himage, hinitial, hceiling, hnone⟩ := Loaded.build_within h
  obtain ⟨memory, hreset⟩ := LinearMemory.reset_of_le himage
  have hpages : memory.pages = l.initialPages := LinearMemory.pages_of_reset hreset
  refine ⟨hinitial, hceiling, memory, hreset, ?_, ?_⟩
  · intro host name args signature c hexport harity
    exact Loaded.exec_call hreset hexport harity engine host c
  · intro host c moves reached
    have hentered : l.initialPages ≤ (l.entered memory c).memory.pages ∧
        (l.entered memory c).memory.pages ≤ (l.entered memory c).maxPages :=
      ⟨Nat.le_of_eq hpages.symm, Nat.le_trans (Nat.le_of_eq hpages) hinitial⟩
    obtain ⟨⟨hlow, hhigh⟩, hmax⟩ := afterMoves_within host hentered moves
    have hlimit : reached.maxPages = l.maxPages := hmax
    have hbelow : reached.memory.pages ≤ l.maxPages := hlimit ▸ hhigh
    refine ⟨hlow, hbelow, ?_, ?_⟩
    · intro m hdecode hmemory
      exact Nat.le_zero.mp (hnone m hdecode hmemory ▸ hbelow)
    · intro delta grown passes
      have hpasses : passes ↔ reached.maxPages < reached.memory.pages + delta.toNat := by
        rw [hlimit]
      refine ⟨fun hp => Session.exec_growMemory_of_lt (hpasses.mp hp), ?_, ?_⟩
      · intro hp
        obtain ⟨larger, hlarger, hexec⟩ :=
          Session.exec_growMemory_of_le (Nat.le_of_not_lt fun hlt => hp (hpasses.mpr hlt))
        have hgrown : grown = _ := hexec
        rw [hgrown]
        exact ⟨rfl, hlarger⟩
      · intro hreadable
        rw [hpasses]
        exact Session.exec_growMemory_eq_minusOne hreadable

namespace Request

/-- A module with an entry point and a memory of one page, with data and without a maximum. -/
def growingContract : List UInt8 :=
  [0x00, 0x61, 0x73, 0x6D, 0x01, 0x00, 0x00, 0x00, 0x01, 0x05, 0x01, 0x60, 0x01, 0x7E, 0x00, 0x03,
   0x02, 0x01, 0x00, 0x05, 0x03, 0x01, 0x00, 0x01, 0x07, 0x09, 0x01, 0x05, 0x61, 0x70, 0x70, 0x6C,
   0x79, 0x00, 0x00, 0x0A, 0x04, 0x01, 0x02, 0x00, 0x0B, 0x0B, 0x0A, 0x01, 0x00, 0x41, 0x00, 0x0B,
   0x04, 0x01, 0x02, 0x03, 0x04]

/-- The ceiling becomes its maximum, and it never has more pages. -/
theorem build_keepsLimits_growing :
    ∃ l, (Loaded.build (lastCaller.engine .plain) ({} : Config).maxMemoryPages growingContract
        (0 : Nat)).1 = .ok l ∧ l.initialPages = 1 ∧ l.maxPages = 528 ∧
      ∃ memory, LinearMemory.reset l.initialPages l.image = .ok memory ∧
        ∀ (host : Host (World Nat (List Intrinsic))) (c : Context (World Nat (List Intrinsic))),
          let reached := afterMoves host (l.entered memory c)
            [.grow 500, .call (.console .hex) [.i32 0, .i32 8], .grow 100]
          1 ≤ reached.memory.pages ∧ reached.memory.pages ≤ 528 := by
  obtain ⟨l, hbuilt, hinitial, hmaximum⟩ : ∃ l,
      (Loaded.build (lastCaller.engine .plain) ({} : Config).maxMemoryPages growingContract
        (0 : Nat)).1 = .ok l ∧ l.initialPages = 1 ∧ l.maxPages = 528 := by
    have hpages : (fun l => (l.initialPages, l.maxPages)) <$>
        (Loaded.build (lastCaller.engine .plain) ({} : Config).maxMemoryPages growingContract
          (0 : Nat)).1 = .ok (1, 528) := by
      decide +kernel
    obtain ⟨l, hbuilt, hl⟩ := Except.map_eq_ok.mp hpages
    exact ⟨l, hbuilt, Prod.mk.inj hl⟩
  obtain ⟨-, -, memory, hreset, -, hmoves⟩ := build_keepsLimits hbuilt
  refine ⟨l, hbuilt, hinitial, hmaximum, memory, hreset, ?_⟩
  intro host c
  obtain ⟨hlow, hhigh, -⟩ := hmoves host c _
  exact ⟨hinitial ▸ hlow, hmaximum ▸ hhigh⟩

end Request

end MeteredWasm
