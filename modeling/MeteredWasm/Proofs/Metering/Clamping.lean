import MeteredWasm.Proofs.Metering.OtherLimits

/-!
# Memories under a ceiling

What clamping makes of the limits of a memory, defined or imported. The maximum never passes the
ceiling or a maximum that was declared. But the ceiling itself may pass what the format allows, and
where no maximum was declared it is taken as it is; such a module is not accepted again.
-/

namespace MeteredWasm.Metering

open Wasm (Limits Import Module)
open Wasm.Layout (memoryLimits memoryLimits_iff maxPages)

variable {ceiling : Nat} {l l' : Limits} {imports : List Import}

/-! ## §1 Limits -/

/-- The second limits are the first under a ceiling. They keep the initial size, and the maximum is
between it and both the ceiling and a declared maximum. It is more pages than a memory can have just
where none was declared and the ceiling is. -/
structure Clamped (ceiling : Nat) (l l' : Limits) : Prop where
  initial : l'.initial = l.initial
  maximum : ∃ maximum, l'.maximum = some maximum ∧ l'.initial ≤ maximum ∧ maximum ≤ ceiling ∧
    (∀ declared, l.maximum = some declared → maximum ≤ declared) ∧
    (maximum ≤ maxPages ↔ l.maximum.isSome ∨ ceiling ≤ maxPages)

theorem clampLimits_clamped (h : clampLimits ceiling l = .ok l') (hlimits : memoryLimits l = true) :
    Clamped ceiling l l' := by
  unfold clampLimits at h
  split_ifs at h with hceiling
  cases h
  obtain ⟨-, hmaximum⟩ := memoryLimits_iff.mp hlimits
  refine ⟨rfl, _, rfl, ?_, Nat.min_le_right _ _, ?_, ?_⟩
  · -- the initial size is under the ceiling, or clamping would have failed
    cases hdeclared : l.maximum with
    | none =>
      rw [Option.getD_none, Nat.min_self]
      exact Nat.le_of_not_lt hceiling
    | some declared =>
      exact Nat.le_min.mpr ⟨(hmaximum declared hdeclared).1, Nat.le_of_not_lt hceiling⟩
  · intro declared hdeclared
    rw [hdeclared]
    exact Nat.min_le_left _ _
  · cases hdeclared : l.maximum with
    | none => simp
    | some declared => simp [(hmaximum declared hdeclared).2]

/-- Clamping fails only where the initial size is above the ceiling. -/
theorem clampLimits_eq_error {e : Fault} (h : clampLimits ceiling l = .error e) :
    ceiling < l.initial := by
  unfold clampLimits at h
  split_ifs at h with hceiling
  exact hceiling

theorem Clamped.memoryLimits_iff (h : Clamped ceiling l l') (hlimits : memoryLimits l = true) :
    memoryLimits l' = true ↔ l.maximum.isSome ∨ ceiling ≤ maxPages := by
  obtain ⟨maximum, hmaximum, hordered, -, -, hpages⟩ := h.maximum
  have hinitial := (Wasm.Layout.memoryLimits_iff.mp hlimits).1
  rw [Wasm.Layout.memoryLimits_iff, h.initial, hmaximum, ← hpages]
  rw [h.initial] at hordered
  constructor
  · intro hrule
    exact (hrule.2 maximum rfl).2
  · intro hle
    refine ⟨hinitial, fun maximum' hsame => ?_⟩
    obtain rfl := Option.some.inj hsame
    exact ⟨hordered, hle⟩

theorem memoryLimits_of_forall {memories memories' : List Limits}
    (h : List.Forall₂ (Clamped ceiling) memories memories')
    (hlimits : ∀ l ∈ memories, memoryLimits l = true) :
    (∀ l' ∈ memories', memoryLimits l' = true) ↔
      ∀ l ∈ memories, l.maximum.isSome ∨ ceiling ≤ maxPages := by
  induction h with
  | nil => simp
  | cons hfirst _ ih =>
    obtain ⟨hlimit, hlimits⟩ := List.forall_mem_cons.mp hlimits
    rw [List.forall_mem_cons, List.forall_mem_cons, hfirst.memoryLimits_iff hlimit, ih hlimits]

/-! ## §2 Imports -/

theorem clampImport_of_none {i : Import} (h : i.memory? = none) :
    clampImport ceiling i = .ok i := by
  unfold clampImport
  split
  · rename_i hkind
    rw [Import.memory?, hkind] at h
    cases h
  · rfl

/-- The limits of an imported memory are clamped. -/
theorem clampImport_of_memory {i : Import} (h : i.memory? = some l) :
    clampImport ceiling i =
      (clampLimits ceiling l).map fun l' => { i with kind := .memory l' } := by
  obtain ⟨namespace_, name, kind⟩ := i
  cases kind with
  | memory => cases h; rfl
  | function | table | global => cases h

/-- Imports without a memory stay as they are. -/
theorem clampImports_of_none (h : imports.filterMap Import.memory? = []) :
    clampImports ceiling imports = (.ok (), imports) := by
  induction imports with
  | nil => rfl
  | cons i rest ih =>
    cases hmemory : i.memory? with
    | none =>
      rw [List.filterMap_cons_none hmemory] at h
      rw [clampImports, clampImport_of_none hmemory, ih h]
    | some l =>
      rw [List.filterMap_cons_some hmemory] at h
      cases h

theorem clampImports_clamped (h : (clampImports ceiling imports).1 = .ok ())
    (hlimits : ∀ l ∈ imports.filterMap Import.memory?, memoryLimits l = true) :
    List.Forall₂ (Clamped ceiling) (imports.filterMap Import.memory?)
      ((clampImports ceiling imports).2.filterMap Import.memory?) := by
  induction imports with
  | nil => exact .nil
  | cons i rest ih =>
    cases hmemory : i.memory? with
    | none =>
      rw [List.filterMap_cons_none hmemory] at hlimits ⊢
      rw [clampImports, clampImport_of_none hmemory] at h ⊢
      rw [List.filterMap_cons_none hmemory]
      exact ih h hlimits
    | some l =>
      rw [List.filterMap_cons_some hmemory] at hlimits ⊢
      rw [clampImports, clampImport_of_memory hmemory] at h ⊢
      cases hl : clampLimits ceiling l with
      | error e =>
        rw [hl] at h
        cases h
      | ok l' =>
        rw [hl] at h
        exact .cons (clampLimits_clamped hl (hlimits l List.mem_cons_self))
          (ih h fun l hl => hlimits l (List.mem_cons_of_mem _ hl))

/-- Where one memory at most is imported, a failure changes nothing. -/
theorem clampImports_eq_error {e : Fault} (h : (clampImports ceiling imports).1 = .error e)
    (hone : (imports.filterMap Import.memory?).length ≤ 1) :
    (clampImports ceiling imports).2 = imports ∧
      ∃ l ∈ imports.filterMap Import.memory?, ceiling < l.initial := by
  induction imports with
  | nil => cases h
  | cons i rest ih =>
    cases hmemory : i.memory? with
    | none =>
      rw [List.filterMap_cons_none hmemory] at hone ⊢
      rw [clampImports, clampImport_of_none hmemory] at h ⊢
      obtain ⟨hsame, hlarge⟩ := ih h hone
      exact ⟨congrArg (i :: ·) hsame, hlarge⟩
    | some l =>
      rw [List.filterMap_cons_some hmemory] at hone ⊢
      rw [clampImports, clampImport_of_memory hmemory] at h ⊢
      cases hl : clampLimits ceiling l with
      | error e' => exact ⟨rfl, l, List.mem_cons_self, clampLimits_eq_error hl⟩
      | ok l' =>
        -- the imports behind the only memory do not fail
        have hrest : rest.filterMap Import.memory? = [] :=
          List.length_eq_zero_iff.mp (Nat.le_zero.mp (Nat.le_of_succ_le_succ hone))
        rw [hl] at h
        have hok : (clampImports ceiling rest).1 = .error e := h
        rw [clampImports_of_none hrest] at hok
        cases hok

/-! ## §3 Modules -/

theorem clampDefined_clamped {memory memory' : Option Limits}
    (h : memory.mapM (clampLimits ceiling) = .ok memory')
    (hlimits : ∀ l ∈ memory.toList, memoryLimits l = true) :
    List.Forall₂ (Clamped ceiling) memory.toList memory'.toList := by
  cases memory with
  | none =>
    cases h
    exact .nil
  | some l =>
    obtain ⟨l', hl', hsome⟩ := Except.bind_eq_ok.mp h
    cases hsome
    exact .cons (clampLimits_clamped hl' (hlimits l List.mem_cons_self)) .nil

theorem clampDefined_eq_error {memory : Option Limits} {e : Fault}
    (h : memory.mapM (clampLimits ceiling) = .error e) :
    ∃ l ∈ memory.toList, ceiling < l.initial := by
  cases memory with
  | none => cases h
  | some l =>
    cases hl : clampLimits ceiling l with
    | error e' => exact ⟨l, List.mem_cons_self, clampLimits_eq_error hl⟩
    | ok l' =>
      rw [Option.mapM_some, hl] at h
      cases h

variable {m : Module}

theorem clampMemory_forall (h : (clampMemory ceiling m).1 = .ok ())
    (hlimits : ∀ l ∈ m.outline.allMemories, memoryLimits l = true) :
    List.Forall₂ (Clamped ceiling) m.outline.allMemories
      (clampMemory ceiling m).2.outline.allMemories := by
  obtain ⟨himports, hdefined⟩ := List.forall_mem_append.mp hlimits
  unfold clampMemory at h ⊢
  split at h
  · cases h
  · rename_i memory hmemory
    exact List.rel_append (clampImports_clamped h himports) (clampDefined_clamped hmemory hdefined)

/-- Where there is one memory at most, a failure changes nothing. -/
theorem clampMemory_eq_error {e : Fault} (h : (clampMemory ceiling m).1 = .error e)
    (hone : m.outline.allMemories.length ≤ 1) :
    (clampMemory ceiling m).2 = m ∧ ∃ l ∈ m.outline.allMemories, ceiling < l.initial := by
  have hcount : (m.imports.filterMap Import.memory?).length + m.memory.toList.length ≤ 1 := by
    rwa [← List.length_append]
  unfold clampMemory at h ⊢
  split at h
  · rename_i hmemory
    obtain ⟨l, hl, hlarge⟩ := clampDefined_eq_error hmemory
    exact ⟨rfl, l, List.mem_append_right _ hl, hlarge⟩
  · -- an import failed, so that no memory is defined
    rename_i memory hmemory
    obtain ⟨hsame, l, hl, hlarge⟩ := clampImports_eq_error h (Nat.le_of_add_right_le hcount)
    have hsome := List.length_pos_of_mem hl
    have hnone : m.memory = none := by
      rw [← Option.toList_eq_nil_iff, ← List.length_eq_zero_iff]
      omega
    rw [hnone] at hmemory
    cases hmemory
    refine ⟨?_, l, List.mem_append_left _ hl, hlarge⟩
    simp only [hsame, ← hnone]

/-- Clamping a decoded module. On success its memory is under the ceiling, and what comes out is
decoded from its binary form exactly when a maximum was declared or the ceiling is no more pages
than a memory can have. The imports could only be too long in a module of four gibibytes. On failure
the memory starts above the ceiling and nothing has changed. -/
theorem clampMemory_limits {wasm : List UInt8} (hdecode : Module.decode wasm = .ok m)
    (ceiling : Nat) :
    (∀ m', clampMemory ceiling m = (.ok (), m') →
      List.Forall₂ (Clamped ceiling) m.outline.allMemories m'.outline.allMemories ∧
      (Module.decode m'.encode = .ok m' ↔
        (∀ l ∈ m.outline.allMemories, l.maximum.isSome ∨ ceiling ≤ maxPages) ∧ m'.ImportsFit) ∧
      ((∀ l ∈ m.outline.allMemories, l.maximum.isSome ∨ ceiling ≤ maxPages) →
        wasm.length < 2 ^ 32 → m'.ImportsFit)) ∧
    (∀ e m', clampMemory ceiling m = (.error e, m') →
      m' = m ∧ ∃ l ∈ m.outline.allMemories, ceiling < l.initial) := by
  obtain ⟨hone, hlimits⟩ := Wasm.memoryLimits_of_decode hdecode
  constructor
  · intro m' h
    have hok : (clampMemory ceiling m).1 = .ok () := by rw [h]
    have hclamped := clampMemory_forall hok hlimits
    -- nothing but a maximum has changed, so the binary form decodes if that one is legal
    obtain ⟨memory, imports, hmodule, hmemory, himports⟩ := clampMemory_eq_ok hok
    rw [show (clampMemory ceiling m).2 = m' by rw [h]] at hclamped hmodule
    have hsame : m'.withoutMaximum = m.withoutMaximum := by
      rw [hmodule]
      simp only [Module.withoutMaximum, hmemory, himports]
    have hlegal : (∀ l' ∈ m'.outline.allMemories, memoryLimits l' = true) ↔
        ∀ l ∈ m.outline.allMemories, l.maximum.isSome ∨ ceiling ≤ maxPages :=
      memoryLimits_of_forall hclamped hlimits
    refine ⟨hclamped, ?_, ?_⟩
    · rw [Wasm.decode_encode_iff hdecode hsame, hlegal]
    · intro hdeclared
      exact Wasm.importsFit_of_length hdecode hsame (hlegal.mpr hdeclared)
  · intro e m' h
    have herror : (clampMemory ceiling m).1 = .error e := by rw [h]
    have hfailed := clampMemory_eq_error herror hone
    rwa [h] at hfailed

/-- The binary form of a module with one memory, of one page and without a maximum. -/
def pageWithoutMaximum : List UInt8 :=
  [0, 97, 115, 109, 1, 0, 0, 0, 5, 3, 1, 0, 1]

def ofPageWithoutMaximum : Module :=
  { (default : Module) with memory := some ⟨1, none⟩ }

theorem clampMemory_limits_pageWithoutMaximum :
    Module.decode pageWithoutMaximum = .ok ofPageWithoutMaximum ∧
      (∃ m', clampMemory 528 ofPageWithoutMaximum = (.ok (), m') ∧
        m'.memory = some ⟨1, some 528⟩ ∧ Module.decode m'.encode = .ok m') ∧
      clampMemory 0 ofPageWithoutMaximum =
        (.error (.initialMemory 1 0), ofPageWithoutMaximum) := by
  have hdecode : Module.decode pageWithoutMaximum = .ok ofPageWithoutMaximum := by decide +kernel
  obtain ⟨hok, -⟩ := clampMemory_limits hdecode 528
  obtain ⟨-, herror⟩ := clampMemory_limits hdecode 0
  refine ⟨hdecode, ⟨_, rfl, rfl, ?_⟩, Prod.ext rfl (herror _ _ rfl).1⟩
  obtain ⟨-, hagain, hfit⟩ := hok _ rfl
  have hdeclared : ∀ l ∈ ofPageWithoutMaximum.outline.allMemories,
      l.maximum.isSome ∨ 528 ≤ maxPages := fun _ _ => .inr (by decide)
  exact hagain.mpr ⟨hdeclared, hfit hdeclared (by decide)⟩

/-- Where no maximum is declared, the ceiling may become a maximum that is not accepted. -/
theorem clampMemory_not_accepted :
    Module.decode pageWithoutMaximum = .ok ofPageWithoutMaximum ∧
      ∃ m', clampMemory 65537 ofPageWithoutMaximum = (.ok (), m') ∧
        m'.memory = some ⟨1, some 65537⟩ ∧ min 65537 maxPages < 65537 ∧
        (Module.decode m'.encode).isOk = false := by
  have hfails :
      (Module.decode (clampMemory 65537 ofPageWithoutMaximum).2.encode).isOk = false := by
    decide +kernel
  exact ⟨by decide +kernel, _, rfl, rfl, by decide, hfails⟩

end MeteredWasm.Metering
