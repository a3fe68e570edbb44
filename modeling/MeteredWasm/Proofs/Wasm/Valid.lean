import MeteredWasm.Proofs.Checks
import MeteredWasm.Wasm.Decode

/-!
# What validation establishes

The rules of a valid layout, one field each, and how a decoded module arises from such a layout.
-/

namespace MeteredWasm.Wasm

namespace Layout

/-! ## §1 The rules -/

/-- The rules that a layout keeps, given the signatures of its functions. -/
structure Valid (l : Layout) (functions : List Signature) : Prop where
  signatures : l.signatures = .ok functions
  oneTable : l.allTables.length ≤ 1
  tables : l.allTables.all limitsOrdered = true
  oneMemory : l.allMemories.length ≤ 1
  memories : l.allMemories.all memoryLimits = true
  globals : ∀ g ∈ l.globals, constant l.importedGlobals.toArray g.type g.init = .ok ()
  exports : (l.exports.all fun e => e.index < l.exportSpace e.kind) = true
  names : l.distinctNames = true
  border : l.borderWithin functions.toArray = true
  start : startRule functions l.start = .ok ()
  elements : ∀ e ∈ l.elements,
    elementRule l.allTables.length functions.length l.importedGlobals.toArray e = .ok ()
  data : ∀ d ∈ l.data, dataRule l.allMemories.length l.importedGlobals.toArray d = .ok ()
  dataCount : (l.dataCount.isNone || l.dataCount == some l.data.length) = true
  bodyCount : (l.bodies.length == l.functionTypes.length) = true
  bodies : ∀ defined ∈ (functions.drop (functions.length - l.functionTypes.length)).zip l.bodies,
    bodyRule (l.typeEnv functions) defined.1 defined.2 = .ok ()

theorem rule_eq_ok {condition : Bool} {cause : Malformed} {u : Unit} :
    rule condition cause = .ok u ↔ condition = true := by
  unfold rule
  split_ifs with h
  · simp [h]
  · simp [h]

/-- Validation succeeds exactly on the layouts that keep all rules. -/
theorem validate_eq_ok {l : Layout} {u : Unit} :
    l.validate = .ok u ↔ ∃ functions, l.Valid functions := by
  unfold validate
  simp only [Except.bind_eq_ok, rule_eq_ok, List.forM_eq_forM, forM_eq_ok]
  constructor
  · rintro ⟨functions, hsignatures, _, h₁, _, h₂, _, h₃, _, h₄, _, h₅, _, h₆, _, h₇, _, h₈, _, h₉,
      _, h₁₀, _, h₁₁, _, h₁₂, _, h₁₃, h₁₄⟩
    exact ⟨functions, ⟨hsignatures, by simpa using h₁, h₂, by simpa using h₃, h₄, h₅, h₆, h₇, h₈,
      h₉, h₁₀, h₁₁, h₁₂, h₁₃, h₁₄⟩⟩
  · rintro ⟨functions, h⟩
    exact ⟨functions, h.signatures, (), by simpa using h.oneTable, (), h.tables, (),
      by simpa using h.oneMemory, (), h.memories, (), h.globals, (), h.exports, (), h.names, (),
      h.border, (), h.start, (), h.elements, (), h.data, (), h.dataCount, (), h.bodyCount, h.bodies⟩

end Layout

end MeteredWasm.Wasm
