import MeteredWasm.Wasm.Instruction

/-!
# Control flow of bodies

Which instructions may be executed after which. A position is the code that is left together with
the labels of the open constructs, and a path is a sequence of instructions that control may run
through; values are left out, so a condition may go either way and a branch table to any of its
labels. A call is one step that returns.
-/

namespace MeteredWasm.Wasm

/-! ## §1 Instructions and control -/

/-- What an instruction does to control. -/
inductive Flow where
  | next
  | stuck
  | block
  | loop
  | condition
  | otherwise
  | close
  | branch (labels : List Nat) (falls : Bool)
  | leave
deriving DecidableEq, Repr

def Operator.flow : Operator → Flow
  | .unreachable => .stuck
  | .block _ => .block
  | .loop _ => .loop
  | .ifThen _ => .condition
  | .elseThen => .otherwise
  | .endBlock => .close
  | .br label => .branch [label] false
  | .brIf label => .branch [label] true
  | .brTable labels default => .branch (labels ++ [default]) false
  | .ret => .leave
  | _ => .next

/-- Control does not get past an item that is no instruction. -/
def Instr.flow (i : Instr) : Flow :=
  match i.operator? with
  | some op => op.flow
  | none => .stuck

/-! ## §2 Code behind a construct -/

/-- How many constructs are open within another one, behind an instruction; none at the `end` of
that one. -/
def Flow.depthAfter : Flow → (depth : Nat) → Option Nat
  | .block, depth | .loop, depth | .condition, depth => some (depth + 1)
  | .close, 0 => none
  | .close, depth + 1 => some depth
  | _, depth => some depth

/-- The code behind the `end` of the innermost open construct, where so many more have been opened
in the code since. -/
def afterEnd : (depth : Nat) → List Instr → List Instr
  | _, [] => []
  | depth, i :: rest => (i.flow.depthAfter depth).elim rest fun depth => afterEnd depth rest

/-- The code behind the `else` of the innermost open condition, if it has one. -/
def secondArm? : (depth : Nat) → List Instr → Option (List Instr)
  | _, [] => none
  | depth, i :: rest =>
    if i.flow = .otherwise ∧ depth = 0 then some rest
    else (i.flow.depthAfter depth).bind fun depth => secondArm? depth rest

/-! ## §3 Positions and paths -/

/-- Where a branch goes on, and whether the construct stays open there, as a loop does. -/
structure Label where
  repeats : Bool
  target : List Instr
deriving DecidableEq, Repr

/-- The code that is left, and the labels of the open constructs, innermost first. The last label is
that of the function. -/
structure Position where
  code : List Instr
  labels : List Label
deriving DecidableEq, Repr

namespace Position

def start (body : List Instr) : Position :=
  ⟨body, [⟨false, []⟩]⟩

/-- The function has been left. -/
def exit : Position :=
  ⟨[], []⟩

/-- Where a branch to a label goes, if there is such a label. A branch to the last one leaves the
function. -/
def branch (labels : List Label) (label : Nat) : List Position :=
  match labels.drop label with
  | [] => []
  | [_] => [exit]
  | l :: outer => if l.repeats then [⟨l.target, l :: outer⟩] else [⟨l.target, outer⟩]

/-- Where control may be after the next instruction. A condition that has no second arm and does not
hold goes on behind its `end`; the first arm ends at the `else` and goes on there as well. -/
def successors : Position → List Position
  | ⟨[], _⟩ => []
  | ⟨i :: rest, labels⟩ =>
    match i.flow with
    | .next => [⟨rest, labels⟩]
    | .stuck => []
    | .block => [⟨rest, ⟨false, afterEnd 0 rest⟩ :: labels⟩]
    | .loop => [⟨rest, ⟨true, rest⟩ :: labels⟩]
    | .condition =>
      [⟨rest, ⟨false, afterEnd 0 rest⟩ :: labels⟩,
        match secondArm? 0 rest with
        | some arm => ⟨arm, ⟨false, afterEnd 0 rest⟩ :: labels⟩
        | none => ⟨afterEnd 0 rest, labels⟩]
    | .otherwise => branch labels 0
    | .close =>
      match labels with
      | [] => []
      | [_] => [exit]
      | _ :: outer => [⟨rest, outer⟩]
    | .branch targets falls =>
      (if falls then [⟨rest, labels⟩] else []) ++ targets.flatMap (branch labels)
    | .leave => [exit]

end Position

/-- Control may run through these instructions from one position to another. -/
inductive Path : Position → List Instr → Position → Prop where
  | nil (u : Position) : Path u [] u
  | cons {i : Instr} {rest trace : List Instr} {labels : List Label} {v w : Position} :
      v ∈ Position.successors ⟨i :: rest, labels⟩ → Path v trace w →
      Path ⟨i :: rest, labels⟩ (i :: trace) w

/-- A path starts with the instruction at its position. -/
theorem Path.head?_eq {u w : Position} {trace : List Instr} (h : Path u trace w) :
    trace = [] ∨ trace.head? = u.code.head? := by
  cases h with
  | nil => exact .inl rfl
  | cons => exact .inr rfl

/-! ## §4 Positions within a body -/

theorem afterEnd_suffix (depth : Nat) (code : List Instr) : afterEnd depth code <:+ code := by
  induction code generalizing depth with
  | nil => exact List.suffix_rfl
  | cons i rest ih =>
    have hrest : rest <:+ i :: rest := List.suffix_cons i rest
    rw [afterEnd]
    cases i.flow.depthAfter depth with
    | none => exact hrest
    | some depth => exact (ih depth).trans hrest

theorem secondArm?_suffix {depth : Nat} {code arm : List Instr}
    (h : secondArm? depth code = some arm) : arm <:+ code := by
  induction code generalizing depth with
  | nil => cases h
  | cons i rest ih =>
    have hrest : rest <:+ i :: rest := List.suffix_cons i rest
    rw [secondArm?] at h
    split at h
    · cases h
      exact hrest
    · obtain ⟨depth', -, harm⟩ := Option.bind_eq_some_iff.mp h
      exact (ih harm).trans hrest

namespace Position

/-- The code that is left and the code at each label are ends of the body, and nothing is left once
the function has been left. -/
structure Within (body : List Instr) (u : Position) : Prop where
  code : u.code <:+ body
  labels : ∀ l ∈ u.labels, l.target <:+ body
  left : u.labels = [] → u.code = []

theorem start_within (body : List Instr) : (start body).Within body where
  code := List.suffix_rfl
  labels := by
    intro l hl
    obtain rfl := List.mem_singleton.mp hl
    exact List.nil_suffix
  left := by
    intro hlabels
    cases hlabels

theorem exit_within (body : List Instr) : exit.Within body where
  code := List.nil_suffix
  labels := by
    intro l hl
    cases hl
  left := fun _ => rfl

theorem branch_within {body : List Instr} {labels : List Label} {label : Nat} {v : Position}
    (hlabels : ∀ l ∈ labels, l.target <:+ body) (hv : v ∈ branch labels label) :
    v.Within body := by
  have hdropped : ∀ l ∈ labels.drop label, l.target <:+ body :=
    fun l hl => hlabels l (List.mem_of_mem_drop hl)
  -- no such label, the label of the function, or that of a construct
  unfold branch at hv
  split at hv
  · cases hv
  · obtain rfl := List.mem_singleton.mp hv
    exact exit_within body
  · rename_i l outer hone hdrop
    rw [hdrop] at hdropped
    have htarget := hdropped l List.mem_cons_self
    split at hv
    · obtain rfl := List.mem_singleton.mp hv
      exact ⟨htarget, hdropped, fun hnil => by cases hnil⟩
    · obtain rfl := List.mem_singleton.mp hv
      refine ⟨htarget, fun l' hl' => hdropped l' (List.mem_cons_of_mem _ hl'), ?_⟩
      intro hnil
      exact absurd hnil hone

/-- A step stays within the body. -/
theorem successors_within {body : List Instr} {u v : Position} (hu : u.Within body)
    (hv : v ∈ successors u) : v.Within body := by
  obtain ⟨code, labels⟩ := u
  cases code with
  | nil => cases hv
  | cons i rest =>
    have hopen : labels ≠ [] := by
      intro hnil
      cases hu.left hnil
    have hrest : rest <:+ body := (List.suffix_cons i rest).trans hu.code
    have hafter : afterEnd 0 rest <:+ body := (afterEnd_suffix 0 rest).trans hrest
    have hsame : Within body ⟨rest, labels⟩ :=
      ⟨hrest, hu.labels, fun hnil => absurd hnil hopen⟩
    -- a construct that is entered adds its label
    have henter : ∀ {code : List Instr} {l : Label}, code <:+ body → l.target <:+ body →
        Within body ⟨code, l :: labels⟩ := by
      intro code l hcode hl
      refine ⟨hcode, ?_, fun hnil => by cases hnil⟩
      intro l' hl'
      rcases List.mem_cons.mp hl' with rfl | hmem
      · exact hl
      · exact hu.labels l' hmem
    -- one case for each way to go on
    simp only [successors] at hv
    split at hv
    · obtain rfl := List.mem_singleton.mp hv
      exact hsame
    · cases hv
    · obtain rfl := List.mem_singleton.mp hv
      exact henter hrest hafter
    · obtain rfl := List.mem_singleton.mp hv
      exact henter hrest hrest
    · rcases List.mem_cons.mp hv with rfl | hsecond
      · exact henter hrest hafter
      · obtain rfl := List.mem_singleton.mp hsecond
        split
        · rename_i arm harm
          exact henter ((secondArm?_suffix harm).trans hrest) hafter
        · exact ⟨hafter, hu.labels, fun hnil => absurd hnil hopen⟩
    · exact branch_within hu.labels hv
    · split at hv
      · cases hv
      · obtain rfl := List.mem_singleton.mp hv
        exact exit_within body
      · rename_i l outer hone
        obtain rfl := List.mem_singleton.mp hv
        refine ⟨hrest, fun l' hl' => hu.labels l' (List.mem_cons_of_mem _ hl'), ?_⟩
        intro hnil
        exact absurd hnil hone
    · rcases List.mem_append.mp hv with hfalls | htargets
      · split at hfalls
        · obtain rfl := List.mem_singleton.mp hfalls
          exact hsame
        · cases hfalls
      · obtain ⟨target, -, htarget⟩ := List.mem_flatMap.mp htargets
        exact branch_within hu.labels htarget
    · obtain rfl := List.mem_singleton.mp hv
      exact exit_within body

end Position

end MeteredWasm.Wasm
