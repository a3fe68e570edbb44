import MeteredWasm.Proofs.Intrinsic.Effects
import MeteredWasm.Proofs.Sandbox.EarlyEnds

/-!
# Call depth

A contract that calls another one hands it the next depth, if the limit allows for it, and the
sandbox refuses to run anything deeper than that. So in a whole tree of nested calls nothing is run
above the limit, wherever the tree starts and whoever answers the calls. Depths are words, however:
where the limit is the greatest word, the depth that follows it is zero.
-/

namespace MeteredWasm

open Wasm (Value)

/-! ## §1 Calls within a limit -/

/-- The depth that a call at some depth hands over. The greatest one is followed by zero. -/
def depthAfter (depth : UInt32) : Nat :=
  (depth.toNat + 1) % UInt32.size

/-- All that happens keeps to a limit on the depth, where `next` counts the depths: functions are
invoked and intrinsics called within it, a contract is called with the depth after that of its
caller, by the intrinsic that the caller has just called for this, and if that depth is above the
limit the intrinsic fails and the host is not asked. -/
structure CallsWithin (next : UInt32 → Nat) (limit : UInt32) (events : List Event) : Prop where
  entered : ∀ view, .entered view ∈ events → view.invocation.depth ≤ limit
  calling : ∀ view i args, .called view i args ∈ events → view.invocation.depth ≤ limit
  handed : ∀ before key nested after, events = before ++ .asked key (.call nested) :: after →
    ∃ earlier view args, before = earlier ++ [.called view (.action .call) args] ∧
      nested.depth.toNat = next view.invocation.depth ∧ nested.depth ≤ limit
  refused : ∀ before view args after,
    events = before ++ .called view (.action .call) args :: after →
    limit.toNat < next view.invocation.depth →
    ∃ fault left later, after = .returned (.error fault) left :: later

/-- An event that is no part of a call from contract to contract, within a limit. -/
def Event.Quiet (limit : UInt32) : Event → Prop
  | .entered view => view.invocation.depth ≤ limit
  | .called view i _ => view.invocation.depth ≤ limit ∧ i ≠ .action .call
  | .asked _ q => ∀ nested, q ≠ .call nested
  | .ran _ _ _ | .returned _ _ | .hashed _ => True

namespace CallsWithin

variable {next : UInt32 → Nat} {limit : UInt32} {events later : List Event}

/-- What happens part after part. -/
theorem append (h : CallsWithin next limit events) (h' : CallsWithin next limit later) :
    CallsWithin next limit (events ++ later) where
  entered view hview :=
    (List.mem_append.mp hview).elim (h.entered view) (h'.entered view)
  calling view i args hview :=
    (List.mem_append.mp hview).elim (h.calling view i args) (h'.calling view i args)
  handed before key nested after hsplit := by
    rcases List.append_eq_append_iff.mp hsplit with ⟨front, rfl, hlater⟩ | ⟨back, hevents, hafter⟩
    · obtain ⟨earlier, view, args, rfl, hdepth⟩ := h'.handed _ _ _ _ hlater
      exact ⟨events ++ earlier, view, args, (List.append_assoc ..).symm, hdepth⟩
    · cases back with
      | nil =>
        -- what stands in front of the question is in the same part
        obtain ⟨earlier, view, args, hempty, -⟩ := h'.handed [] key nested after hafter.symm
        exact absurd hempty.symm (List.append_ne_nil_of_right_ne_nil _ (List.cons_ne_nil _ _))
      | cons event back =>
        cases hafter
        exact h.handed before key nested back hevents
  refused before view args after hsplit hdeep := by
    rcases List.append_eq_append_iff.mp hsplit with ⟨front, rfl, hlater⟩ | ⟨back, hevents, hafter⟩
    · exact h'.refused _ _ _ _ hlater hdeep
    · cases back with
      | nil => exact h'.refused [] view args after hafter.symm hdeep
      | cons event back =>
        cases hafter
        obtain ⟨fault, left, rest, rfl⟩ := h.refused before view args back hevents hdeep
        exact ⟨fault, left, rest ++ later, rfl⟩

theorem nil : CallsWithin next limit [] where
  entered _ h := nomatch h
  calling _ _ _ h := nomatch h
  handed before _ _ _ h := by simp at h
  refused before _ _ _ h := by simp at h

theorem of_quiet (h : ∀ event ∈ events, event.Quiet limit) : CallsWithin next limit events where
  entered view hview := h _ hview
  calling view i args hview := (h _ hview).1
  handed before key nested after hsplit := by
    have hquiet := h (.asked key (.call nested)) (by simp [hsplit])
    exact absurd rfl (hquiet nested)
  refused before view args after hsplit := by
    have hquiet := h (.called view (.action .call) args) (by simp [hsplit])
    exact absurd rfl hquiet.2

section Pairs

variable {view : View} {args : List Value}

end Pairs

end CallsWithin

/-! ## §2 Machines that call contracts through the intrinsic -/

/-- A behaviour that leaves the invocation and the limits as it was shown them, and calls contracts
by the intrinsic only. -/
def Behaviour.Sealed {α : Type} (i : Invocation) (config : Config) : Behaviour α → Prop
  | .done _ _ => True
  | .call c _ _ next => c.invocation = i ∧ c.config = config ∧
    ∀ outcome view, view.invocation = i → view.config = config → (next outcome view).Sealed i config
  | .ask _ q next => (∀ nested, q ≠ .call nested) ∧ ∀ answer, (next answer).Sealed i config
  | .digest _ next => ∀ digest, (next digest).Sealed i config

/-- A machine all of whose functions behave so. -/
def Machine.Sealed {Inst : Type} (m : Machine Inst) : Prop :=
  ∀ inst name args view, (m.invoke inst name args view).Sealed view.invocation view.config

/-! ## §3 Intrinsics -/

namespace Intrinsic

open Session (Frame Steps)

variable {ω : Type} {host : Host ω} {i : Intrinsic}

end Intrinsic

variable {ω : Type}

variable {σ τ Inst α : Type}

/-- The limits are the same, and what has happened meanwhile keeps to the one on the depth. -/
def World.StaysWithin (w w' : World (σ × List Event) Inst) : Prop :=
  w'.sandbox.config = w.sandbox.config ∧ ∃ later, w'.outside.2 = w.outside.2 ++ later ∧
    CallsWithin depthAfter w.sandbox.config.maxCallDepth later

namespace World.StaysWithin

variable {w w' w'' : World (σ × List Event) Inst}

theorem of_same (hconfig : w'.sandbox.config = w.sandbox.config)
    (hevents : w'.outside.2 = w.outside.2) : w.StaysWithin w' :=
  ⟨hconfig, [], by rw [hevents, List.append_nil], .nil⟩

theorem refl (w : World (σ × List Event) Inst) : w.StaysWithin w := of_same rfl rfl

theorem trans (h : w.StaysWithin w') (h' : w'.StaysWithin w'') : w.StaysWithin w'' := by
  obtain ⟨hconfig, later, hevents, hwithin⟩ := h
  obtain ⟨hconfig', later', hevents', hwithin'⟩ := h'
  rw [hconfig] at hwithin'
  refine ⟨hconfig'.trans hconfig, later ++ later', ?_, hwithin.append hwithin'⟩
  rw [hevents', hevents, List.append_assoc]

theorem note {event : Event} (h : event.Quiet w.sandbox.config.maxCallDepth) :
    w.StaysWithin (w.note .full event) :=
  ⟨rfl, [event], rfl, .of_quiet fun _ hmem => List.mem_singleton.mp hmem ▸ h⟩

end World.StaysWithin

open World (StaysWithin)

section Phases

variable {host : Host (World (σ × List Event) Inst)}

end Phases

variable {m : Machine Inst}

namespace Request

end Request

end MeteredWasm
