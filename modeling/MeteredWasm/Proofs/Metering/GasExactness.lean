import MeteredWasm.Proofs.Metering.MeteredFlow
import MeteredWasm.Proofs.Metering.Withdrawal

/-!
# Gas is exact on every path

Whatever way control takes through a metered body, the amounts that it passes to the charge add up
to the prices of the instructions that it executes. This holds when the function is left, and right
before every boundary, where the boundary itself has been paid for already. Metering neither adds
nor cuts off paths.
-/

namespace MeteredWasm.Metering

open Wasm (Instr Function Module Flow Label Position Path)

/-! ## §1 What a path costs -/

/-- What the instructions of a path cost together. -/
def priced (trace : List Instr) : Nat :=
  (trace.map fun i => Gas.price i.opcode).sum

/-- The amounts that a path passes to the first function. Each must have been pushed right before
the call. -/
def charged : List Instr → Option Nat
  | [] => some 0
  | [i] => if i = .call 0 then none else some 0
  | i :: j :: rest =>
    if i = .call 0 then none
    else if j = .call 0 then (amount? i).bind fun amount => (charged rest).map (amount + ·)
    else charged (j :: rest)

theorem charged_pair {amount : Nat} (h : amount < 2 ^ 63) (rest : List Instr) :
    charged (.constI64 amount :: .call 0 :: rest) = (charged rest).map (amount + ·) := by
  have hpush : Instr.constI64 amount ≠ .call 0 := by
    intro hcall
    cases hcall
  rw [charged, if_neg hpush, if_pos rfl, amount?_constI64 h]
  rfl

theorem charged_cons {i : Instr} {rest : List Instr} (hi : i ≠ .call 0)
    (hrest : rest.head? ≠ some (.call 0)) : charged (i :: rest) = charged rest := by
  cases rest with
  | nil => exact if_neg hi
  | cons j rest =>
    have hj : j ≠ .call 0 := by
      intro hcall
      exact hrest (by rw [hcall]; rfl)
    rw [charged, if_neg hi, if_neg hj]

/-! ## §2 Where a path may stop -/

/-- A path may stop when the function has been left, or right before a boundary. -/
def MayStop (w : Position) : Prop :=
  w = .exit ∨ ∃ i, w.code.head? = some i ∧ isBoundary i.opcode = true

/-- Two paths stop at the same place, and so much is due there: nothing at the exit, and before a
boundary its price. -/
inductive StopsWith : Position → Position → Nat → Prop where
  | exit : StopsWith .exit .exit 0
  | boundary {w v : Position} {i : Instr} :
      w.code.head? = some i → v.code.head? = some i → isBoundary i.opcode = true →
      StopsWith w v (Gas.price i.opcode)

/-- A path that may stop does not do so among instructions that just go on. -/
theorem path_through {front code trace : List Instr} {labels : List Label} {w : Position}
    (hfront : ∀ j ∈ front, j.flow = .next ∧ isBoundary j.opcode = false) (hstop : MayStop w)
    (h : Path ⟨front ++ code, labels⟩ trace w) :
    ∃ tail, trace = front ++ tail ∧ Path ⟨code, labels⟩ tail w := by
  induction front generalizing trace with
  | nil => exact ⟨trace, rfl, h⟩
  | cons j front ih =>
    obtain ⟨hnext, hnot⟩ := hfront j List.mem_cons_self
    have hrest := fun j' hj' => hfront j' (List.mem_cons_of_mem j hj')
    cases h with
    | nil =>
      rcases hstop with hexit | ⟨i, hi, hboundary⟩
      · cases hexit
      · cases hi
        rw [hnot] at hboundary
        cases hboundary
    | @cons _ _ trace _ v _ hv hpath =>
      simp only [Position.successors, hnext] at hv
      obtain rfl := List.mem_singleton.mp hv
      obtain ⟨tail, rfl, htail⟩ := ih hrest hpath
      exact ⟨tail, rfl, htail⟩

/-- A path stays within the body. -/
theorem mem_of_path {body trace : List Instr} {u w : Position} (hu : u.Within body)
    (h : Path u trace w) : ∀ i ∈ trace, i ∈ body := by
  induction h with
  | nil =>
    intro i hi
    cases hi
  | cons hv _ ih =>
    intro j hj
    rcases List.mem_cons.mp hj with rfl | hrest
    · exact hu.code.subset List.mem_cons_self
    · exact ih (Position.successors_within hu hv) j hrest

/-! ## §3 One instruction -/

/-- What is needed of the images of a body's instructions. -/
structure Meterable (image : Instr → Instr) (body : List Instr) : Prop where
  follows : ∀ i ∈ body, Follows image i
  no_charge : ∀ i ∈ body, image i ≠ .call 0
  fits : Fits 0 body

/-- What may be pending at a position within the body. -/
structure MayPend (body : List Instr) (pending : Nat) (u : Position) : Prop where
  within : u.Within body
  fits : Fits pending u.code
  left : u.labels = [] → pending = 0

theorem mem_chargeFor {pending : Nat} {i j : Instr}
    (hcost : pending + Gas.price i.opcode < 2 ^ 63) (hj : j ∈ chargeFor pending i) :
    j.flow = .next ∧ isBoundary j.opcode = false := by
  refine ⟨flow_of_mem_chargeFor hcost hj, ?_⟩
  rcases eq_of_mem_chargeFor hj with rfl | rfl
  · rfl
  · rfl

/-- The charge in front of an instruction pays for everything up to it that will not stay pending
behind it. -/
theorem charged_chargeFor {pending total : Nat} {i : Instr} {rest : List Instr}
    (hcost : pending + Gas.price i.opcode < 2 ^ 63)
    (hrest : charged rest = some (pendingAfter pending i + total)) :
    charged (chargeFor pending i ++ rest) = some (pending + Gas.price i.opcode + total) := by
  rcases chargeFor_cases pending i with ⟨-, hafter, hfor⟩ | ⟨hfor, hafter, -⟩
  · rw [hfor, List.cons_append, List.cons_append, List.nil_append, charged_pair hcost, hrest,
      hafter, Option.map_some, Nat.zero_add]
  · rw [hfor, List.nil_append, hrest, hafter]

/-- Behind an instruction that does not end a run, the code goes on in the same frame or one that
was entered. -/
theorem successor_of_not_endsRun {i : Instr} {rest : List Instr} {labels : List Label}
    {v : Position} (hnot : endsRun i.flow = false)
    (hv : v ∈ Position.successors ⟨i :: rest, labels⟩) :
    v.code = rest ∧ (v.labels = [] → labels = []) := by
  simp only [Position.successors] at hv
  cases hflow : i.flow with
  | next =>
    rw [hflow] at hv
    obtain rfl := List.mem_singleton.mp hv
    exact ⟨rfl, id⟩
  | stuck =>
    rw [hflow] at hv
    cases hv
  | block =>
    rw [hflow] at hv
    obtain rfl := List.mem_singleton.mp hv
    exact ⟨rfl, fun hnil => by cases hnil⟩
  | _ =>
    rw [hflow] at hnot
    cases hnot

/-- What is pending behind an instruction may be pending at each position that follows it. -/
theorem MayPend.successor {image : Instr → Instr} {body rest : List Instr} {pending : Nat}
    {i : Instr} {labels : List Label} {v : Position} (hbody : Meterable image body)
    (h : MayPend body pending ⟨i :: rest, labels⟩)
    (hv : v ∈ Position.successors ⟨i :: rest, labels⟩) :
    MayPend body (pendingAfter pending i) v := by
  have hwithin := Position.successors_within h.within hv
  have hi := hbody.follows i (h.within.code.subset List.mem_cons_self)
  cases hends : endsRun i.flow with
  | true =>
    -- nothing is pending, and the code at the new position is no longer than the body
    rw [hi.pendingAfter hends]
    refine ⟨hwithin, ?_, fun _ => rfl⟩
    have hlength := hwithin.code.length_le
    have hfits := hbody.fits
    unfold Fits at hfits ⊢
    omega
  | false =>
    obtain ⟨hcode, hlabels⟩ := successor_of_not_endsRun hends hv
    refine ⟨hwithin, ?_, ?_⟩
    · rw [hcode]
      exact h.fits.tail
    · intro hnil
      cases h.within.left (hlabels hnil)

/-! ## §4 Paths -/

/-- The first instruction of a path through metered code takes no charge. -/
theorem head?_of_metered_path {image : Instr → Instr} {body trace : List Instr} {pending : Nat}
    {u w : Position} (hbody : Meterable image body) (hu : u.Within body)
    (h : Path (meterPosition image pending u) trace w) : trace.head? ≠ some (.call 0) := by
  rcases h.head?_eq with rfl | hhead
  · intro hnone
    cases hnone
  · rw [hhead]
    exact head?_meter fun i hi => hbody.no_charge i (hu.code.subset hi)

/-- A path that stops before the image of an instruction stops before a boundary, which is its own
image. -/
theorem Follows.mayStop {image : Instr → Instr} {i : Instr} {code : List Instr}
    {labels : List Label} (hi : Follows image i) (hstop : MayStop ⟨image i :: code, labels⟩) :
    isBoundary i.opcode = true ∧ image i = i := by
  rcases hstop with hexit | ⟨j, hj, hboundary⟩
  · cases hexit
  · obtain rfl := Option.some.inj hj
    rw [hi.other] at hboundary
    exact ⟨hboundary, hi.same hboundary⟩

/-- A path through metered code, from a position where something is pending, is the image of a path
through the code. It pays for what was pending, for all that it executes, and for what is due where
it stops. -/
def Paid (image : Instr → Instr) (pending : Nat) (u : Position) (trace : List Instr)
    (w : Position) : Prop :=
  ∃ original v due, Path u original v ∧ StopsWith w v due ∧
    uncharge trace = original.map image ∧
    charged trace = some (pending + (priced original + due))

/-- Without labels nothing was left to pay. -/
theorem Paid.at_exit {image : Instr → Instr} {body : List Instr} {pending : Nat}
    (hu : MayPend body pending .exit) : Paid image pending .exit [] .exit := by
  refine ⟨[], .exit, 0, .nil _, .exit, rfl, ?_⟩
  rw [hu.left rfl]
  rfl

/-- The charge alone pays up to the boundary that it stands in front of. -/
theorem Paid.before_boundary {image : Instr → Instr} {pending : Nat} {i : Instr}
    {code rest : List Instr} {labels outer : List Label}
    (hcost : pending + Gas.price i.opcode < 2 ^ 63) (hboundary : isBoundary i.opcode = true)
    (hsame : image i = i) :
    Paid image pending ⟨i :: rest, labels⟩ (chargeFor pending i) ⟨image i :: code, outer⟩ := by
  have hafter : pendingAfter pending i = 0 := if_pos hboundary
  have hcharged := @charged_chargeFor pending 0 i [] hcost (by rw [hafter]; rfl)
  have hwithout := @uncharge_chargeFor pending i [] hcost
  rw [List.append_nil] at hcharged hwithout
  refine ⟨[], ⟨i :: rest, labels⟩, Gas.price i.opcode, .nil _, ?_, hwithout, ?_⟩
  · exact .boundary (congrArg some hsame) rfl hboundary
  · rw [hcharged, priced]
    simp

/-- What is pending behind an instruction is paid by the path behind its image. -/
theorem Paid.step {image : Instr → Instr} {pending : Nat} {i : Instr} {rest trace : List Instr}
    {labels : List Label} {v w : Position} (hcost : pending + Gas.price i.opcode < 2 ^ 63)
    (hi : image i ≠ .call 0) (hhead : trace.head? ≠ some (.call 0))
    (hv : v ∈ Position.successors ⟨i :: rest, labels⟩)
    (h : Paid image (pendingAfter pending i) v trace w) :
    Paid image pending ⟨i :: rest, labels⟩ (chargeFor pending i ++ image i :: trace) w := by
  obtain ⟨original, stop, due, horiginal, hwhere, hwithout, hcharged⟩ := h
  refine ⟨i :: original, stop, due, .cons hv horiginal, hwhere, ?_, ?_⟩
  · rw [uncharge_chargeFor hcost, uncharge_cons hhead, hwithout, List.map_cons]
  · have htrace : charged (image i :: trace) =
        some (pendingAfter pending i + (priced original + due)) := by
      rw [charged_cons hi hhead, hcharged]
    rw [charged_chargeFor hcost htrace, priced, priced, List.map_cons, List.sum_cons]
    congr 1
    omega

/-- Every path through a metered body is paid, if it stops where it may. -/
theorem paid_of_path {image : Instr → Instr} {body : List Instr} (hbody : Meterable image body)
    (bound : Nat) {trace : List Instr} (hbound : trace.length < bound) {pending : Nat}
    {u w : Position} (hu : MayPend body pending u) (hstop : MayStop w)
    (h : Path (meterPosition image pending u) trace w) : Paid image pending u trace w := by
  -- on the length of the path: a charge and the instruction behind it are taken together
  induction bound generalizing trace pending u with
  | zero => exact absurd hbound (Nat.not_lt_zero _)
  | succ bound ih =>
    obtain ⟨code, labels⟩ := u
    cases code with
    | nil =>
      -- no code is left, so the path cannot go on; it stops here only at the exit
      cases h
      rcases hstop with hexit | ⟨i, hi, -⟩
      · obtain rfl : labels = [] := List.map_eq_nil_iff.mp (congrArg Position.labels hexit)
        exact .at_exit hu
      · cases hi
    | cons i rest =>
      have hmem : ∀ j ∈ i :: rest, j ∈ body := fun j hj => hu.within.code.subset hj
      have hi := hbody.follows i (hmem i List.mem_cons_self)
      have hcost := hu.fits.cost
      simp only [meterPosition, meter] at h
      -- the path cannot stop within the charge, so it takes all of it
      obtain ⟨tail, rfl, htail⟩ := path_through (fun j => mem_chargeFor hcost) hstop h
      generalize hstart : (⟨image i :: meter image (pendingAfter pending i) rest,
        labels.map (meterLabel image)⟩ : Position) = u' at htail
      cases htail with
      | nil =>
        subst hstart
        obtain ⟨hboundary, hsame⟩ := hi.mayStop hstop
        rw [List.append_nil]
        exact .before_boundary hcost hboundary hsame
      | @cons j rest' trace labels' v' _ hv hpath =>
        cases hstart
        have hrest : ∀ j ∈ rest, Follows image j :=
          fun j hj => hbody.follows j (hmem j (List.mem_cons_of_mem i hj))
        rw [successors_meter labels hi hrest hu.fits.tail] at hv
        obtain ⟨v, hnext, rfl⟩ := List.mem_map.mp hv
        have hpend := hu.successor hbody hnext
        have hhead := head?_of_metered_path hbody hpend.within hpath
        have hshorter : trace.length < bound := by
          simp only [List.length_append, List.length_cons] at hbound
          omega
        have hcall := hbody.no_charge i (hmem i List.mem_cons_self)
        exact .step hcost hcall hhead hnext (ih hshorter hpend hpath)

/-- Control gets over instructions that just go on. -/
theorem path_over {front code trace : List Instr} {labels : List Label} {w : Position}
    (hfront : ∀ j ∈ front, j.flow = .next) (h : Path ⟨code, labels⟩ trace w) :
    Path ⟨front ++ code, labels⟩ (front ++ trace) w := by
  induction front with
  | nil => exact h
  | cons j front ih =>
    have hnext := hfront j List.mem_cons_self
    have hrest := ih fun j' hj' => hfront j' (List.mem_cons_of_mem j hj')
    refine .cons ?_ hrest
    simp only [Position.successors, hnext]
    exact List.mem_singleton_self _

/-- Conversely, every path through the body has its image in the metered body: metering does not cut
off any path. -/
theorem exists_metered_path {image : Instr → Instr} {body original : List Instr}
    (hbody : Meterable image body) {pending : Nat} {u v : Position} (hu : MayPend body pending u)
    (h : Path u original v) :
    ∃ trace left, Path (meterPosition image pending u) trace (meterPosition image left v) ∧
      uncharge trace = original.map image := by
  induction h generalizing pending with
  | nil u => exact ⟨[], pending, .nil _, rfl⟩
  | @cons i rest original labels v w hv hpath ih =>
    have hi := hbody.follows i (hu.within.code.subset List.mem_cons_self)
    have hrest : ∀ j ∈ rest, Follows image j :=
      fun j hj => hbody.follows j (hu.within.code.subset (List.mem_cons_of_mem i hj))
    have hcost := hu.fits.cost
    have hpend := hu.successor hbody hv
    obtain ⟨trace, left, htrace, hsame⟩ := ih hpend
    have hnext : meterPosition image (pendingAfter pending i) v ∈ Position.successors
        ⟨image i :: meter image (pendingAfter pending i) rest, labels.map (meterLabel image)⟩ := by
      rw [successors_meter labels hi hrest hu.fits.tail]
      exact List.mem_map_of_mem hv
    refine ⟨chargeFor pending i ++ image i :: trace, left, ?_, ?_⟩
    · -- first over the charge, then with the image to where the instruction leads
      apply path_over
      · intro j hj
        exact flow_of_mem_chargeFor hcost hj
      · exact .cons hnext htrace
    · have hhead := head?_of_metered_path hbody hpend.within htrace
      rw [uncharge_chargeFor hcost, uncharge_cons hhead, hsame, List.map_cons]

/-! ## §5 Instrumented functions -/

/-- The second function charges exactly for what it executes of the first one, on every path on
which it is left and on every path up to a boundary. No path on which the first one is left gets
lost. -/
structure GasExact (m' : Module) (k : Nat) (f f' : Function) : Prop where
  exit : ∀ {trace : List Instr}, Path (Position.start f'.body) trace .exit →
    ∃ original, withdrawCode m' k trace = some original ∧
      Path (Position.start f.body) original .exit ∧
      charged trace = some (priced original)
  boundary : ∀ {trace : List Instr} {w : Position} {i : Instr},
    Path (Position.start f'.body) trace w → w.code.head? = some i →
    isBoundary i.opcode = true →
    ∃ original v, withdrawCode m' k trace = some original ∧
      Path (Position.start f.body) original v ∧ v.code.head? = some i ∧
      charged trace = some (priced original + Gas.price i.opcode)
  kept : ∀ {original : List Instr}, Path (Position.start f.body) original .exit →
    ∃ trace, Path (Position.start f'.body) trace .exit ∧
      withdrawCode m' k trace = some original

variable {m m' : Module} {k : Nat} {image : Instr → Instr}

theorem Metered.meterable (h : Metered m k image m') {f : Function} (hf : f ∈ m.functions) :
    Meterable image f.body where
  follows := by
    intro i hi
    obtain ⟨meaning, hmeaning⟩ := (h.spelled f hf).meaning i hi
    exact (h.replaces f hf i hi).follows hmeaning
  no_charge := fun i hi => (h.replaces f hf i hi).ne_charge h.injected
  fits := h.fits hf

/-- Nothing is pending where a function is entered. -/
theorem MayPend.start {body : List Instr} (hbody : Meterable image body) :
    MayPend body 0 (Position.start body) where
  within := Position.start_within body
  fits := hbody.fits
  left := fun _ => rfl

/-- A path through a metered body comes back as the path that it is the image of. -/
theorem Metered.withdraw_path (h : Metered m k image m') {f : Function} (hf : f ∈ m.functions)
    {trace original : List Instr} {v : Position}
    (horiginal : Path (Position.start f.body) original v)
    (hsame : uncharge trace = original.map image) :
    Metering.withdrawCode m' k trace = some original := by
  have hmem := mem_of_path (Position.start_within f.body) horiginal
  rw [Metering.withdrawCode, hsame]
  exact mapM_map_eq_some fun i hi => (h.replaces f hf i (hmem i hi)).withdrawInstr h.injected

theorem Metered.gasExact (h : Metered m k image m') {f : Function} (hf : f ∈ m.functions) :
    GasExact m' k f { f with body := meter image 0 f.body } := by
  have hbody := h.meterable hf
  have hpaths : ∀ {trace : List Instr} {w : Position}, MayStop w →
      Path (Position.start (meter image 0 f.body)) trace w →
      ∃ original v due, Metering.withdrawCode m' k trace = some original ∧
        Path (Position.start f.body) original v ∧ StopsWith w v due ∧
        charged trace = some (priced original + due) := by
    intro trace w hstop hpath
    rw [← meterPosition_start] at hpath
    obtain ⟨original, v, due, horiginal, hwhere, hsame, hcharged⟩ :=
      paid_of_path hbody (trace.length + 1) (Nat.lt_succ_self _) (.start hbody) hstop hpath
    rw [Nat.zero_add] at hcharged
    exact ⟨original, v, due, h.withdraw_path hf horiginal hsame, horiginal, hwhere, hcharged⟩
  -- the exit is no boundary, and nothing is due there
  constructor
  · intro trace hpath
    obtain ⟨original, v, due, hback, horiginal, hwhere, hcharged⟩ := hpaths (.inl rfl) hpath
    cases hwhere with
    | exit => exact ⟨original, hback, horiginal, hcharged⟩
    | boundary hi => cases hi
  · intro trace w i hpath hi hboundary
    obtain ⟨original, v, due, hback, horiginal, hwhere, hcharged⟩ :=
      hpaths (.inr ⟨i, hi, hboundary⟩) hpath
    cases hwhere with
    | exit => cases hi
    | boundary hw hv _ =>
      obtain rfl := Option.some.inj (hi.symm.trans hw)
      exact ⟨original, v, hback, horiginal, hv, hcharged⟩
  · intro original hpath
    obtain ⟨trace, left, htrace, hsame⟩ := exists_metered_path hbody (.start hbody) hpath
    exact ⟨trace, htrace, h.withdraw_path hf hpath hsame⟩

/-- Gas is exact on every path through an instrumented module: each of its functions passes to the
first import exactly what the original instructions on the path cost. -/
theorem instrument_gasExact {wasm : List UInt8} {maxPages : Nat} {out : Instrumented}
    (h : instrument wasm maxPages = .ok out) :
    ∃ m type, Module.decode wasm = .ok m ∧
      out.module.imports[0]? = some ⟨injectedNamespace, useGas, .function type⟩ ∧
      List.Forall₂ (GasExact out.module out.injected) m.functions out.module.functions := by
  obtain ⟨m, image, hdecode, hmetered⟩ := instrument_metered h
  obtain ⟨type, hcharge, -⟩ := hmetered.charge
  refine ⟨m, type, hdecode, hcharge, ?_⟩
  rw [hmetered.functions, List.forall₂_map_right_iff, List.forall₂_same]
  exact fun f hf => hmetered.gasExact hf

theorem instrument_gasExact_sample :
    ∃ out, instrument sampleContract defaultMaxPages = .ok out ∧
      ∃ m type, Module.decode sampleContract = .ok m ∧
        out.module.imports[0]? = some ⟨injectedNamespace, useGas, .function type⟩ ∧
        List.Forall₂ (GasExact out.module out.injected) m.functions out.module.functions := by
  obtain ⟨out, hout, -⟩ := sampleContract_instruments
  exact ⟨out, hout, instrument_gasExact hout⟩

end MeteredWasm.Metering
