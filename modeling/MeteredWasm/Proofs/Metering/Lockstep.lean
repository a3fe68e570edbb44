import MeteredWasm.Proofs.Metering.MeteredCalls

/-!
# Metered modules in lockstep

A path through a metered module goes in step with one through the module itself: each activation is
at the same place in the metered code as in the code, and only the innermost one may be within a
charge. What an activation owes is the price of what it has executed since its last boundary, and an
activation that waits for a call owes at least the price of that call.
-/

namespace MeteredWasm.Metering

open Wasm (Activation CallPath Exit Function Instr Label Module Position Signature Step)

/-! ## §1 What is owed -/

/-- The price of what was executed since the last boundary, the latest first. -/
def owed (done : List Instr) : Nat :=
  priced (done.takeWhile fun i => !isBoundary i.opcode)

/-- What several activations owe together. -/
def debt (c : List Activation) : Nat :=
  (c.map fun a => owed a.done).sum

theorem owed_cons (i : Instr) (done : List Instr) :
    owed (i :: done) = pendingAfter (owed done) i := by
  unfold owed pendingAfter
  rw [List.takeWhile_cons]
  cases isBoundary i.opcode with
  | true => rfl
  | false =>
    show Gas.price i.opcode + _ = _ + Gas.price i.opcode
    exact Nat.add_comm _ _

@[simp]
theorem debt_cons (a : Activation) (outer : List Activation) :
    debt (a :: outer) = owed a.done + debt outer :=
  rfl

@[simp]
theorem owed_enter (f : Function) : owed (Activation.enter f).done = 0 :=
  rfl

/-! ## §2 Open activations -/

variable {m m' : Module} {k : Nat} {image : Instr → Instr} {functions : List Signature}

/-- Activations that are open during a path: each is within a function of the module, and those that
wait for a call owe it. -/
structure Accounted (m : Module) (c : List Activation) : Prop where
  pend : ∀ a ∈ c, ∃ f ∈ m.functions, MayPend f.body (owed a.done) a.position
  inside : ∀ a ∈ c, a.position.labels ≠ []
  waiting : ∀ a ∈ c.tail, 2 ≤ owed a.done

theorem Accounted.outer {a : Activation} {outer : List Activation}
    (h : Accounted m (a :: outer)) : Accounted m outer where
  pend := fun b hb => h.pend b (List.mem_cons_of_mem a hb)
  inside := fun b hb => h.inside b (List.mem_cons_of_mem a hb)
  waiting := fun b hb => h.waiting b (List.mem_of_mem_tail hb)

theorem Accounted.nil (m : Module) : Accounted m [] where
  pend := List.forall_mem_nil _
  inside := List.forall_mem_nil _
  waiting := List.forall_mem_nil _

/-- One more activation, over others that owe at least a call. -/
theorem Accounted.cons {a : Activation} {outer : List Activation} (h : Accounted m outer)
    (hwaiting : ∀ b ∈ outer, 2 ≤ owed b.done) {f : Function} (hf : f ∈ m.functions)
    (hpend : MayPend f.body (owed a.done) a.position) (hinside : a.position.labels ≠ []) :
    Accounted m (a :: outer) where
  pend := List.forall_mem_cons.mpr ⟨⟨f, hf, hpend⟩, h.pend⟩
  inside := List.forall_mem_cons.mpr ⟨hinside, h.inside⟩
  waiting := hwaiting

theorem Accounted.enter (h : Metered m k image m') {c : List Activation} (hc : Accounted m c)
    (hwaiting : ∀ a ∈ c, 2 ≤ owed a.done) {f : Function} (hf : f ∈ m.functions) :
    Accounted m (.enter f :: c) :=
  hc.cons hwaiting hf (.start (h.meterable hf)) (List.cons_ne_nil _ _)

/-- Where an activation is, with the function that it is within. -/
theorem Accounted.here {a : Activation} {outer : List Activation} {i : Instr} {rest : List Instr}
    {labels : List Label} (h : Accounted m (a :: outer))
    (hposition : a.position = ⟨i :: rest, labels⟩) :
    ∃ f ∈ m.functions, MayPend f.body (owed a.done) ⟨i :: rest, labels⟩ ∧ i ∈ f.body := by
  obtain ⟨f, hf, hpend⟩ := h.pend a List.mem_cons_self
  rw [hposition] at hpend
  exact ⟨f, hf, hpend, hpend.within.code.subset List.mem_cons_self⟩

/-- What a step executes is an instruction of some function, and its price can be charged. -/
theorem Accounted.executes {a : Activation} {outer v : List Activation} {i : Instr}
    (h : Accounted m (a :: outer)) (hstep : Step m (a :: outer) i v) :
    ∃ f ∈ m.functions, i ∈ f.body ∧ owed a.done + Gas.price i.opcode < 2 ^ 63 := by
  obtain ⟨_, _, rest, labels, hsame, ha⟩ := hstep.position
  obtain ⟨rfl, rfl⟩ := List.cons_eq_cons.mp hsame
  obtain ⟨f, hf, hpend, hi⟩ := h.here ha
  exact ⟨f, hf, hi, hpend.fits.cost⟩

/-- The innermost activation goes on, or its function is left and nothing was owed any more. -/
theorem Accounted.advance (h : Metered m k image m') {a : Activation} {outer : List Activation}
    {i : Instr} {rest : List Instr} {labels : List Label} {v : Position}
    (hc : Accounted m (a :: outer)) (hposition : a.position = ⟨i :: rest, labels⟩)
    (hv : v ∈ a.position.successors) :
    Accounted m ((a.advance i v).onto outer) ∧
      debt ((a.advance i v).onto outer) = pendingAfter (owed a.done) i + debt outer := by
  obtain ⟨f, hf, hpend, -⟩ := hc.here hposition
  rw [hposition] at hv
  have hnext := hpend.successor (h.meterable hf) hv
  rw [← owed_cons] at hnext ⊢
  unfold Activation.onto
  split_ifs with hleft
  · have hzero : owed (i :: a.done) = 0 := hnext.left hleft
    exact ⟨hc.outer, by rw [hzero, Nat.zero_add]⟩
  · exact ⟨hc.outer.cons hc.waiting hf hnext hleft, rfl⟩

/-- An activation that makes a call owes it from then on. -/
theorem Accounted.call (h : Metered m k image m') {a : Activation} {outer : List Activation}
    {i : Instr} {rest : List Instr} {labels : List Label} (hc : Accounted m (a :: outer))
    (hposition : a.position = ⟨i :: rest, labels⟩) (hcall : i.isCall = true) :
    Accounted m (a.advance i ⟨rest, labels⟩ :: outer) ∧
      owed (a.advance i ⟨rest, labels⟩).done = owed a.done + Gas.price i.opcode ∧
      2 ≤ owed (a.advance i ⟨rest, labels⟩).done := by
  obtain ⟨f, hf, hpend, hi⟩ := hc.here hposition
  obtain ⟨meaning, hspelled⟩ := (h.spelled f hf).meaning i hi
  have hprice := two_le_price_of_isCall hspelled hcall
  have hsum : owed (a.advance i ⟨rest, labels⟩).done = owed a.done + Gas.price i.opcode := by
    show owed (i :: a.done) = _
    rw [owed_cons, pendingAfter, ((h.meterable hf).follows i hi).not_boundary hcall]
    rfl
  have hnext : (⟨rest, labels⟩ : Position) ∈ a.position.successors := by
    rw [hposition, successors_of_isCall hcall]
    exact List.mem_singleton_self _
  -- a call is not the end of a function, so the activation stays where it waits
  have hinside : labels ≠ [] := by
    have hlabels := hc.inside a List.mem_cons_self
    rwa [hposition] at hlabels
  have hadvance := (hc.advance h hposition hnext).1
  rw [Activation.onto_eq_cons hinside] at hadvance
  exact ⟨hadvance, hsum, by omega⟩

/-- A step keeps the account: the innermost activation owes what is pending behind the
instruction. -/
theorem Accounted.step (h : Metered m k image m') {a : Activation} {outer v : List Activation}
    {i : Instr} (hc : Accounted m (a :: outer)) (hstep : Step m (a :: outer) i v) :
    Accounted m v ∧ debt v = pendingAfter (owed a.done) i + debt outer := by
  cases hstep with
  | plain hposition hplain hv => exact hc.advance h hposition hv
  -- both calls are owed from now on; a function that is entered owes nothing of its own yet
  | @host _ _ _ rest labels _ hposition hcalls hreturns =>
    obtain ⟨hadvance, -, -⟩ := hc.call h hposition hcalls.isCall
    refine ⟨hadvance, ?_⟩
    rw [debt_cons, Activation.advance, owed_cons]
  | @enter _ _ _ rest labels f hposition hcalls =>
    obtain ⟨hadvance, -, howed⟩ := hc.call h hposition hcalls.isCall
    constructor
    · apply hadvance.enter h _ hcalls.mem_functions
      intro b hb
      rcases List.mem_cons.mp hb with rfl | houter
      · exact howed
      · exact hc.waiting b houter
    · rw [debt_cons, debt_cons, owed_enter, Nat.zero_add, Activation.advance, owed_cons]

/-! ## §3 In step -/

/-- The charge in front of the first instruction of some code. -/
def firstCharge (pending : Nat) : List Instr → List Instr
  | [] => []
  | i :: _ => chargeFor pending i

/-- Metered code behind the charge in front of its first instruction. -/
def behindCharge (image : Instr → Instr) (pending : Nat) : List Instr → List Instr
  | [] => []
  | i :: rest => image i :: meter image (pendingAfter pending i) rest

theorem meter_eq_append (pending : Nat) (code : List Instr) :
    meter image pending code = firstCharge pending code ++ behindCharge image pending code := by
  cases code with
  | nil => rfl
  | cons i rest => rfl

/-- The charge in front of what the innermost activation executes next. -/
def chargeAt : List Activation → List Instr
  | [] => []
  | a :: _ => firstCharge (owed a.done) a.position.code

/-- Where activations are in metered code, the innermost one in front of what is left of its
charge. -/
def meterPlaces (image : Instr → Instr) (left : List Instr) : List Activation → List Position
  | [] => []
  | a :: outer =>
    ⟨left ++ behindCharge image (owed a.done) a.position.code,
        a.position.labels.map (meterLabel image)⟩ ::
      outer.map fun a => meterPosition image (owed a.done) a.position

/-- The activations of a metered module are where those of the module are; of the charge in front of
the innermost one, a part may have been spent. -/
structure InStep (m : Module) (image : Instr → Instr) (spent left : List Instr)
    (c' c : List Activation) : Prop where
  accounted : Accounted m c
  charge : chargeAt c = spent ++ left
  places : c'.map Activation.position = meterPlaces image left c

/-- In front of its whole charge, an activation is where metering puts it. -/
theorem meterPlaces_chargeAt (c : List Activation) :
    meterPlaces image (chargeAt c) c =
      c.map fun a => meterPosition image (owed a.done) a.position := by
  cases c with
  | nil => rfl
  | cons a outer =>
    rw [meterPlaces, chargeAt, ← meter_eq_append]
    rfl

theorem InStep.of_places {c' c : List Activation} (hc : Accounted m c)
    (hplaces : c'.map Activation.position =
      c.map fun a => meterPosition image (owed a.done) a.position) :
    InStep m image [] (chargeAt c) c' c where
  accounted := hc
  charge := rfl
  places := hplaces.trans (meterPlaces_chargeAt c).symm

/-- Where nothing has been spent, the innermost activations go in step alone, and so do those
further out. -/
theorem InStep.cons_cases {a' : Activation} {outer' c : List Activation}
    (h : InStep m image [] (chargeAt c) (a' :: outer') c) :
    ∃ a outer, c = a :: outer ∧ a'.position = meterPosition image (owed a.done) a.position ∧
      InStep m image [] (chargeAt [a]) [a'] [a] ∧
      InStep m image [] (chargeAt outer) outer' outer := by
  have hplaces := h.places
  rw [meterPlaces_chargeAt] at hplaces
  cases c with
  | nil => cases hplaces
  | cons a outer =>
    obtain ⟨hplace, houter⟩ := List.cons_eq_cons.mp hplaces
    have halone : Accounted m [a] :=
      { pend := List.forall_mem_singleton.mpr (h.accounted.pend a List.mem_cons_self)
        inside := List.forall_mem_singleton.mpr (h.accounted.inside a List.mem_cons_self)
        waiting := fun b hb => by cases hb }
    exact ⟨a, outer, rfl, hplace, .of_places halone (congrArg (fun u => [u]) hplace),
      .of_places h.accounted.outer houter⟩

theorem InStep.enter (h : Metered m k image m') {f : Function} (hf : f ∈ m.functions) :
    InStep m image [] (chargeAt [.enter f]) [.enter (meterFunction image f)] [.enter f] :=
  .of_places ((Accounted.nil m).enter h (fun a ha => by cases ha) hf) rfl

/-- Where the innermost activation of the metered module can go on, that of the module can. -/
theorem InStep.here {spent left : List Instr} {a' : Activation} {outer' c : List Activation}
    {j : Instr} {rest' : List Instr} {labels' : List Label}
    (h : InStep m image spent left (a' :: outer') c)
    (hposition : a'.position = ⟨j :: rest', labels'⟩) :
    ∃ a outer i rest labels, c = a :: outer ∧ a.position = ⟨i :: rest, labels⟩ ∧ labels ≠ [] ∧
      chargeFor (owed a.done) i = spent ++ left ∧
      j :: rest' = left ++ image i :: meter image (pendingAfter (owed a.done) i) rest ∧
      labels' = labels.map (meterLabel image) ∧
      outer'.map Activation.position =
        outer.map fun a => meterPosition image (owed a.done) a.position := by
  have hcharge := h.charge
  have hplaces := h.places
  cases c with
  | nil => cases hplaces
  | cons a outer =>
    obtain ⟨⟨code, labels⟩, done⟩ := a
    obtain ⟨hplace, houter⟩ := List.cons_eq_cons.mp hplaces
    obtain ⟨hcode, hlabels⟩ := Position.mk.inj (hposition.symm.trans hplace)
    cases code with
    | nil =>
      -- no code is left, and no charge stands in front of none
      obtain ⟨-, rfl⟩ := List.append_eq_nil_iff.mp hcharge.symm
      cases hcode
    | cons i rest =>
      have hinside : labels ≠ [] := h.accounted.inside _ List.mem_cons_self
      exact ⟨_, outer, i, rest, labels, rfl, rfl, hinside, hcharge, hcode, hlabels, houter⟩

/-- Leaving a function of the metered module is leaving that of the module. -/
theorem map_position_onto {a' a : Activation} {outer' outer : List Activation}
    (hposition : a'.position = meterPosition image (owed a.done) a.position)
    (houter : outer'.map Activation.position =
      outer.map fun a => meterPosition image (owed a.done) a.position) :
    (a'.onto outer').map Activation.position =
      (a.onto outer).map fun a => meterPosition image (owed a.done) a.position := by
  have hlabels : a'.position.labels = [] ↔ a.position.labels = [] := by
    rw [hposition, meterPosition, List.map_eq_nil_iff]
  unfold Activation.onto
  simp only [hlabels]
  split_ifs
  · exact houter
  · rw [List.map_cons, List.map_cons, hposition, houter]

/-- Within a charge, the innermost activation is in front of what comes next of it. That is not the
end of a function, it calls no function but imported ones that return, and behind it less of the
charge is left. -/
theorem InStep.within_charge (h : Metered m k image m') {spent left : List Instr} {j j' : Instr}
    {a' : Activation} {outer' c : List Activation} {rest' : List Instr} {labels' : List Label}
    (hc : InStep m image spent (j :: left) (a' :: outer') c)
    (hposition : a'.position = ⟨j' :: rest', labels'⟩) :
    j' = j ∧ labels' ≠ [] ∧ j'.flow = .next ∧
      (∀ callee, m'.Calls j' callee → ∃ import_, callee = .host import_ ∧
        import_.exits = false) ∧
      InStep m image (spent ++ [j]) left (a'.advance j' ⟨rest', labels'⟩ :: outer') c := by
  obtain ⟨a, outer, i, rest, labels, rfl, ha, hinside, hcharge, hcode, rfl, houter⟩ :=
    hc.here hposition
  obtain ⟨f, hf, hpend, -⟩ := hc.accounted.here ha
  have hcost := hpend.fits.cost
  obtain ⟨rfl, rfl⟩ := List.cons_eq_cons.mp hcode
  have hmem : j' ∈ chargeFor (owed a.done) i := by
    rw [hcharge]
    exact List.mem_append_right _ List.mem_cons_self
  refine ⟨rfl, ?_, flow_of_mem_chargeFor hcost hmem, ?_, hc.accounted, ?_, ?_⟩
  · intro hnil
    exact hinside (List.map_eq_nil_iff.mp hnil)
  · exact fun callee hcalls => h.calls_charge hcost hmem hcalls
  · rw [hc.charge, List.append_assoc, List.singleton_append]
  · rw [List.map_cons, houter, meterPlaces, ha]
    rfl

/-- A step within a charge only spends more of it. -/
theorem InStep.spend (h : Metered m k image m') {spent left : List Instr} {j j' : Instr}
    {c' c v' : List Activation} (hc : InStep m image spent (j :: left) c' c)
    (hstep : Step m' c' j' v') : j' = j ∧ InStep m image (spent ++ [j]) left v' c := by
  cases hstep with
  | plain hposition hplain hv =>
    obtain ⟨rfl, hinside, hflow, -, hnext⟩ := hc.within_charge h hposition
    rw [hposition] at hv
    simp only [Position.successors, hflow] at hv
    obtain rfl := List.mem_singleton.mp hv
    rw [Activation.onto_eq_cons hinside]
    exact ⟨rfl, hnext⟩
  | host hposition hcalls hreturns =>
    obtain ⟨rfl, -, -, -, hnext⟩ := hc.within_charge h hposition
    exact ⟨rfl, hnext⟩
  | enter hposition hcalls =>
    obtain ⟨-, -, -, hhost, -⟩ := hc.within_charge h hposition
    obtain ⟨import_, hdefined, -⟩ := hhost _ hcalls
    cases hdefined

/-- Behind its charge, the image of an instruction makes the step that the instruction makes. -/
theorem InStep.step (h : Metered m k image m') (hwell : m.WellTyped functions)
    {spent : List Instr} {j : Instr} {c' c v' : List Activation}
    (hc : InStep m image spent [] c' c) (hstep : Step m' c' j v') :
    ∃ a outer i v, c = a :: outer ∧ j = image i ∧ Step m c i v ∧
      spent = chargeFor (owed a.done) i ∧ InStep m image [] (chargeAt v) v' v := by
  -- where the step goes is all that is left to see: what is owed there follows from the step
  suffices hmade : ∃ a outer i v, c = a :: outer ∧ j = image i ∧ Step m c i v ∧
      spent = chargeFor (owed a.done) i ∧ v'.map Activation.position =
        v.map fun a => meterPosition image (owed a.done) a.position by
    obtain ⟨a, outer, i, v, rfl, hj, hv, hspent, hplaces⟩ := hmade
    have haccounted := (hc.accounted.step h hv).1
    exact ⟨a, outer, i, v, rfl, hj, hv, hspent, .of_places haccounted hplaces⟩
  cases hstep with
  | plain hposition hplain hv =>
    obtain ⟨a, outer, i, rest, labels, rfl, ha, -, hcharge, hcode, rfl, houter⟩ :=
      hc.here hposition
    obtain ⟨f, hf, hpend, hi⟩ := hc.accounted.here ha
    obtain ⟨rfl, rfl⟩ := List.cons_eq_cons.mp hcode
    have hbody := h.meterable hf
    have hrest : ∀ j ∈ rest, Follows image j :=
      fun j hj => hbody.follows j (hpend.within.code.subset (List.mem_cons_of_mem i hj))
    obtain ⟨-, hplain⟩ := (h.replaces f hf i hi).of_not_isCall hplain
    -- the flow of metered code is that of the code, place by place
    rw [hposition, successors_meter labels (hbody.follows i hi) hrest hpend.fits.tail] at hv
    obtain ⟨p, hp, rfl⟩ := List.mem_map.mp hv
    refine ⟨a, outer, i, _, rfl, rfl, .plain ha hplain (ha ▸ hp), ?_, ?_⟩
    · rw [hcharge, List.append_nil]
    · apply map_position_onto _ houter
      rw [Activation.advance, Activation.advance, owed_cons]
  | host hposition hcalls hreturns =>
    obtain ⟨a, outer, i, rest, labels, rfl, ha, hinside, hcharge, hcode, rfl, houter⟩ :=
      hc.here hposition
    obtain ⟨f, hf, hpend, hi⟩ := hc.accounted.here ha
    obtain ⟨rfl, rfl⟩ := List.cons_eq_cons.mp hcode
    refine ⟨a, outer, i, a.advance i ⟨rest, labels⟩ :: outer, rfl, rfl, ?_, ?_, ?_⟩
    · rcases h.calls_image hwell hf hi hcalls with ⟨callee, hcallee, hsame⟩ | ⟨hplain, -⟩
      · cases callee with
        | host import_ =>
          cases hsame
          exact .host ha hcallee hreturns
        | defined f => cases hsame
      · -- a float instruction, which just goes on
        have hflow := ((h.meterable hf).follows i hi).flow
        rw [flow_of_isCall hcalls.isCall] at hflow
        rw [← Activation.onto_eq_cons (a := a.advance i ⟨rest, labels⟩) hinside]
        refine .plain ha hplain ?_
        simp only [ha, Position.successors, ← hflow]
        exact List.mem_singleton_self _
    · rw [hcharge, List.append_nil]
    · rw [List.map_cons, List.map_cons, houter, Activation.advance, Activation.advance, owed_cons]
      rfl
  | enter hposition hcalls =>
    obtain ⟨a, outer, i, rest, labels, rfl, ha, -, hcharge, hcode, rfl, houter⟩ :=
      hc.here hposition
    obtain ⟨f, hf, hpend, hi⟩ := hc.accounted.here ha
    obtain ⟨rfl, rfl⟩ := List.cons_eq_cons.mp hcode
    -- what is entered is the image of a function, so the instruction enters that function
    rcases h.calls_image hwell hf hi hcalls with ⟨callee, hcallee, hsame⟩ | ⟨-, import_, hhost, -⟩
    · cases callee with
      | host import_ => cases hsame
      | defined g =>
        cases hsame
        refine ⟨a, outer, i, .enter g :: a.advance i ⟨rest, labels⟩ :: outer, rfl, rfl,
          .enter ha hcallee, ?_, ?_⟩
        · rw [hcharge, List.append_nil]
        · rw [List.map_cons, List.map_cons, List.map_cons, List.map_cons, houter,
            Activation.advance, Activation.advance, owed_cons]
          rfl
    · cases hhost

/-- An exit of the metered module is one of the module, and no charge stands in front of it. -/
theorem InStep.exit (h : Metered m k image m') (hwell : m.WellTyped functions)
    {spent left : List Instr} {j : Instr} {c' c w' : List Activation}
    (hc : InStep m image spent left c' c) (hexit : Exit m' c' j w') :
    spent = [] ∧ left = [] ∧ ∃ i w, j = image i ∧ Exit m c i w ∧ w'.length = w.length := by
  cases hexit with
  | call hposition hcalls hexits =>
    cases left with
    | cons first left =>
      -- nothing exits within a charge
      obtain ⟨-, -, -, hhost, -⟩ := hc.within_charge h hposition
      obtain ⟨import_, hreached, hreturns⟩ := hhost _ hcalls
      cases hreached
      rw [hexits] at hreturns
      cases hreturns
    | nil =>
      obtain ⟨a, outer, i, rest, labels, rfl, ha, -, hcharge, hcode, rfl, houter⟩ :=
        hc.here hposition
      obtain ⟨f, hf, -, hi⟩ := hc.accounted.here ha
      obtain ⟨rfl, -⟩ := List.cons_eq_cons.mp hcode
      rcases h.calls_image hwell hf hi hcalls with ⟨callee, hcallee, hsame⟩ |
        ⟨-, import_, hhost, hreturns⟩
      · cases callee with
        | host import_ =>
          cases hsame
          -- a call is no boundary, so it has no charge
          have hnot := ((h.meterable hf).follows i hi).not_boundary hcallee.isCall
          rcases chargeFor_cases (owed a.done) i with ⟨hboundary, -, -⟩ | ⟨hfor, -, -⟩
          · rw [hnot] at hboundary
            cases hboundary
          · rw [hfor, List.append_nil] at hcharge
            refine ⟨hcharge.symm, rfl, i, _, rfl, .call ha hcallee hexits, ?_⟩
            have hlength := congrArg List.length houter
            rw [List.length_map, List.length_map] at hlength
            rw [List.length_cons, List.length_cons, hlength]
        | defined f => cases hsame
      · cases hhost
        rw [hexits] at hreturns
        cases hreturns

end MeteredWasm.Metering
