import MeteredWasm.Proofs.Metering.Lockstep

/-!
# What a completed call has paid

A function of a metered module that returns has paid exactly for what was executed of the module, in
all the calls below it. A path that ends with the exit has not: the charge of a run stands in front
of the boundary that ends it, and every activation that is open at the exit is between two
boundaries, with the price of a call or more to pay.
-/

namespace MeteredWasm.Metering

open Wasm (Activation CallPath Exit Function Instr Module Signature Step)

/-! ## §1 Charges at the end of a path -/

/-- What a charge takes is no longer pending behind it. -/
theorem exists_charged_chargeFor {pending paid : Nat} {i : Instr} {rest : List Instr}
    (hcost : pending + Gas.price i.opcode < 2 ^ 63) (hrest : charged rest = some paid) :
    ∃ amount, charged (chargeFor pending i ++ rest) = some (amount + paid) ∧
      amount + pendingAfter pending i = pending + Gas.price i.opcode := by
  rcases chargeFor_cases pending i with ⟨-, hafter, hfor⟩ | ⟨hfor, hafter, -⟩
  · refine ⟨pending + Gas.price i.opcode, ?_, ?_⟩
    · rw [hfor, List.cons_append, List.cons_append, List.nil_append, charged_pair hcost, hrest,
        Option.map_some]
    · rw [hafter, Nat.add_zero]
  · refine ⟨0, ?_, ?_⟩
    · rw [hfor, List.nil_append, hrest, Nat.zero_add]
    · rw [hafter, Nat.zero_add]

variable {m m' : Module} {k : Nat} {image : Instr → Instr} {functions : List Signature}

/-- What a path through the metered module stands for, and that its charges and what its activations
owe come to the price of that. -/
structure Settles (m' : Module) (k : Nat) (c w : List Activation) (trace original : List Instr) :
    Prop where
  withdrawn : withdrawCode m' k trace = some original
  balance : ∃ paid, charged trace = some paid ∧ paid + debt w = debt c + priced original

theorem Settles.nil (m' : Module) (k : Nat) (c : List Activation) : Settles m' k c c [] [] where
  withdrawn := rfl
  balance := ⟨0, rfl, by rw [Nat.zero_add]; rfl⟩

/-- One more instruction in front, with its charge. -/
theorem Settles.step (h : Metered m k image m') {a : Activation} {outer v w : List Activation}
    {i : Instr} {trace original : List Instr} (hc : Accounted m (a :: outer))
    (hstep : Step m (a :: outer) i v) (hhead : trace.head? ≠ some (.call 0))
    (hrest : Settles m' k v w trace original) :
    Settles m' k (a :: outer) w (chargeFor (owed a.done) i ++ image i :: trace)
      (i :: original) := by
  obtain ⟨f, hf, hi, hcost⟩ := hc.executes hstep
  have hcall := (h.meterable hf).no_charge i hi
  constructor
  · have hrest := hrest.withdrawn
    unfold withdrawCode at hrest ⊢
    rw [uncharge_chargeFor hcost, uncharge_cons hhead, List.mapM_cons, hrest,
      (h.replaces f hf i hi).withdrawInstr h.injected]
    rfl
  · obtain ⟨paid, hpaid, hsum⟩ := hrest.balance
    rw [← charged_cons hcall hhead] at hpaid
    obtain ⟨amount, hcharged, hamount⟩ := exists_charged_chargeFor hcost hpaid
    have hdebt := (hc.step h hstep).2
    refine ⟨amount + paid, hcharged, ?_⟩
    rw [debt_cons, priced, List.map_cons, List.sum_cons]
    rw [priced] at hsum
    omega

theorem two_mul_length_le_debt {c : List Activation} (h : ∀ a ∈ c, 2 ≤ owed a.done) :
    2 * c.length ≤ debt c := by
  induction c with
  | nil => exact Nat.zero_le _
  | cons a outer ih =>
    have ha := h a List.mem_cons_self
    have houter := ih fun b hb => h b (List.mem_cons_of_mem a hb)
    rw [List.length_cons, debt_cons]
    omega

/-- What an exit leaves open: every activation owes at least a call. -/
theorem Accounted.exit (h : Metered m k image m') {c w : List Activation} {i : Instr}
    (hc : Accounted m c) (hexit : Exit m c i w) :
    debt w = debt c + Gas.price i.opcode ∧ 2 * w.length ≤ debt w := by
  cases hexit with
  | @call a outer _ rest labels _ hposition hcalls hexits =>
    obtain ⟨-, hsum, howed⟩ := hc.call h hposition hcalls.isCall
    have houter : 2 * outer.length ≤ debt outer := two_mul_length_le_debt hc.waiting
    rw [debt_cons, debt_cons, hsum, List.length_cons]
    omega

/-- The second function is the first one, metered. When it returns, it has paid for everything that
was executed, in all activations. When it ends with the exit, what the open activations owe has not
been paid, and that is at least the price of a call for each of them. -/
structure Completes (m m' : Module) (k : Nat) (f f' : Function) : Prop where
  returns : ∀ {trace : List Instr}, CallPath m' [.enter f'] trace [] →
    ∃ original, withdrawCode m' k trace = some original ∧ CallPath m [.enter f] original [] ∧
      charged trace = some (priced original)
  exits : ∀ {trace : List Instr} {j : Instr} {c' w' : List Activation},
    CallPath m' [.enter f'] trace c' → Exit m' c' j w' →
    ∃ original i c w paid, withdrawCode m' k (trace ++ [j]) = some (original ++ [i]) ∧
      CallPath m [.enter f] original c ∧ Exit m c i w ∧ w.length = w'.length ∧
      charged (trace ++ [j]) = some paid ∧ paid + debt w = priced (original ++ [i]) ∧
      2 * w.length ≤ debt w

end MeteredWasm.Metering
