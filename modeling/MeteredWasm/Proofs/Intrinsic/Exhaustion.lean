import MeteredWasm.Proofs.Intrinsic.Tariff

/-!
# Calls that are not paid for

All intrinsics but one have one charge at most, and a charge that is not covered takes nothing. Reading
the data of the action is charged in two parts, first the call and then the bytes. Where the gas
covers the first part only, that part is gone.
-/

namespace MeteredWasm

open Wasm (Value)
open Session

variable {ω : Type} {args : List Value} {c : Context ω}

/-! ## §1 Single charges -/

theorem ActionCall.length_charges {op : ActionCall} (action : Action) (args : List Value)
    (h : op ≠ .readData) : (op.charges action args).length ≤ 1 := by
  fun_cases charges action op args with
  | case2 | case3 => exact absurd rfl h
  | _ => exact Nat.le_refl 1

theorem CryptoCall.length_charges (op : CryptoCall) (args : List Value) :
    (op.charges args).length ≤ 1 := by
  fun_cases charges op args <;> exact Nat.le_refl 1

theorem StorageCall.length_charges (op : StorageCall) (args : List Value) :
    (op.charges args).length ≤ 1 := by
  fun_cases charges op args <;> exact Nat.le_refl 1

theorem MemoryCall.length_charges (op : MemoryCall) (args : List Value) :
    (op.charges args).length ≤ 1 := by
  fun_cases charges op args <;> exact Nat.le_refl 1

theorem ChainCall.length_charges (op : ChainCall) (args : List Value) :
    (op.charges args).length ≤ 1 := by
  fun_cases charges op args <;> exact Nat.le_refl 1

/-- Whatever is charged is charged at once, except for reading the data of the action. -/
theorem Intrinsic.length_charges {i : Intrinsic} (action : Action) (args : List Value)
    (h : i ≠ .action .readData) : (i.charges action args).length ≤ 1 := by
  cases i with
  | action op => exact op.length_charges action args fun hop => h (congrArg _ hop)
  | wide op => exact Nat.le_refl 1
  | console op | float op => exact Nat.zero_le 1
  | assertion op => cases op with
    | abort => exact Nat.zero_le 1
    | _ => exact Nat.le_refl 1
  | crypto op => exact op.length_charges args
  | storage op => exact op.length_charges args
  | memory op => exact op.length_charges args
  | chain op => exact op.length_charges args

namespace Session

/-- A first charge that is not covered takes nothing. -/
theorem exec_charges_first {first : Nat} {rest : List Nat} (hfirst : c.gas < first) :
    ((first :: rest).forM charge : Session ω Unit).exec c =
      (.error (.outOfGas first c.gas), c) := by
  rw [forM_charge_cons, exec_bind_error (exec_charge_unpaid hfirst)]

/-- The first of two charges is gone when only the second is not covered. -/
theorem exec_charges_second {first second : Nat} (hfirst : first ≤ c.gas)
    (hgas : c.gas < first + second) :
    ([first, second].forM charge : Session ω Unit).exec c =
      (.error (.outOfGas second (c.gas - first)), c.withGas (c.gas - first)) := by
  have hsecond : (c.withGas (c.gas - first)).gas < second := Nat.sub_lt_left_of_lt_add hfirst hgas
  rw [forM_charge_cons, exec_bind_ok (exec_charge_paid hfirst), exec_charges_first hsecond]
  rfl

theorem exec_charges_single {costs : List Nat} (hone : costs.length ≤ 1)
    (hgas : c.gas < costs.sum) :
    (costs.forM charge : Session ω Unit).exec c = (.error (.outOfGas costs.sum c.gas), c) := by
  match costs, hone with
  | [], _ => exact absurd hgas (Nat.not_lt_zero _)
  | [cost], _ =>
    rw [List.sum_singleton] at hgas ⊢
    exact exec_charges_first hgas

end Session

/-! ## §2 Calls -/

namespace Intrinsic

theorem exec_call_unpaid_single {i : Intrinsic} (host : Host ω) (hargs : i.signature.accepts args)
    (hgas : c.gas < i.price c.action args) (hone : i ≠ .action .readData) :
    (i.call host args).exec c = (.error (.outOfGas (i.price c.action args) c.gas), c) := by
  rw [← sum_charges c.action hargs] at hgas ⊢
  rw [exec_call hargs]
  exact exec_bind_error (exec_charges_single (length_charges c.action args hone) hgas)

/-- Without gas for the call, reading the data takes nothing either. -/
theorem exec_readData_uncalled (host : Host ω)
    (hargs : (Intrinsic.action .readData).signature.accepts args) (hbase : c.gas < Gas.callBase) :
    ((Intrinsic.action .readData).call host args).exec c =
      (.error (.outOfGas Gas.callBase c.gas), c) := by
  rw [exec_call hargs]
  refine exec_bind_error ?_
  cases ActionCall.takes_of_accepts hargs with
  | readData start length =>
    simp only [charges, ActionCall.charges]
    split <;> exact exec_charges_first hbase

/-- Gas for the call that does not cover the price is missing for the bytes. -/
theorem charges_readData_of_unread (hargs : (Intrinsic.action .readData).signature.accepts args)
    (hgas : c.gas < (Intrinsic.action .readData).price c.action args)
    (hbase : Gas.callBase ≤ c.gas) :
    (Intrinsic.action .readData).charges c.action args =
      [Gas.callBase, c.action.data.length * Gas.memoryByte] := by
  rw [← sum_charges c.action hargs] at hgas
  cases ActionCall.takes_of_accepts hargs with
  | readData start length =>
    simp only [charges, ActionCall.charges] at hgas ⊢
    by_cases hl : length = 0
    · -- the size alone costs no more than the call
      rw [if_pos hl, List.sum_singleton] at hgas
      exact absurd hbase (Nat.not_le_of_lt hgas)
    · rw [if_neg hl]

/-- With gas for the call but not for the bytes, the call is charged. -/
theorem exec_readData_unread (hargs : (Intrinsic.action .readData).signature.accepts args)
    (hgas : c.gas < (Intrinsic.action .readData).price c.action args)
    (hbase : Gas.callBase ≤ c.gas) :
    c.gas - Gas.callBase < c.action.data.length * Gas.memoryByte ∧
      ∀ host : Host ω, ((Intrinsic.action .readData).call host args).exec c =
        (.error (.outOfGas (c.action.data.length * Gas.memoryByte) (c.gas - Gas.callBase)),
          c.withGas (c.gas - Gas.callBase)) := by
  have hcharges := charges_readData_of_unread hargs hgas hbase
  have hboth : c.gas < Gas.callBase + c.action.data.length * Gas.memoryByte := by
    rw [← sum_charges c.action hargs, hcharges] at hgas
    simpa using hgas
  refine ⟨Nat.sub_lt_left_of_lt_add hbase hboth, ?_⟩
  intro host
  rw [exec_call hargs, hcharges]
  exact exec_bind_error (exec_charges_second hbase hboth)

/-- A call that is not paid for fails for lack of gas and leaves the context as it was, gas and all,
whichever host stands ready to be asked. Only reading the data of the action takes the gas of a call
where there is enough for that, before it finds that the bytes are not covered. -/
theorem call_unpaid {i : Intrinsic} (hargs : i.signature.accepts args)
    (hgas : c.gas < i.price c.action args) :
    ∃ need left, left < need ∧
      (left = if i = .action .readData ∧ Gas.callBase ≤ c.gas then c.gas - Gas.callBase
        else c.gas) ∧
      ∀ host : Host ω, (i.call host args).exec c =
        (.error (.outOfGas need left), c.withGas left) := by
  by_cases hread : i = .action .readData
  · subst hread
    by_cases hbase : Gas.callBase ≤ c.gas
    · rw [if_pos ⟨rfl, hbase⟩]
      obtain ⟨hneed, hcall⟩ := exec_readData_unread hargs hgas hbase
      exact ⟨_, _, hneed, rfl, hcall⟩
    · rw [if_neg fun h => hbase h.2]
      exact ⟨Gas.callBase, c.gas, Nat.lt_of_not_le hbase, rfl, fun host =>
        exec_readData_uncalled host hargs (Nat.lt_of_not_le hbase)⟩
  · rw [if_neg fun h => hread h.1]
    exact ⟨i.price c.action args, c.gas, hgas, rfl, fun host =>
      exec_call_unpaid_single host hargs hgas hread⟩

/-- Copying eight bytes one unit of gas short of the price. -/
theorem call_unpaid_copy :
    let c := Context.start () .empty 123 ⟨⟨0⟩, []⟩ default default
    let i := Intrinsic.memory .copy
    let args := [.i32 0, .i32 16, .i32 8]
    i.signature.accepts args ∧ i.price c.action args = 124 ∧
      ∃ need left, left < need ∧
        (left = if i = .action .readData ∧ Gas.callBase ≤ c.gas then c.gas - Gas.callBase
          else c.gas) ∧
        ∀ host : Host Unit, (i.call host args).exec c =
          (.error (.outOfGas need left), c.withGas left) := by
  intro c i args
  have hprice : i.price c.action args = 124 := rfl
  refine ⟨rfl, hprice, call_unpaid rfl ?_⟩
  rw [hprice]
  decide

/-- Three bytes cost 109, the call included. With 101 the failed call has taken 100. -/
theorem readData_charges_call :
    let c := Context.start () .empty 101 ⟨⟨0⟩, [1, 2, 3]⟩ default default
    let i := Intrinsic.action .readData
    let args := [.i32 0, .i32 8]
    i.signature.accepts args ∧ c.gas < i.price c.action args ∧
      ∀ host : Host Unit, (i.call host args).exec c = (.error (.outOfGas 9 1), c.withGas 1) ∧
        ((i.call host args).exec c).2.gas ≠ c.gas := by
  intro c i args
  have hgas : c.gas < i.price c.action args := by decide
  refine ⟨rfl, hgas, ?_⟩
  intro host
  have hcall := (exec_readData_unread rfl hgas (by decide)).2 host
  refine ⟨hcall, ?_⟩
  rw [hcall]
  decide

end Intrinsic

end MeteredWasm
