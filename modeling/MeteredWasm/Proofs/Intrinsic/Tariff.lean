import MeteredWasm.Proofs.Intrinsic.Steps

/-!
# Gas of intrinsics

The price of a call is known from its arguments and the running action. It is charged before anything
else is done, and nothing that is done afterwards touches the gas: so a call that is not paid for
has no effect, and a call that is paid for costs its price, whatever comes of it.
-/

namespace MeteredWasm

open Wasm (Signature Value)

/-! ## §1 Arguments -/

namespace Wasm

/-- The word of a value, read as an unsigned number. -/
def Value.unsigned : Value → Nat
  | .i32 bits | .f32 bits => bits.toNat
  | .i64 bits | .f64 bits => bits.toNat

theorem Value.unsigned_lt (v : Value) : v.unsigned < 2 ^ 64 := by
  cases v with
  | i32 bits | f32 bits => exact Nat.lt_trans bits.toNat_lt (by decide)
  | i64 bits | f64 bits => exact bits.toNat_lt

end Wasm

/-! ## §2 Tariffs -/

/-- How a price depends on the arguments of a call and on the running action. -/
inductive Tariff where
  | flat (price : Nat)
  /-- As much as the first argument says. -/
  | stated
  /-- A base, and a price for each byte of the length at a position of the arguments. -/
  | byLength (base perByte position : Nat)
  /-- A base, and a price for each byte of the action's data unless the length at a position of the
  arguments is zero. -/
  | byData (base perByte position : Nat)

namespace Tariff

/-- The number at a position of the arguments. -/
def argument (args : List Value) (position : Nat) : Nat :=
  args[position]?.elim 0 Value.unsigned

/-- The price of a call. -/
def price (action : Action) (args : List Value) : Tariff → Nat
  | flat price => price
  | stated => argument args 0
  | byLength base perByte position => base + perByte * argument args position
  | byData base perByte position =>
    if argument args position = 0 then base else base + perByte * action.data.length

end Tariff

/-- The tariff of an intrinsic. -/
def Intrinsic.tariff : Intrinsic → Tariff
  | .action .useGas => .stated
  | .action .readData => .byData Gas.callBase Gas.memoryByte 1
  | .action (.address _) => .flat (Gas.callBase + Address.length * Gas.memoryByte)
  | .action .transfer => .flat Gas.transfer
  | .action _ | .wide _ => .flat Gas.callBase
  | .console _ | .float _ | .assertion .abort => .flat 0
  | .assertion _ => .flat Gas.callBase
  | .crypto .assertSha256 | .crypto .sha256 => .byLength Gas.sha256Base Gas.sha256Byte 1
  | .crypto _ => .flat Gas.recoverKey
  | .storage .store => .byLength Gas.storeBase Gas.storeByte 4
  | .storage .load => .byLength Gas.loadBase Gas.loadByte 4
  | .storage .removeKey | .storage .removeTable => .flat Gas.remove
  | .storage _ => .flat Gas.query
  | .memory _ => .byLength Gas.callBase Gas.memoryByte 2
  | .chain (.log topics) => .byLength (Gas.logBase topics.toNat) Gas.logByte 1
  | .chain _ => .flat Gas.callBase

/-- What a call of an intrinsic costs. -/
def Intrinsic.price (i : Intrinsic) (action : Action) (args : List Value) : Nat :=
  i.tariff.price action args

section Charges

variable {args : List Value}

theorem ActionCall.sum_charges (action : Action) {op : ActionCall}
    (h : op.signature.accepts args) :
    (op.charges action args).sum = (Intrinsic.action op).price action args := by
  cases takes_of_accepts h with
  | useGas cost => rfl
  | readData start length =>
    -- the second charge falls away with the length
    by_cases hl : length = 0
    · subst hl
      rfl
    · have hn : length.toNat ≠ 0 := fun hz => hl (UInt32.toNat_inj.mp hz)
      simp [charges, Intrinsic.price, Intrinsic.tariff, Tariff.price, Tariff.argument,
        Value.unsigned, hl, hn, Nat.mul_comm]
  | _ => simp [charges, Intrinsic.price, Intrinsic.tariff, Tariff.price]

theorem CryptoCall.sum_charges (action : Action) {op : CryptoCall}
    (h : op.signature.accepts args) :
    (op.charges args).sum = (Intrinsic.crypto op).price action args := by
  rw [Signature.accepts_iff] at h
  cases op with
  | assertSha256 | sha256 =>
    simp only [signature, List.map_eq_cons_iff, List.map_eq_nil_iff, Value.type_eq_i32] at h
    obtain ⟨_, _, rfl, _, _, _, rfl, ⟨length, rfl⟩, _, _, rfl, _, rfl⟩ := h
    exact congrArg (Gas.sha256Base + ·) (Nat.mul_comm _ _)
  | _ => simp [charges, Intrinsic.price, Intrinsic.tariff, Tariff.price]

theorem StorageCall.sum_charges (action : Action) {op : StorageCall}
    (h : op.signature.accepts args) :
    (op.charges args).sum = (Intrinsic.storage op).price action args := by
  rw [Signature.accepts_iff] at h
  cases op with
  | store | load =>
    simp only [signature, List.map_eq_cons_iff, List.map_eq_nil_iff, Value.type_eq_i32] at h
    obtain ⟨_, _, rfl, _, _, _, rfl, _, _, _, rfl, _, _, _, rfl, _, _, _, rfl, ⟨length, rfl⟩, rfl⟩ := h
    simp [charges, Intrinsic.price, Intrinsic.tariff, Tariff.price, Tariff.argument,
      Value.unsigned, Nat.mul_comm]
  | _ => simp [charges, Intrinsic.price, Intrinsic.tariff, Tariff.price]

theorem MemoryCall.sum_charges (action : Action) {op : MemoryCall}
    (h : op.signature.accepts args) :
    (op.charges args).sum = (Intrinsic.memory op).price action args := by
  rw [Signature.accepts_iff] at h
  simp only [signature, List.map_eq_cons_iff, List.map_eq_nil_iff, Value.type_eq_i32] at h
  obtain ⟨_, _, rfl, _, _, _, rfl, _, _, _, rfl, ⟨length, rfl⟩, rfl⟩ := h
  rfl

theorem ChainCall.sum_charges (action : Action) {op : ChainCall}
    (h : op.signature.accepts args) :
    (op.charges args).sum = (Intrinsic.chain op).price action args := by
  rw [Signature.accepts_iff] at h
  cases op with
  | log topics =>
    simp only [signature, List.map_eq_cons_iff, Value.type_eq_i32] at h
    obtain ⟨_, _, rfl, _, _, _, rfl, ⟨length, rfl⟩, _⟩ := h
    exact congrArg (Gas.logBase topics.toNat + ·) (Nat.mul_comm _ _)
  | _ => simp [charges, Intrinsic.price, Intrinsic.tariff, Tariff.price]

/-- What is charged in the end is the price. -/
theorem Intrinsic.sum_charges (action : Action) {i : Intrinsic}
    (h : i.signature.accepts args) : (i.charges action args).sum = i.price action args := by
  cases i with
  | action op => exact op.sum_charges action h
  | wide op | console op | float op => rfl
  | assertion op => cases op <;> rfl
  | crypto op => exact op.sum_charges action h
  | storage op => exact op.sum_charges action h
  | memory op => exact op.sum_charges action h
  | chain op => exact op.sum_charges action h

end Charges

/-! ## §3 No price overflows a machine word -/

/-- Bounds on the numbers in a tariff. A length is a word of 32 bits. -/
def Tariff.isModest (params : List Wasm.ValueType) : Tariff → Bool
  | flat price => price ≤ 2 ^ 20
  | stated => true
  | byLength base perByte position =>
    base ≤ 2 ^ 20 && perByte ≤ 2 ^ 17 && params[position]? == some .i32
  | byData base perByte _ => base ≤ 2 ^ 20 && perByte ≤ 3

theorem Intrinsic.isModest_tariff (i : Intrinsic) : i.tariff.isModest i.signature.params := by
  cases i with
  | action op => cases op <;> rfl
  | wide op | console op | float op | memory op => rfl
  | assertion op => cases op <;> rfl
  | crypto op => cases op <;> rfl
  | storage op => cases op <;> rfl
  | chain op =>
    cases op with
    | log topics => cases topics <;> rfl
    | _ => rfl

theorem Tariff.argument_lt_of_i32 {args : List Value} {params : List Wasm.ValueType}
    {position : Nat} (hargs : args.map Value.type = params)
    (hposition : params[position]? = some .i32) : argument args position < 2 ^ 32 := by
  rw [← hargs, List.getElem?_map, Option.map_eq_some_iff] at hposition
  obtain ⟨v, hv, htype⟩ := hposition
  obtain ⟨bits, rfl⟩ := Value.type_eq_i32.mp htype
  rw [argument, hv]
  exact bits.toNat_lt

/-- The price of a call whose arguments fit is a word of 64 bits, unless the action's data do not
fit into any memory. -/
theorem Intrinsic.price_lt {i : Intrinsic} {args : List Value} {action : Action}
    (hargs : i.signature.accepts args) (hdata : action.data.length < 2 ^ 62) :
    i.price action args < 2 ^ 64 := by
  have hmodest := i.isModest_tariff
  rw [Signature.accepts_iff] at hargs
  unfold price
  cases htariff : i.tariff with
  | flat price =>
    simp only [htariff, Tariff.isModest, decide_eq_true_eq] at hmodest
    simp only [Tariff.price]
    omega
  | stated =>
    simp only [Tariff.price, Tariff.argument]
    cases args[0]? with
    | none => simp
    | some v => exact v.unsigned_lt
  | byLength base perByte position =>
    simp only [htariff, Tariff.isModest, Bool.and_eq_true, decide_eq_true_eq, beq_iff_eq] at hmodest
    obtain ⟨⟨hbase, hbyte⟩, hposition⟩ := hmodest
    have hlength := Tariff.argument_lt_of_i32 hargs hposition
    have hmul : perByte * Tariff.argument args position ≤ 2 ^ 17 * 2 ^ 32 :=
      Nat.mul_le_mul hbyte (Nat.le_of_lt hlength)
    simp only [Tariff.price]
    omega
  | byData base perByte position =>
    simp only [htariff, Tariff.isModest, Bool.and_eq_true, decide_eq_true_eq] at hmodest
    have hmul : perByte * action.data.length ≤ 3 * action.data.length :=
      Nat.mul_le_mul_right _ hmodest.2
    simp only [Tariff.price]
    split <;> omega

/-! ## §4 Calls -/

/-- What comes of a call to the host. -/
abbrev CallOutcome (ω : Type) := Except Fault (Option Value) × Context ω

namespace Intrinsic

variable {ω : Type} {i : Intrinsic} {args : List Value} {c : Context ω}

open Session

/-- The context of a call that has paid the base price. -/
abbrev charged (c : Context ω) : Context ω :=
  c.withGas (c.gas - Gas.callBase)

theorem exec_call_paid (h : i.signature.accepts args) (hgas : i.price c.action args ≤ c.gas)
    (host : Host ω) :
    (i.call host args).exec c =
      (i.run host args).exec (c.withGas (c.gas - i.price c.action args)) := by
  rw [← sum_charges c.action h] at hgas ⊢
  rw [exec_call h, exec_bind_ok (exec_charges_paid hgas)]

theorem exec_call_unpaid (h : i.signature.accepts args) (hgas : c.gas < i.price c.action args) :
    ∃ need left, left < need ∧ left ≤ c.gas ∧ ∀ host : Host ω,
      (i.call host args).exec c = (.error (.outOfGas need left), c.withGas left) := by
  rw [← sum_charges c.action h] at hgas
  obtain ⟨need, left, hneed, hleft, hcharges⟩ := exec_charges_unpaid hgas
  refine ⟨need, left, hneed, hleft, ?_⟩
  intro host
  rw [exec_call h, exec_bind_error (hcharges c rfl)]

/-- What steps are made of touches neither the gas nor the action. -/
theorem frame_gas (host : Host ω) :
    Frame host (fun _ => True) fun c c' => c'.gas = c.gas ∧ c'.action = c.action where
  refl _ := ⟨rfl, rfl⟩
  trans _ _ _ h₁ h₂ := ⟨h₂.1.trans h₁.1, h₂.2.trans h₁.2⟩
  memory _ _ _ := ⟨rfl, rfl⟩
  console _ _ := ⟨rfl, rfl⟩
  answer _ _ _ := ⟨rfl, rfl⟩

theorem run_gas (hargs : i.signature.accepts args) (host : Host ω) (c : Context ω) :
    ((i.run host args).exec c).2.gas = c.gas ∧ ((i.run host args).exec c).2.action = c.action := by
  have hsteps : Steps host host (fun _ => True) (i.run host args) (i.run host args) :=
    run_steps hargs fun _ _ => trivial
  exact hsteps.frame (frame_gas host) c.world c

/-- One call, whether its arguments fit or not, and whether it is paid for or not. -/
theorem call_gas (i : Intrinsic) (host : Host ω) (args : List Value) (c : Context ω) :
    ((i.call host args).exec c).2.gas ≤ c.gas ∧
      c.gas ≤ ((i.call host args).exec c).2.gas + i.price c.action args ∧
      ((i.call host args).exec c).2.action = c.action := by
  by_cases hargs : i.signature.accepts args
  · by_cases hgas : i.price c.action args ≤ c.gas
    · rw [exec_call_paid hargs hgas]
      obtain ⟨hsame, haction⟩ := run_gas hargs host (c.withGas (c.gas - i.price c.action args))
      rw [hsame, haction]
      exact ⟨Nat.sub_le _ _, Nat.le_add_of_sub_le (Nat.le_refl _), rfl⟩
    · obtain ⟨need, left, _, hleft, hcall⟩ := exec_call_unpaid hargs (Nat.lt_of_not_le hgas)
      rw [hcall host]
      refine ⟨hleft, ?_, rfl⟩
      show c.gas ≤ left + _
      omega
  · rw [exec_call_refused hargs]
    exact ⟨Nat.le_refl _, Nat.le_add_right _ _, rfl⟩

/-! ## §5 Many calls -/

/-- The context after some calls, one after the other, whatever comes of each. -/
def afterCalls (host : Host ω) (c : Context ω) (calls : List (Intrinsic × List Value)) :
    Context ω :=
  calls.foldl (fun c call => ((call.1.call host call.2).exec c).2) c

/-- What some calls cost together. -/
def totalPrice (action : Action) (calls : List (Intrinsic × List Value)) : Nat :=
  (calls.map fun call => call.1.price action call.2).sum

theorem afterCalls_gas (host : Host ω) (calls : List (Intrinsic × List Value)) (c : Context ω) :
    (afterCalls host c calls).gas ≤ c.gas ∧
      c.gas ≤ (afterCalls host c calls).gas + totalPrice c.action calls := by
  induction calls generalizing c with
  | nil => exact ⟨Nat.le_refl _, Nat.le_add_right _ _⟩
  | cons call rest ih =>
    obtain ⟨hle, hge, haction⟩ := call.1.call_gas host call.2 c
    obtain ⟨hrest, hspent⟩ := ih ((call.1.call host call.2).exec c).2
    rw [haction] at hspent
    have htotal : totalPrice c.action (call :: rest) =
        call.1.price c.action call.2 + totalPrice c.action rest := List.sum_cons
    refine ⟨Nat.le_trans hrest hle, ?_⟩
    rw [htotal]
    show c.gas ≤ (afterCalls host ((call.1.call host call.2).exec c).2 rest).gas + _
    omega

/-- A call whose arguments fit is paid for before it does anything. If the gas does not cover its
price, it fails, and nothing but the gas has changed, whichever host stands ready to be asked. If it
does, exactly the price is gone afterwards, whatever came of the call; and the price never
overflows a machine word. Over any number of calls the gas falls, by no more than their prices. -/
theorem call_charges_first :
    (∀ (i : Intrinsic) (args : List Value) (c : Context ω), i.signature.accepts args →
      (c.gas < i.price c.action args →
        ∃ fault left, fault.kind? = some .runtime ∧ left ≤ c.gas ∧
          ∀ host : Host ω, (i.call host args).exec c = (.error fault, c.withGas left)) ∧
      (i.price c.action args ≤ c.gas →
        ∀ host : Host ω, ((i.call host args).exec c).2.gas = c.gas - i.price c.action args) ∧
      (c.action.data.length < 2 ^ 62 → i.price c.action args < 2 ^ 64)) ∧
    ∀ (host : Host ω) (calls : List (Intrinsic × List Value)) (c : Context ω),
      (afterCalls host c calls).gas ≤ c.gas ∧
        c.gas ≤ (afterCalls host c calls).gas + totalPrice c.action calls := by
  refine ⟨?_, afterCalls_gas⟩
  intro i args c hargs
  refine ⟨?unpaid, ?paid, price_lt hargs⟩
  case unpaid =>
    intro hgas
    obtain ⟨need, left, _, hleft, hcall⟩ := exec_call_unpaid hargs hgas
    exact ⟨.outOfGas need left, left, rfl, hleft, hcall⟩
  case paid =>
    intro hgas host
    rw [exec_call_paid hargs hgas, (run_gas hargs host _).1]
    rfl

/-- Reading three bytes of data with gas for the call, but not for the bytes. -/
theorem call_charges_first_readData :
    let c := Context.start () .empty 101 ⟨⟨0⟩, [1, 2, 3]⟩ default default
    let i := Intrinsic.action .readData
    let args := [.i32 0, .i32 8]
    i.signature.accepts args ∧ i.price c.action args = 109 ∧
      ∃ fault left, fault.kind? = some .runtime ∧ left ≤ 101 ∧
        ∀ host : Host Unit, (i.call host args).exec c = (.error fault, c.withGas left) := by
  intro c i args
  have hprice : i.price c.action args = 109 := rfl
  refine ⟨rfl, hprice, (call_charges_first.1 i args c rfl).1 ?_⟩
  rw [hprice]
  decide

end Intrinsic

end MeteredWasm
