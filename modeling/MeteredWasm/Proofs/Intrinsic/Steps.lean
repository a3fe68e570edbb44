import MeteredWasm.Intrinsic.Catalog
import MeteredWasm.Proofs.Contract.Steps

/-!
# Intrinsics are made of steps

Whatever an intrinsic does once its charges are paid, it does in steps that touch neither the gas nor
the size of the memory; and a callback that changes something outside the contract is made by those
intrinsics only that are there to make it.
-/

namespace MeteredWasm

open Wasm (Signature Value)
open Session (Steps)

/-- The intrinsics that are there to change something outside the contract. -/
def Intrinsic.mutates : Intrinsic → Bool
  | .action .transfer | .action .call | .action .setResult => true
  | .storage .store | .storage .removeKey | .storage .removeTable => true
  | .chain (.log _) => true
  | _ => false

variable {ω ω' : Type} {host : Host ω} {host' : Host ω'} {allowed : Callback → Prop}

/-! ## §1 Arguments -/

namespace Wasm

@[simp]
theorem Value.type_eq_i32 {v : Value} : v.type = .i32 ↔ ∃ bits, v = .i32 bits := by
  cases v <;> simp [Value.type]

@[simp]
theorem Value.type_eq_i64 {v : Value} : v.type = .i64 ↔ ∃ bits, v = .i64 bits := by
  cases v <;> simp [Value.type]

theorem Signature.accepts_iff {s : Signature} {args : List Value} :
    s.accepts args ↔ args.map Value.type = s.params := by
  simp [accepts]

end Wasm

/-- The arguments that a call about the running action takes. -/
inductive ActionCall.Takes : ActionCall → List Value → Prop where
  | useGas (cost : UInt64) : Takes .useGas [.i64 cost]
  | readData (start length : UInt32) : Takes .readData [.i32 start, .i32 length]
  | dataSize : Takes .dataSize []
  | address (party : Party) (start length : UInt32) :
      Takes (.address party) [.i32 start, .i32 length]
  | transfer (start length : UInt32) (value : UInt64) :
      Takes .transfer [.i32 start, .i32 length, .i64 value]
  | amount : Takes .amount []
  | call (start length payloadStart payloadLength : UInt32) (value : UInt64)
      (storage user : UInt32) :
      Takes .call [.i32 start, .i32 length, .i32 payloadStart, .i32 payloadLength, .i64 value,
        .i32 storage, .i32 user]
  | callResult (start length : UInt32) : Takes .callResult [.i32 start, .i32 length]
  | setResult (start length : UInt32) : Takes .setResult [.i32 start, .i32 length]

theorem ActionCall.takes_of_accepts {op : ActionCall} {args : List Value}
    (h : op.signature.accepts args) : op.Takes args := by
  rw [Signature.accepts_iff] at h
  cases op with
  | useGas =>
    simp only [signature, List.map_eq_cons_iff, List.map_eq_nil_iff, Value.type_eq_i64] at h
    obtain ⟨_, _, rfl, ⟨cost, rfl⟩, rfl⟩ := h
    exact .useGas cost
  | dataSize =>
    rw [List.map_eq_nil_iff.mp h]
    exact .dataSize
  | amount =>
    rw [List.map_eq_nil_iff.mp h]
    exact .amount
  | transfer =>
    simp only [signature, List.map_eq_cons_iff, List.map_eq_nil_iff, Value.type_eq_i32,
      Value.type_eq_i64] at h
    obtain ⟨_, _, rfl, ⟨start, rfl⟩, _, _, rfl, ⟨length, rfl⟩, _, _, rfl, ⟨value, rfl⟩, rfl⟩ := h
    exact .transfer start length value
  | call =>
    simp only [signature, List.map_eq_cons_iff, List.map_eq_nil_iff, Value.type_eq_i32,
      Value.type_eq_i64] at h
    obtain ⟨_, _, rfl, ⟨start, rfl⟩, _, _, rfl, ⟨length, rfl⟩, _, _, rfl, ⟨payloadStart, rfl⟩,
      _, _, rfl, ⟨payloadLength, rfl⟩, _, _, rfl, ⟨value, rfl⟩, _, _, rfl, ⟨storage, rfl⟩,
      _, _, rfl, ⟨user, rfl⟩, rfl⟩ := h
    exact .call start length payloadStart payloadLength value storage user
  | readData | callResult | setResult | address party =>
    simp only [signature, List.map_eq_cons_iff, List.map_eq_nil_iff, Value.type_eq_i32] at h
    obtain ⟨_, _, rfl, ⟨start, rfl⟩, _, _, rfl, ⟨length, rfl⟩, rfl⟩ := h
    constructor

/-! ## §2 Intrinsics without a host -/

theorem MemoryCall.run_steps (op : MemoryCall) (args : List Value) :
    Steps host host' allowed (op.run args) (op.run args) := by
  unfold run
  split
  · -- copying refuses ranges that overlap
    apply Steps.refuse
    apply Steps.bind (.changeMemory fun _ _ h => LinearMemory.pages_of_copyWithin h)
    intro _
    exact .pure _
  · apply Steps.bind (.changeMemory fun _ _ h => LinearMemory.pages_of_copyWithin h)
    intro _
    exact .pure _
  · apply Steps.bind (.slice _ _)
    intro a
    apply Steps.bind (.slice _ _)
    intro b
    exact .pure _
  · apply Steps.bind (.changeMemory fun _ _ h => LinearMemory.pages_of_fill h)
    intro _
    exact .pure _
  · exact .throw _

theorem WideCall.writeWide_steps (start : UInt32) (w : Wide.Word) :
    Steps host host' allowed (writeWide start w) (writeWide start w) := by
  apply Steps.bind (.write _ _)
  intro _
  exact .pure none

theorem WideCall.Rule.run_steps (rule : WideCall.Rule) (args : List Value) :
    Steps host host' allowed (rule.run args) (rule.run args) := by
  unfold run
  split
  case h_1 | h_2 | h_5 | h_6 | h_7 | h_8 => exact writeWide_steps _ _
  case h_3 =>
    apply Steps.bind (.trap _)
    intro w
    exact writeWide_steps _ w
  case h_4 | h_9 | h_10 | h_11 | h_12 | h_13 => exact .pure _
  case h_14 => exact .throw _

theorem AssertionCall.run_steps (op : AssertionCall) (args : List Value) :
    Steps host host' allowed (op.run args) (op.run args) := by
  unfold run
  split
  · exact .throw _
  · split_ifs
    · apply Steps.get
      intro c world
      apply Steps.bind (.trap _)
      intro text
      apply Steps.bind (.throw _)
      intro _
      exact .pure none
    · exact .pure none
  · split_ifs
    · apply Steps.get
      intro c world
      apply Steps.bind (.slice _ _)
      intro text
      apply Steps.bind (.throw _)
      intro _
      exact .pure none
    · exact .pure none
  · exact .refuse _ (.pure none)
  · exact .throw _
  · exact .throw _

theorem ConsoleCall.text_steps (op : ConsoleCall) (args : List Value) :
    Steps host host' allowed (op.text args) (op.text args) := by
  unfold text
  split
  case h_1 | h_7 =>
    apply Steps.get
    intro c world
    apply Steps.bind (.trap _)
    intro bytes
    exact .pure _
  case h_2 | h_9 =>
    apply Steps.bind (.slice _ _)
    intro bytes
    exact .pure _
  case h_3 | h_4 | h_5 | h_6 | h_8 => exact .pure _
  case h_10 => exact .throw _

theorem ConsoleCall.run_steps (op : ConsoleCall) (args : List Value) :
    Steps host host' allowed (op.run args) (op.run args) := by
  apply Steps.bind (op.text_steps args)
  intro text
  apply Steps.bind (.print text)
  intro _
  exact .pure none

/-! ## §3 Intrinsics that ask the host -/

theorem CryptoCall.keyAt_steps (digest start length : UInt32) :
    Steps host host' allowed (keyAt digest start length) (keyAt digest start length) := by
  apply Steps.bind (.digestAt digest)
  intro d
  apply Steps.bind (.slice start length)
  intro bytes
  exact .check _

theorem CryptoCall.digestOf_steps (start length : UInt32) :
    Steps host host' allowed (digestOf host start length) (digestOf host' start length) := by
  apply Steps.bind (.slice start length)
  intro data
  exact .sha256 data

theorem CryptoCall.run_steps (op : CryptoCall) (args : List Value) :
    Steps host host' allowed (op.run host args) (op.run host' args) := by
  fun_cases run host op args with
  | case1 =>
    apply Steps.bind (keyAt_steps _ _ _)
    intro recovered
    apply Steps.bind (.slice _ _)
    intro key
    exact .refuse _ (.pure none)
  | case2 =>
    apply Steps.bind (keyAt_steps _ _ _)
    intro recovered
    apply Steps.refuse
    apply Steps.bind (.write _ _)
    intro _
    exact .pure _
  | case3 =>
    apply Steps.bind (digestOf_steps _ _)
    intro hash
    apply Steps.bind (.digestAt _)
    intro expected
    exact .refuse _ (.pure none)
  | case4 =>
    apply Steps.bind (digestOf_steps _ _)
    intro hash
    apply Steps.bind (.write _ _)
    intro _
    exact .pure none
  | case5 =>
    rw [run]
    · exact .throw _
    all_goals assumption

theorem StorageCall.run_steps (op : StorageCall) (args : List Value)
    (h : ∀ q : Callback, (q.mutates → (Intrinsic.storage op).mutates) → allowed q) :
    Steps host host' allowed (op.run host args) (op.run host' args) := by
  fun_cases run host op args with
  | case1 table key keyLength value valueLength =>
    apply Steps.bind (.slice _ _)
    intro key
    apply Steps.bind (.slice _ _)
    intro value
    apply Steps.bind (.ask (.store table key value) (h _ fun _ => rfl))
    intro _
    exact .pure none
  | case2 table key keyLength start length =>
    apply Steps.bind (.slice _ _)
    intro key
    apply Steps.bind (.lend fun buffer => .ask (.load table key buffer) (h _ nofun))
    intro result
    exact .pure _
  | case3 table key keyLength =>
    apply Steps.bind (.slice _ _)
    intro key
    apply Steps.bind (.ask (.hasKey table key) (h _ nofun))
    intro found
    exact .pure _
  | case4 table key keyLength =>
    apply Steps.bind (.slice _ _)
    intro key
    apply Steps.bind (.ask (.removeKey table key) (h _ fun _ => rfl))
    intro _
    exact .pure none
  | case5 table =>
    apply Steps.bind (.ask (.hasTable table) (h _ nofun))
    intro found
    exact .pure _
  | case6 table =>
    apply Steps.bind (.ask (.removeTable table) (h _ fun _ => rfl))
    intro _
    exact .pure none
  | case7 =>
    rw [run]
    · exact .throw _
    all_goals assumption

theorem ChainCall.topic_steps (v : Value) :
    Steps host host' allowed (topic v) (topic v) := by
  unfold topic
  split
  · exact .digestAt _
  · exact .throw _

theorem ChainCall.topics_steps (positions : List Value) :
    Steps host host' allowed (positions.mapM topic) (positions.mapM topic) := by
  induction positions with
  | nil => exact .pure []
  | cons v rest ih =>
    rw [List.mapM_cons, List.mapM_cons]
    apply Steps.bind (topic_steps v)
    intro digest
    apply Steps.bind ih
    intro digests
    exact .pure _

theorem ChainCall.run_steps (op : ChainCall) (args : List Value)
    (h : ∀ q : Callback, (q.mutates → (Intrinsic.chain op).mutates) → allowed q) :
    Steps host host' allowed (op.run host args) (op.run host' args) := by
  fun_cases run host op args with
  | case1 =>
    apply Steps.bind (.ask .time (h _ nofun))
    intro now
    exact .pure _
  | case2 =>
    apply Steps.bind (.ask .height (h _ nofun))
    intro height
    exact .pure _
  | case3 simple full =>
    apply Steps.bind (.ask .hashes (h _ nofun))
    intro hashes
    apply Steps.bind (.write _ _)
    intro _
    apply Steps.bind (.write _ _)
    intro _
    exact .pure none
  | case4 =>
    apply Steps.bind (topics_steps _)
    intro topics
    apply Steps.bind (.slice _ _)
    intro data
    apply Steps.bind (.ask (.log topics data) (h _ fun _ => rfl))
    intro _
    exact .pure none
  | case5 =>
    rw [run]
    · exact .throw _
    all_goals assumption

theorem ActionCall.readAddress_steps (start length : UInt32) :
    Steps host host' allowed (readAddress start length) (readAddress start length) := by
  unfold readAddress
  apply Steps.refuse
  apply Steps.bind (.slice start length)
  intro bytes
  exact .check _

theorem ActionCall.run_steps {op : ActionCall} {args : List Value}
    (hargs : op.signature.accepts args)
    (h : ∀ q : Callback, (q.mutates → (Intrinsic.action op).mutates) → allowed q) :
    Steps host host' allowed (op.run host args) (op.run host' args) := by
  cases takes_of_accepts hargs with
  | useGas cost => exact .pure none
  | readData start length =>
    apply Steps.get
    intro c world
    dsimp only [Context.withWorld]
    split_ifs
    · exact .pure _
    · apply Steps.bind (.write _ _)
      intro _
      exact .pure _
  | dataSize | amount =>
    apply Steps.get
    intro c world
    exact .pure _
  | address party start length =>
    apply Steps.get
    intro c world
    apply Steps.bind (.write _ _)
    intro _
    exact .pure none
  | transfer start length value =>
    apply Steps.bind (readAddress_steps _ _)
    intro receiver
    apply Steps.bind (.ask (.transfer receiver value) (h _ fun _ => rfl))
    intro _
    exact .pure none
  | call start length payloadStart payloadLength value storage user =>
    apply Steps.bind (readAddress_steps _ _)
    intro receiver
    apply Steps.get
    intro c world
    apply Steps.refuse
    apply Steps.bind (.slice _ _)
    intro payload
    apply Steps.bind (.ask (.call _) (h _ fun _ => rfl))
    intro result
    exact .pure _
  | callResult start length =>
    apply Steps.bind (.lend fun buffer => .ask (.callResult buffer) (h _ nofun))
    intro result
    exact .pure _
  | setResult start length =>
    apply Steps.bind (.slice _ _)
    intro result
    apply Steps.bind (.ask (.setResult result) (h _ fun _ => rfl))
    intro answer
    exact .pure _

/-! ## §4 The whole catalog -/

/-- What an intrinsic does is made of steps, with a callback that changes something only if this is
what the intrinsic is for. -/
theorem Intrinsic.run_steps {i : Intrinsic} {args : List Value}
    (hargs : i.signature.accepts args)
    (h : ∀ q : Callback, (q.mutates → i.mutates) → allowed q) :
    Steps host host' allowed (i.run host args) (i.run host' args) := by
  cases i with
  | action op => exact ActionCall.run_steps hargs h
  | wide op => exact op.rule.run_steps args
  | console op => exact op.run_steps args
  | assertion op => exact op.run_steps args
  | crypto op => exact op.run_steps args
  | storage op => exact op.run_steps args h
  | memory op => exact op.run_steps args
  | float op =>
    apply Steps.bind (.check (op.eval args))
    intro v
    exact .pure (some v)
  | chain op => exact op.run_steps args h

/-! ## §5 Calls -/

namespace Intrinsic

variable {i : Intrinsic} {args : List Value} {c : Context ω}

open Session (Related Spoils Frame exec_bind_ok exec_bind_error exec_charges_paid
  exec_charges_unpaid)

theorem exec_call_refused (h : ¬i.signature.accepts args) (host : Host ω) :
    (i.call host args).exec c =
      (.error (.argumentTypes i.namespace_ i.name i.signature), c) := by
  unfold call
  simp only [Bool.not_eq_true] at h
  simp only [h, Bool.not_false, if_true]
  rfl

theorem exec_call (h : i.signature.accepts args) (host : Host ω) :
    (i.call host args).exec c =
      ((i.charges c.action args).forM Session.charge >>= fun _ => i.run host args).exec c := by
  unfold call
  simp only [h, Bool.not_true]
  rfl

/-- A call ends before it has done anything, or goes on to what the intrinsic does. -/
theorem exec_call_cases (i : Intrinsic) (args : List Value) (c : Context ω) (host : Host ω) :
    (∃ fault left, (i.call host args).exec c = (.error fault, c.withGas left)) ∨
      i.signature.accepts args ∧
        ∃ left, (i.call host args).exec c = (i.run host args).exec (c.withGas left) := by
  by_cases hargs : i.signature.accepts args
  · rw [exec_call hargs]
    by_cases hgas : (i.charges c.action args).sum ≤ c.gas
    · exact .inr ⟨hargs, _, exec_bind_ok (exec_charges_paid hgas)⟩
    · obtain ⟨need, left, _, _, hunpaid⟩ := exec_charges_unpaid (Nat.lt_of_not_le hgas)
      exact .inl ⟨_, left, exec_bind_error (hunpaid c rfl)⟩
  · exact .inl ⟨_, c.gas, exec_call_refused hargs host⟩

/-- Calls keep the relations that steps and charging keep. -/
theorem call_frame {M : Context ω → Context ω → Prop} (hM : Frame host (fun _ => True) M)
    (hgas : ∀ c gas, M c (c.withGas gas)) (i : Intrinsic) (args : List Value) (c : Context ω) :
    M c ((i.call host args).exec c).2 := by
  rcases i.exec_call_cases args c host with ⟨fault, left, h⟩ | ⟨hargs, left, h⟩
  · rw [h]
    exact hgas c left
  · rw [h]
    have hrun : Steps host host (fun _ => True) (i.run host args) (i.run host args) :=
      run_steps hargs fun _ _ => trivial
    exact hM.trans _ _ _ (hgas c left) (hrun.frame hM c.world _)

variable {K : Comparison ω ω'}

/-- Charging has nothing to do with the world. -/
theorem charges_related (costs : List Nat) :
    Related K (costs.forM Session.charge) (costs.forM Session.charge) := by
  apply Related.of_exec
  intro c world
  by_cases hgas : costs.sum ≤ c.gas
  · rw [exec_charges_paid hgas]
    exact ⟨rfl, exec_charges_paid (c := c.withWorld world) hgas⟩
  · obtain ⟨need, left, _, _, hunpaid⟩ := exec_charges_unpaid (Nat.lt_of_not_le hgas)
    rw [hunpaid c rfl]
    exact ⟨rfl, hunpaid (c.withWorld world) rfl⟩

/-- A call cannot tell hosts apart that answer alike. -/
theorem call_related (h : Host.Alike K host host') (i : Intrinsic) (args : List Value) :
    Related K (i.call host args) (i.call host' args) := by
  unfold call
  split_ifs with hrefused
  · exact .of_exec fun _ _ => ⟨rfl, rfl⟩
  · have hargs : i.signature.accepts args := by simpa using hrefused
    have hrun : Steps host host' (fun _ => True) (i.run host args) (i.run host' args) :=
      run_steps hargs fun _ _ => trivial
    apply Related.get
    intro c world
    apply Related.bind (charges_related _) (fun _ => hrun.related h)
    exact fun world _ => hrun.spoils h world

end Intrinsic

end MeteredWasm
