import Mathlib.Data.List.Forall2
import MeteredWasm.Proofs.Intrinsic.Tariff

/-!
# Effects of intrinsics

An intrinsic that is there to change something outside the contract does so with one callback, as its
last step: everything that can fail is behind it by then. So a call that fails has changed nothing
outside, and a call that succeeds has changed it once, with the bytes that stood in the memory when
the call was made. Other intrinsics never make such a callback.
-/

namespace MeteredWasm

open Wasm (Value)

variable {ω : Type} {α β : Type}

/-! ## §1 Reading -/

theorem LinearMemory.slice_eq_of_sliceVector {m : LinearMemory} {start length : Nat}
    {v : Vector UInt8 length} (h : m.sliceVector start length = .ok v) :
    m.slice start length = .ok v.toList := by
  unfold sliceVector at h
  split_ifs at h with hin
  cases h
  exact if_pos hin

theorem Address.toBytes_of_ofBytes {bytes : List UInt8} {a : Address}
    (h : ofBytes bytes = .ok a) : a.toBytes = bytes := by
  unfold ofBytes at h
  split_ifs at h
  cases h
  rfl

namespace Session

variable {c : Context ω}

theorem exec_trap (r : Except Trap α) : (trap r).exec c = (r.mapError .trap, c) := by
  cases r <;> rfl

theorem exec_check (r : Except Fault α) : (check r).exec c = (r, c) := by
  cases r <;> rfl

theorem exec_slice (start length : UInt32) :
    (slice start length).exec c =
      ((c.memory.slice start.toNat length.toNat).mapError .trap, c) :=
  exec_trap _

/-! ## §2 All or nothing -/

/-- Fail and change nothing, or succeed after exactly one callback, of those that are asked for. -/
def AllOrNothing (host : Host ω) (c : Context ω) (asks : Callback → Prop) (x : Session ω α) :
    Prop :=
  (∃ fault, x.exec c = (.error fault, c)) ∨
    ∃ q a, asks q ∧
      x.exec c = (.ok a, c.withWorld (host.answer c.invocation.stateKey q c.world).2)

namespace AllOrNothing

variable {host : Host ω} {asks : Callback → Prop}

theorem throw (e : Fault) : AllOrNothing host c asks (MonadExcept.throw e : Session ω α) :=
  .inl ⟨e, rfl⟩

/-- The callback, and what is made of its answer. -/
theorem ask (q : Callback) (hq : asks q) (f : q.Answer → α) :
    AllOrNothing host c asks
      ((callback fun key => host.answer key q) >>= fun answer => pure (f answer)) :=
  .inr ⟨q, f (host.answer c.invocation.stateKey q c.world).1, hq, rfl⟩

/-- Something that leaves the context as it is comes first. -/
theorem after {x : Session ω β} {f : β → Session ω α} {r : Except Fault β}
    (hx : x.exec c = (r, c)) (hf : ∀ b, r = .ok b → AllOrNothing host c asks (f b)) :
    AllOrNothing host c asks (x >>= f) := by
  cases r with
  | ok b =>
    rw [AllOrNothing, exec_bind_ok hx]
    exact hf b rfl
  | error e => exact .inl ⟨e, exec_bind_error hx⟩

theorem slice {start length : UInt32} {f : List UInt8 → Session ω α}
    (hf : ∀ bytes, c.memory.slice start.toNat length.toNat = .ok bytes →
      AllOrNothing host c asks (f bytes)) :
    AllOrNothing host c asks (Session.slice start length >>= f) := by
  apply after (exec_slice start length)
  intro bytes hbytes
  cases hslice : c.memory.slice start.toNat length.toNat with
  | ok bytes' =>
    rw [hslice] at hbytes
    cases hbytes
    exact hf bytes hslice
  | error t =>
    rw [hslice] at hbytes
    cases hbytes

theorem refuse {condition : Prop} [Decidable condition] (e : Fault) {f : Unit → Session ω α}
    (hf : ¬condition → AllOrNothing host c asks (f ())) :
    AllOrNothing host c asks (if condition then MonadExcept.throw e >>= f else f ()) := by
  split_ifs with hc
  · exact .inl ⟨e, rfl⟩
  · exact hf hc

end AllOrNothing

end Session

/-! ## §3 What is asked -/

/-- The one callback that an intrinsic is there to make, with the bytes that stand in the memory. -/
inductive Intrinsic.Asks (memory : LinearMemory) (config : Config) (invocation : Invocation) :
    Intrinsic → List Value → Callback → Prop where
  | store {table : UInt64} {key keyLength value valueLength : UInt32}
      {keyBytes valueBytes : List UInt8}
      (hkey : memory.slice key.toNat keyLength.toNat = .ok keyBytes)
      (hvalue : memory.slice value.toNat valueLength.toNat = .ok valueBytes) :
      Asks memory config invocation (.storage .store)
        [.i64 table, .i32 key, .i32 keyLength, .i32 value, .i32 valueLength]
        (.store table keyBytes valueBytes)
  | removeKey {table : UInt64} {key keyLength : UInt32} {keyBytes : List UInt8}
      (hkey : memory.slice key.toNat keyLength.toNat = .ok keyBytes) :
      Asks memory config invocation (.storage .removeKey) [.i64 table, .i32 key, .i32 keyLength]
        (.removeKey table keyBytes)
  | removeTable {table : UInt64} :
      Asks memory config invocation (.storage .removeTable) [.i64 table] (.removeTable table)
  /-- Each topic is the digest at one of the positions. -/
  | log {count : TopicCount} {start length : UInt32} {positions : List Value}
      {topics : List Digest} {data : List UInt8}
      (htopics : List.Forall₂
        (fun v topic => ∃ position, v = .i32 position ∧
          memory.slice position.toNat 32 = .ok topic.toBytes) positions topics)
      (hdata : memory.slice start.toNat length.toNat = .ok data) :
      Asks memory config invocation (.chain (.log count))
        (.i32 start :: .i32 length :: positions) (.log topics data)
  | transfer {start length : UInt32} {amount : UInt64} {receiver : Address}
      (hreceiver : memory.slice start.toNat length.toNat = .ok receiver.toBytes) :
      Asks memory config invocation (.action .transfer) [.i32 start, .i32 length, .i64 amount]
        (.transfer receiver amount)
  /-- A nested call goes one level deeper, if the limit allows it. -/
  | call {start length payloadStart payloadLength storage user : UInt32} {amount : UInt64}
      {receiver : Address} {payload : List UInt8}
      (hreceiver : memory.slice start.toNat length.toNat = .ok receiver.toBytes)
      (hpayload : memory.slice payloadStart.toNat payloadLength.toNat = .ok payload)
      (hdepth : invocation.depth + 1 ≤ config.maxCallDepth) :
      Asks memory config invocation (.action .call)
        [.i32 start, .i32 length, .i32 payloadStart, .i32 payloadLength, .i64 amount,
          .i32 storage, .i32 user]
        (.call ⟨receiver, payload, amount, storage.toInt32, user.toInt32,
          invocation.depth + 1⟩)
  | setResult {start length : UInt32} {result : List UInt8}
      (hresult : memory.slice start.toNat length.toNat = .ok result) :
      Asks memory config invocation (.action .setResult) [.i32 start, .i32 length] (.setResult result)

/-- The callback that an intrinsic is there to make when it is called in a context. -/
abbrev Context.Asks (c : Context ω) : Intrinsic → List Value → Callback → Prop :=
  Intrinsic.Asks c.memory c.config c.invocation

open Session (AllOrNothing exec_check exec_slice exec_bind_ok exec_bind_error)

variable {host : Host ω} {c : Context ω}

theorem ActionCall.readAddress_or_nothing {asks : Callback → Prop} {start length : UInt32}
    {f : Address → Session ω α}
    (hf : ∀ receiver : Address,
      c.memory.slice start.toNat length.toNat = .ok receiver.toBytes →
        AllOrNothing host c asks (f receiver)) :
    AllOrNothing host c asks (readAddress start length >>= f) := by
  unfold readAddress
  split_ifs
  · exact .inl ⟨_, rfl⟩
  · simp only [bind_assoc]
    apply AllOrNothing.slice
    intro bytes hbytes
    apply AllOrNothing.after (exec_check (Address.ofBytes bytes))
    intro receiver hreceiver
    apply hf
    rw [hbytes, Address.toBytes_of_ofBytes hreceiver]

theorem ChainCall.exec_topic (v : Value) :
    ∃ r, (topic v : Session ω Digest).exec c = (r, c) ∧ ∀ digest, r = .ok digest →
      ∃ position, v = .i32 position ∧
        c.memory.slice position.toNat 32 = .ok digest.toBytes := by
  cases v with
  | i32 position =>
    cases hslice : c.memory.sliceVector position.toNat 32 with
    | ok bytes =>
      refine ⟨.ok ⟨bytes⟩, ?_, ?_⟩
      · show (Session.trap (c.memory.sliceVector position.toNat 32) >>= _).exec c = _
        rw [hslice]
        rfl
      · intro digest hdigest
        cases hdigest
        exact ⟨position, rfl, LinearMemory.slice_eq_of_sliceVector hslice⟩
    | error t =>
      refine ⟨.error (.trap t), ?_, nofun⟩
      show (Session.trap (c.memory.sliceVector position.toNat 32) >>= _).exec c = _
      rw [hslice]
      rfl
  | i64 _ | f32 _ | f64 _ => exact ⟨_, rfl, nofun⟩

theorem ChainCall.exec_topics (positions : List Value) :
    ∃ r, (positions.mapM topic : Session ω (List Digest)).exec c = (r, c) ∧
      ∀ topics, r = .ok topics → List.Forall₂
        (fun v topic => ∃ position, v = .i32 position ∧
          c.memory.slice position.toNat 32 = .ok topic.toBytes) positions topics := by
  induction positions with
  | nil =>
    refine ⟨.ok [], rfl, ?_⟩
    intro topics htopics
    cases htopics
    exact .nil
  | cons v rest ih =>
    obtain ⟨first, hfirst, htopic⟩ := exec_topic v
    obtain ⟨others, hothers, htopics⟩ := ih
    rw [List.mapM_cons]
    cases first with
    | error e => exact ⟨.error e, exec_bind_error hfirst, nofun⟩
    | ok digest =>
      rw [exec_bind_ok hfirst]
      cases others with
      | error e => exact ⟨.error e, exec_bind_error hothers, nofun⟩
      | ok digests =>
        refine ⟨.ok (digest :: digests), exec_bind_ok hothers, ?_⟩
        intro topics h
        cases h
        exact .cons (htopic digest rfl) (htopics digests rfl)

/-! ## §4 Intrinsics that change something -/

theorem StorageCall.run_allOrNothing (op : StorageCall) (args : List Value)
    (h : (Intrinsic.storage op).mutates) :
    AllOrNothing host c (c.Asks (.storage op) args) (op.run host args) := by
  fun_cases run host op args with
  | case1 table key keyLength value valueLength =>
    apply AllOrNothing.slice
    intro keyBytes hkey
    apply AllOrNothing.slice
    intro valueBytes hvalue
    exact .ask (.store table keyBytes valueBytes) (.store hkey hvalue) fun _ => none
  | case4 table key keyLength =>
    apply AllOrNothing.slice
    intro keyBytes hkey
    exact .ask (.removeKey table keyBytes) (.removeKey hkey) fun _ => none
  | case6 table => exact .ask (.removeTable table) .removeTable fun _ => none
  | case7 => exact .throw _
  | case2 | case3 | case5 => cases h

theorem ChainCall.run_allOrNothing (op : ChainCall) (args : List Value)
    (h : (Intrinsic.chain op).mutates) :
    AllOrNothing host c (c.Asks (.chain op) args) (op.run host args) := by
  fun_cases run host op args with
  | case4 count start length positions =>
    obtain ⟨r, hr, htopics⟩ := exec_topics (c := c) positions
    apply AllOrNothing.after hr
    intro topics hok
    apply AllOrNothing.slice
    intro data hdata
    exact .ask (.log topics data) (.log (htopics topics hok) hdata) fun _ => none
  | case5 => exact .throw _
  | case1 | case2 | case3 => cases h

theorem ActionCall.run_allOrNothing {op : ActionCall} {args : List Value}
    (hargs : op.signature.accepts args) (h : (Intrinsic.action op).mutates) :
    AllOrNothing host c (c.Asks (.action op) args) (op.run host args) := by
  cases takes_of_accepts hargs with
  | transfer start length amount =>
    apply readAddress_or_nothing
    intro receiver hreceiver
    exact .ask (.transfer receiver amount) (.transfer hreceiver) fun _ => none
  | call start length payloadStart payloadLength amount storage user =>
    apply readAddress_or_nothing
    intro receiver hreceiver
    apply AllOrNothing.after (x := get) (r := .ok c) rfl
    intro context hcontext
    cases hcontext
    apply AllOrNothing.refuse
    intro hdepth
    apply AllOrNothing.slice
    intro payload hpayload
    exact .ask (.call ⟨receiver, payload, amount, storage.toInt32, user.toInt32, _⟩)
      (Intrinsic.Asks.call hreceiver hpayload (UInt32.not_lt.mp hdepth)) (some ∘ Value.ofInt32)
  | setResult start length =>
    apply AllOrNothing.slice
    intro result hresult
    exact .ask (.setResult result) (Intrinsic.Asks.setResult hresult) (some ∘ Value.ofInt32)
  | _ => cases h

theorem Intrinsic.run_allOrNothing {i : Intrinsic} {args : List Value}
    (hargs : i.signature.accepts args) (h : i.mutates) :
    AllOrNothing host c (c.Asks i args) (i.run host args) := by
  cases i with
  | action op => exact ActionCall.run_allOrNothing hargs h
  | storage op => exact op.run_allOrNothing args h
  | chain op => exact op.run_allOrNothing args h
  | _ => cases h

/-! ## §5 The record of a call -/

/-- Steps make the record longer, by callbacks that are allowed. -/
theorem Session.frame_record (host : Host ω) (allowed : Callback → Prop) :
    Session.Frame host.recording allowed fun c c' =>
      ∃ made : Record, c'.world.2 = c.world.2 ++ made ∧ ∀ entry ∈ made, allowed entry.2 where
  refl c := ⟨[], by simp⟩
  trans := by
    rintro c₁ c₂ c₃ ⟨first, hfirst, hallowed₁⟩ ⟨later, hlater, hallowed₂⟩
    refine ⟨first ++ later, by rw [hlater, hfirst, List.append_assoc], ?_⟩
    intro entry hentry
    cases List.mem_append.mp hentry with
    | inl h => exact hallowed₁ entry h
    | inr h => exact hallowed₂ entry h
  memory c _ _ := ⟨[], by simp⟩
  console c _ := ⟨[], by simp⟩
  answer := by
    intro c q hq
    refine ⟨[(c.invocation.stateKey, q)], by rw [Host.answer_recording], ?_⟩
    intro entry hentry
    rw [List.mem_singleton.mp hentry]
    exact hq

namespace Intrinsic

theorem Asks.mutates {memory : LinearMemory} {config : Config} {invocation : Invocation}
    {i : Intrinsic} {args : List Value} {q : Callback}
    (h : Asks memory config invocation i args q) : q.mutates := by
  cases h <;> rfl

/-- The record of an intrinsic that is not there to change anything. -/
theorem record_of_not_mutates (host : Host ω) {i : Intrinsic} (hi : i.mutates = false)
    (args : List Value) (c : Context (ω × Record)) :
    ∃ made : Record, ((i.call host.recording args).exec c).2.world.2 = c.world.2 ++ made ∧
      ∀ entry ∈ made, entry.2.mutates = false := by
  rcases i.exec_call_cases args c host.recording with ⟨fault, left, h⟩ | ⟨hargs, left, h⟩
  · exact ⟨[], by simp [h, Context.withGas], nofun⟩
  · rw [h]
    have hsteps : Session.Steps host.recording host.recording (fun q => q.mutates = false)
        (i.run host.recording args) (i.run host.recording args) := by
      apply run_steps hargs
      intro q hq
      by_contra hne
      simp only [Bool.not_eq_false] at hne
      rw [hq hne] at hi
      cases hi
    exact hsteps.frame (Session.frame_record host _) c.world _

/-- The record of an intrinsic that is there to change something. -/
theorem record_of_mutates (host : Host ω) {i : Intrinsic} (hi : i.mutates) (args : List Value)
    (c : Context (ω × Record)) :
    (∃ fault left, (i.call host.recording args).exec c = (.error fault, c.withGas left)) ∨
      ∃ q result, c.Asks i args q ∧ ((i.call host.recording args).exec c).1 = .ok result ∧
        ((i.call host.recording args).exec c).2.world.2 =
          c.world.2 ++ [(c.invocation.stateKey, q)] := by
  rcases i.exec_call_cases args c host.recording with ⟨fault, left, h⟩ | ⟨hargs, left, h⟩
  · exact .inl ⟨fault, left, h⟩
  · rcases run_allOrNothing hargs hi with ⟨fault, hrun⟩ | ⟨q, result, hq, hrun⟩
    · exact .inl ⟨fault, left, h.trans hrun⟩
    · refine .inr ⟨q, result, hq, ?_, ?_⟩
      · rw [h, hrun]
      · rw [h, hrun, Host.answer_recording]
        rfl

/-- What is recorded of a call. -/
theorem record_of_call (host : Host ω) (i : Intrinsic) (args : List Value)
    (c : Context (ω × Record)) :
    let outcome := (i.call host.recording args).exec c
    ∃ made : Record, outcome.2.world.2 = c.world.2 ++ made ∧
      (∀ fault, outcome.1 = .error fault → ∀ entry ∈ made, entry.2.mutates = false) ∧
      (i.mutates → ∀ result, outcome.1 = .ok result →
        ∃ q, made = [(c.invocation.stateKey, q)] ∧ q.mutates ∧ c.Asks i args q) ∧
      (i.mutates = false → ∀ entry ∈ made, entry.2.mutates = false) := by
  intro outcome
  cases hi : i.mutates with
  | false =>
    obtain ⟨made, hmade, hharmless⟩ := record_of_not_mutates host hi args c
    exact ⟨made, hmade, fun _ _ => hharmless, nofun, fun _ => hharmless⟩
  | true =>
    rcases record_of_mutates host hi args c with ⟨fault, left, h⟩ | ⟨q, result, hq, hok, hmade⟩
    · -- nothing is recorded of a call that fails
      have hfailed : outcome = (.error fault, c.withGas left) := h
      rw [hfailed]
      exact ⟨[], (List.append_nil _).symm, fun _ _ => nofun, fun _ _ => nofun, nofun⟩
    · refine ⟨[(c.invocation.stateKey, q)], hmade, ?_, fun _ _ _ => ⟨q, rfl, hq.mutates, hq⟩, nofun⟩
      intro fault hfault
      have hsucceeded : outcome.1 = .ok result := hok
      rw [hsucceeded] at hfault
      cases hfault

/-- Nothing but the record tells whether one is kept. -/
theorem exec_recorded (host : Host ω) (i : Intrinsic) (args : List Value) (c : Context ω)
    (before : Record) :
    let outcome := (i.call host args).exec c
    ∃ after, (i.call host.recording args).exec (c.withWorld (c.world, before)) =
      (outcome.1, outcome.2.withWorld (outcome.2.world, after)) := by
  intro outcome
  obtain ⟨⟨world, after⟩, hworld, hrecorded⟩ :=
    Intrinsic.call_related host.alike_recording i args c (c.world, before) rfl not_false
  have hsame : world = outcome.2.world := hworld
  subst hsame
  exact ⟨after, hrecorded⟩

/-- A call makes the same callbacks whether they are recorded or not; and the record shows that a
call that fails has changed nothing outside the contract, that an intrinsic that is there to change
something has made one callback when it succeeds, the one asked for, and that no other intrinsic
has changed anything. -/
theorem call_effects (host : Host ω) (i : Intrinsic) (args : List Value) (c : Context ω)
    (before : Record) :
    let outcome := (i.call host args).exec c
    ∃ made : Record,
      (i.call host.recording args).exec (c.withWorld (c.world, before)) =
        (outcome.1, outcome.2.withWorld (outcome.2.world, before ++ made)) ∧
      (∀ fault, outcome.1 = .error fault → ∀ entry ∈ made, entry.2.mutates = false) ∧
      (i.mutates → ∀ result, outcome.1 = .ok result →
        ∃ q, made = [(c.invocation.stateKey, q)] ∧ q.mutates ∧ c.Asks i args q) ∧
      (i.mutates = false → ∀ entry ∈ made, entry.2.mutates = false) := by
  intro outcome
  obtain ⟨after, hrecorded⟩ := exec_recorded host i args c before
  have hrecord := record_of_call host i args (c.withWorld (c.world, before))
  rw [hrecorded] at hrecord
  obtain ⟨made, hmade, heffects⟩ := hrecord
  have hafter : after = before ++ made := hmade
  subst hafter
  exact ⟨made, hrecorded, heffects⟩

end Intrinsic

end MeteredWasm
