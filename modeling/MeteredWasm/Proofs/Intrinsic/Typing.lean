import MeteredWasm.Proofs.Intrinsic.Tariff

/-!
# Types of intrinsics

Every intrinsic keeps to its signature: given arguments of the declared types it never finds one
missing or of another type, and what it returns has the declared type. Given other arguments it is
not run at all.
-/

namespace MeteredWasm

open Wasm (ValueType Signature Value)

variable {ω : Type} {α β : Type}

/-! ## §1 Arguments -/

namespace Wasm

/-- The words that stand for the values of a type. -/
abbrev ValueType.Word : ValueType → Type
  | .i32 | .f32 => UInt32
  | .i64 | .f64 => UInt64

/-- The value of a type that a word stands for. -/
def Value.ofWord : (type : ValueType) → type.Word → Value
  | .i32, bits => .i32 bits
  | .i64, bits => .i64 bits
  | .f32, bits => .f32 bits
  | .f64, bits => .f64 bits

theorem Value.type_eq_iff {v : Value} {type : ValueType} :
    v.type = type ↔ ∃ bits, v = .ofWord type bits := by
  constructor
  · rintro rfl
    cases v <;> exact ⟨_, rfl⟩
  · rintro ⟨bits, rfl⟩
    cases type <;> rfl

/-- The first argument is a value of the first type, and the others are of the others. -/
theorem map_type_eq_cons {args : List Value} {type : ValueType} {params : List ValueType} :
    args.map Value.type = type :: params ↔
      ∃ bits rest, args = .ofWord type bits :: rest ∧ rest.map Value.type = params := by
  rw [List.map_eq_cons_iff]
  constructor
  · rintro ⟨v, rest, rfl, htype, hrest⟩
    obtain ⟨bits, rfl⟩ := Value.type_eq_iff.mp htype
    exact ⟨bits, rest, rfl, hrest⟩
  · rintro ⟨bits, rest, rfl, hrest⟩
    exact ⟨_, rest, rfl, Value.type_eq_iff.mpr ⟨bits, rfl⟩, hrest⟩

end Wasm

/-! ## §2 What sessions yield -/

namespace Session

/-- In every context: a result has a property, and a failure is not one of arguments that do not
match. -/
structure Yields (P : α → Prop) (x : Session ω α) : Prop where
  ok : ∀ c a, (x.exec c).1 = .ok a → P a
  error : ∀ c e, (x.exec c).1 = .error e → e ≠ .unmatchedArguments

namespace Yields

variable {P : α → Prop} {Q : β → Prop}

theorem pure {a : α} (h : P a) : Yields P (Pure.pure a : Session ω α) where
  ok _ _ hok := Except.ok.inj hok ▸ h
  error _ _ herror := nomatch herror

theorem throw {e : Fault} (h : e ≠ .unmatchedArguments) :
    Yields P (MonadExcept.throw e : Session ω α) where
  ok _ _ hok := nomatch hok
  error _ _ herror := Except.error.inj herror ▸ h

theorem bind {x : Session ω β} {f : β → Session ω α} (hx : Yields Q x)
    (hf : ∀ b, Q b → Yields P (f b)) : Yields P (x >>= f) := by
  constructor
  · intro c a hok
    cases hfirst : x.exec c with
    | mk r c' =>
      cases r with
      | ok b =>
        rw [exec_bind_ok hfirst] at hok
        exact (hf b (hx.ok c b (by rw [hfirst]))).ok c' a hok
      | error e =>
        rw [exec_bind_error hfirst] at hok
        cases hok
  · intro c e herror
    cases hfirst : x.exec c with
    | mk r c' =>
      cases r with
      | ok b =>
        rw [exec_bind_ok hfirst] at herror
        exact (hf b (hx.ok c b (by rw [hfirst]))).error c' e herror
      | error e' =>
        rw [exec_bind_error hfirst] at herror
        exact Except.error.inj herror ▸ hx.error c e' (by rw [hfirst])

/-- Nothing is known of the first result. -/
theorem after {x : Session ω β} {f : β → Session ω α} (hx : Yields (fun _ => True) x)
    (hf : ∀ b, Yields P (f b)) : Yields P (x >>= f) :=
  hx.bind fun b _ => hf b

theorem get {f : Context ω → Session ω α} (hf : ∀ c, Yields P (f c)) :
    Yields P (MonadState.get >>= f) where
  ok c := (hf c).ok c
  error c := (hf c).error c

theorem trap (r : Except Trap α) : Yields (fun _ => True) (Session.trap r : Session ω α) := by
  cases r with
  | ok a => exact .pure trivial
  | error t => exact .throw nofun

theorem check {r : Except Fault α} (h : ∀ e, r = .error e → e ≠ .unmatchedArguments) :
    Yields (fun _ => True) (Session.check r : Session ω α) := by
  cases r with
  | ok a => exact .pure trivial
  | error e => exact .throw (h e rfl)

theorem slice (start length : UInt32) :
    Yields (fun _ => True) (Session.slice start length : Session ω (List UInt8)) :=
  .get fun _ => .trap _

theorem digestAt (start : UInt32) :
    Yields (fun _ => True) (Session.digestAt start : Session ω Digest) :=
  .get fun _ => .after (.trap _) fun _ => .pure trivial

theorem changeMemory (f : LinearMemory → Except Trap LinearMemory) :
    Yields (fun _ => True) (Session.changeMemory f : Session ω Unit) :=
  .get fun _ => .after (.trap _) fun _ => ⟨fun _ _ _ => trivial, nofun⟩

theorem write (start : UInt32) (bytes : List UInt8) :
    Yields (fun _ => True) (Session.write start bytes : Session ω Unit) :=
  .changeMemory fun m => m.write start.toNat bytes

theorem print (text : String) : Yields (fun _ => True) (Session.print text : Session ω Unit) :=
  ⟨fun _ _ _ => trivial, nofun⟩

theorem callback (f : StateKey → StateM ω α) :
    Yields (fun _ => True) (Session.callback f) :=
  ⟨fun _ _ _ => trivial, nofun⟩

theorem lend (start length : UInt32)
    (f : StateKey → Vector UInt8 length.toNat → StateM ω (Int32 × Vector UInt8 length.toNat)) :
    Yields (fun _ => True) (Session.lend start length f) :=
  .get fun _ => .after (.trap _) fun _ => .after (.callback _) fun _ =>
    .after (.write _ _) fun _ => .pure trivial

/-- What comes after a failure does not matter. -/
theorem throws {e : Fault} (h : e ≠ .unmatchedArguments) {f : β → Session ω α} :
    Yields P (MonadExcept.throw e >>= f) :=
  .bind (.throw (P := fun _ => False) h) fun _ hfalse => hfalse.elim

/-- A refusal that hangs on a condition, and what comes after it otherwise. -/
theorem refuse {condition : Prop} [Decidable condition] {e : Fault}
    (he : e ≠ .unmatchedArguments) {f : Unit → Session ω α} (hf : Yields P (f ())) :
    Yields P (if condition then MonadExcept.throw e >>= f else f ()) := by
  split_ifs
  · exact .throws he
  · exact hf

end Yields

/-- Return a value of a type, or none. -/
abbrev Returns (result : Option ValueType) (x : Session ω (Option Value)) : Prop :=
  Yields (fun v => v.map Value.type = result) x

end Session

open Session (Yields Returns)
open Wasm (map_type_eq_cons)

variable {host : Host ω} {args : List Value}

/-! ## §3 Intrinsics without a host -/

theorem MemoryCall.run_returns {op : MemoryCall} (h : op.signature.accepts args) :
    Returns op.signature.result (op.run args : Session ω (Option Value)) := by
  simp only [Signature.accepts_iff, signature, map_type_eq_cons, List.map_eq_nil_iff] at h
  obtain ⟨first, _, rfl, second, _, rfl, length, _, rfl, rfl⟩ := h
  cases op with
  | copy =>
    -- overlapping ranges are refused
    simp only [Value.ofWord, run]
    apply Yields.refuse
    · simp
    · apply Yields.after (.changeMemory _)
      intro _
      exact .pure rfl
  | compare =>
    apply Yields.after (.slice _ _)
    intro a
    apply Yields.after (.slice _ _)
    intro b
    exact .pure rfl
  | move | fill =>
    apply Yields.after (.changeMemory _)
    intro _
    exact .pure rfl

theorem WideCall.writeWide_returns (start : UInt32) (w : Wide.Word) :
    Returns none (writeWide start w : Session ω (Option Value)) := by
  unfold writeWide
  apply Yields.after (.write _ _)
  intro _
  exact .pure rfl

theorem WideCall.Rule.run_returns {rule : WideCall.Rule} (h : rule.signature.accepts args) :
    Returns rule.signature.result (rule.run args : Session ω (Option Value)) := by
  rw [Signature.accepts_iff] at h
  cases rule with
  | shift f =>
    simp only [signature, map_type_eq_cons, List.map_eq_nil_iff] at h
    obtain ⟨start, _, rfl, low, _, rfl, high, _, rfl, amount, _, rfl, rfl⟩ := h
    simp only [Value.ofWord, run]
    exact writeWide_returns _ _
  | unary f =>
    simp only [signature, map_type_eq_cons, List.map_eq_nil_iff] at h
    obtain ⟨start, _, rfl, low, _, rfl, high, _, rfl, rfl⟩ := h
    exact writeWide_returns _ _
  | binary f =>
    simp only [signature, map_type_eq_cons, List.map_eq_nil_iff] at h
    obtain ⟨start, _, rfl, lowA, _, rfl, highA, _, rfl, lowB, _, rfl, highB, _, rfl, rfl⟩ := h
    apply Yields.after (.trap _)
    intro w
    exact writeWide_returns _ w
  | relation f =>
    simp only [signature, map_type_eq_cons, List.map_eq_nil_iff] at h
    obtain ⟨lowA, _, rfl, highA, _, rfl, lowB, _, rfl, highB, _, rfl, rfl⟩ := h
    exact .pure rfl
  | ofInt32 f | ofInt64 f | ofSingle f | ofDouble f =>
    simp only [signature, map_type_eq_cons, List.map_eq_nil_iff] at h
    obtain ⟨start, _, rfl, bits, _, rfl, rfl⟩ := h
    exact writeWide_returns _ _
  | toInt32 f | toInt64 f | toSingle f | toDouble f =>
    simp only [signature, map_type_eq_cons, List.map_eq_nil_iff] at h
    obtain ⟨low, _, rfl, high, _, rfl, rfl⟩ := h
    exact .pure rfl
  | doubleOfInt32 f =>
    simp only [signature, map_type_eq_cons, List.map_eq_nil_iff] at h
    obtain ⟨bits, _, rfl, rfl⟩ := h
    exact .pure rfl

theorem AssertionCall.run_returns {op : AssertionCall} (h : op.signature.accepts args) :
    Returns op.signature.result (op.run args : Session ω (Option Value)) := by
  rw [Signature.accepts_iff] at h
  cases op with
  | abort =>
    obtain rfl := List.map_eq_nil_iff.mp h
    exact .throw nofun
  | zeroTerminated =>
    simp only [signature, map_type_eq_cons, List.map_eq_nil_iff] at h
    obtain ⟨condition, _, rfl, start, _, rfl, rfl⟩ := h
    simp only [Value.ofWord, run]
    split_ifs
    · apply Yields.get
      intro c
      apply Yields.after (.trap _)
      intro text
      apply Yields.throws
      nofun
    · exact .pure rfl
  | message =>
    simp only [signature, map_type_eq_cons, List.map_eq_nil_iff] at h
    obtain ⟨condition, _, rfl, start, _, rfl, length, _, rfl, rfl⟩ := h
    simp only [Value.ofWord, run]
    split_ifs
    · apply Yields.get
      intro c
      apply Yields.after (.slice _ _)
      intro text
      apply Yields.throws
      nofun
    · exact .pure rfl
  | code =>
    simp only [signature, map_type_eq_cons, List.map_eq_nil_iff] at h
    obtain ⟨condition, _, rfl, number, _, rfl, rfl⟩ := h
    simp only [Value.ofWord, run]
    apply Yields.refuse
    · nofun
    · exact .pure rfl
  | exit =>
    simp only [signature, map_type_eq_cons, List.map_eq_nil_iff] at h
    obtain ⟨status, _, rfl, rfl⟩ := h
    exact .throw nofun

theorem ConsoleCall.text_yields {op : ConsoleCall} (h : op.signature.accepts args) :
    Yields (fun _ => True) (op.text args : Session ω String) := by
  rw [Signature.accepts_iff] at h
  cases op with
  | zeroTerminated | quad =>
    simp only [signature, map_type_eq_cons, List.map_eq_nil_iff] at h
    obtain ⟨start, _, rfl, rfl⟩ := h
    apply Yields.get
    intro c
    apply Yields.after (.trap _)
    intro bytes
    exact .pure trivial
  | range | hex =>
    simp only [signature, map_type_eq_cons, List.map_eq_nil_iff] at h
    obtain ⟨start, _, rfl, length, _, rfl, rfl⟩ := h
    apply Yields.after (.slice _ _)
    intro bytes
    exact .pure trivial
  | signed | unsigned | single | double | name =>
    simp only [signature, map_type_eq_cons, List.map_eq_nil_iff] at h
    obtain ⟨bits, _, rfl, rfl⟩ := h
    exact .pure trivial

theorem ConsoleCall.run_returns {op : ConsoleCall} (h : op.signature.accepts args) :
    Returns op.signature.result (op.run args : Session ω (Option Value)) := by
  -- they differ in the text that they print, and none of them has a result
  have hresult : op.signature.result = none := by cases op <;> rfl
  rw [hresult]
  apply Yields.after (text_yields h)
  intro text
  apply Yields.after (.print text)
  intro _
  exact .pure rfl

namespace SoftFloat

theorem FloatWidth.bits?_of_type {w : FloatWidth} {v : Value} (h : v.type = w.type) :
    ∃ bits, w.bits? v = some bits := by
  cases w <;> obtain ⟨bits, rfl⟩ := Value.type_eq_iff.mp h <;> exact ⟨_, rfl⟩

theorem FloatWidth.type_value (w : FloatWidth) (bits : Nat) : (w.value bits).type = w.type := by
  cases w <;> rfl

theorem IntWidth.int?_of_type {w : IntWidth} (isSigned : Bool) {v : Value} (h : v.type = w.type) :
    ∃ i, w.int? isSigned v = some i := by
  cases w <;> obtain ⟨bits, rfl⟩ := Value.type_eq_iff.mp h <;> cases isSigned <;> exact ⟨_, rfl⟩

theorem IntWidth.type_value (w : IntWidth) (i : Int) : (w.value i).type = w.type := by
  cases w <;> rfl

/-- A number out of range is the only fault of a truncation. -/
theorem Operator.truncated_typed (t : IntWidth) (number : Option α) (toInt : α → Int) :
    let result : Except Fault Value := do return t.value (toInt (← truncated number))
    (∃ v, result = .ok v ∧ some t.type = some v.type) ∨
      result = .error (.trap .integerOverflow) := by
  cases number with
  | none => exact .inr rfl
  | some n => exact .inl ⟨t.value (toInt n), rfl, by rw [IntWidth.type_value]⟩

/-- A float instruction on operands of its types has a result of its type, or traps. -/
theorem Operator.eval_typed {op : Operator} (h : op.signature.accepts args) :
    (∃ v, op.eval args = .ok v ∧ op.signature.result = some v.type) ∨
      op.eval args = .error (.trap .integerOverflow) := by
  rw [Signature.accepts_iff] at h
  cases op with
  | unary w f =>
    simp only [signature, List.map_eq_cons_iff, List.map_eq_nil_iff] at h
    obtain ⟨a, _, rfl, ha, rfl⟩ := h
    obtain ⟨bits, hbits⟩ := FloatWidth.bits?_of_type ha
    refine .inl ⟨w.value (f.eval w.format bits), ?_, ?_⟩
    · rw [eval, hbits]
      rfl
    · rw [signature, FloatWidth.type_value]
  | binary w f =>
    simp only [signature, List.map_eq_cons_iff, List.map_eq_nil_iff] at h
    obtain ⟨a, _, rfl, ha, b, _, rfl, hb, rfl⟩ := h
    obtain ⟨bitsA, hbitsA⟩ := FloatWidth.bits?_of_type ha
    obtain ⟨bitsB, hbitsB⟩ := FloatWidth.bits?_of_type hb
    refine .inl ⟨w.value (f.eval w.format bitsA bitsB), ?_, ?_⟩
    · rw [eval, hbitsA, hbitsB]
      rfl
    · rw [signature, FloatWidth.type_value]
  | relation w f =>
    simp only [signature, List.map_eq_cons_iff, List.map_eq_nil_iff] at h
    obtain ⟨a, _, rfl, ha, b, _, rfl, hb, rfl⟩ := h
    obtain ⟨bitsA, hbitsA⟩ := FloatWidth.bits?_of_type ha
    obtain ⟨bitsB, hbitsB⟩ := FloatWidth.bits?_of_type hb
    refine .inl ⟨.ofBool (f.eval w.format bitsA bitsB), ?_, rfl⟩
    rw [eval, hbitsA, hbitsB]
    rfl
  | truncate s t isSigned =>
    simp only [signature, List.map_eq_cons_iff, List.map_eq_nil_iff] at h
    obtain ⟨a, _, rfl, ha, rfl⟩ := h
    obtain ⟨bits, hbits⟩ := FloatWidth.bits?_of_type ha
    -- signed numbers are integers there, and unsigned ones naturals
    cases isSigned with
    | true =>
      rw [eval, hbits]
      exact truncated_typed t (truncateSigned s.format bits t.bits) id
    | false =>
      rw [eval, hbits]
      exact truncated_typed t (truncateUnsigned s.format bits t.bits) Int.ofNat
  | convert s isSigned t =>
    simp only [signature, List.map_eq_cons_iff, List.map_eq_nil_iff] at h
    obtain ⟨a, _, rfl, ha, rfl⟩ := h
    obtain ⟨i, hi⟩ := IntWidth.int?_of_type isSigned ha
    refine .inl ⟨t.value (ofInt t.format i), ?_, ?_⟩
    · rw [eval, hi]
      rfl
    · rw [signature, FloatWidth.type_value]
  | promote | demote =>
    simp only [signature, Wasm.map_type_eq_cons, List.map_eq_nil_iff] at h
    obtain ⟨bits, _, rfl, rfl⟩ := h
    exact .inl ⟨_, rfl, rfl⟩

end SoftFloat

theorem floatCall_returns {op : SoftFloat.Operator} (h : op.signature.accepts args) :
    Returns op.signature.result
      ((do return some (← Session.check (op.eval args))) : Session ω (Option Value)) := by
  rcases SoftFloat.Operator.eval_typed h with ⟨v, hv, hresult⟩ | htrap
  · rw [hv, hresult]
    exact .pure rfl
  · rw [htrap]
    apply Yields.throws
    nofun

/-! ## §4 Intrinsics that ask the host -/

/-- A fault is that of a refusal, or it comes later. -/
theorem error_of_refuse {condition : Prop} [Decidable condition] {refusal e : Fault}
    {f : Unit → Except Fault α}
    (h : (if condition then MonadExcept.throw refusal >>= f else f ()) = .error e) :
    e = refusal ∨ f () = .error e := by
  split_ifs at h
  · exact .inl (Except.error.inj h).symm
  · exact .inr h

theorem CryptoCall.recoverKey_ne {digest : Digest} {signature : List UInt8} {e : Fault}
    (h : Crypto.recoverKey digest signature = .error e) : e ≠ .unmatchedArguments := by
  unfold Crypto.recoverKey at h
  rcases error_of_refuse h with rfl | h
  · nofun
  rcases error_of_refuse h with rfl | h
  · nofun
  rcases error_of_refuse h with rfl | h
  · nofun
  split at h
  · cases h
    nofun
  split at h
  · cases h
    nofun
  split_ifs at h
  · cases h
    nofun
  · cases h

theorem CryptoCall.keyAt_yields (digest start length : UInt32) :
    Yields (fun _ => True) (keyAt digest start length : Session ω Crypto.PublicKey) := by
  apply Yields.after (.digestAt digest)
  intro d
  apply Yields.after (.slice start length)
  intro bytes
  exact .check fun _ => recoverKey_ne

theorem CryptoCall.digestOf_yields (start length : UInt32) :
    Yields (fun _ => True) (digestOf host start length) := by
  apply Yields.after (.slice start length)
  intro data
  apply Yields.get
  intro c
  exact .pure trivial

theorem CryptoCall.run_returns {op : CryptoCall} (h : op.signature.accepts args) :
    Returns op.signature.result (op.run host args) := by
  rw [Signature.accepts_iff] at h
  cases op with
  | assertRecoverKey =>
    simp only [signature, map_type_eq_cons, List.map_eq_nil_iff] at h
    obtain ⟨digest, _, rfl, start, _, rfl, length, _, rfl, key, _, rfl, keyLength, _, rfl, rfl⟩ := h
    simp only [Value.ofWord, run]
    apply Yields.after (keyAt_yields _ _ _)
    intro recovered
    apply Yields.after (.slice _ _)
    intro key
    apply Yields.refuse
    · simp
    · exact .pure rfl
  | recoverKey =>
    simp only [signature, map_type_eq_cons, List.map_eq_nil_iff] at h
    obtain ⟨digest, _, rfl, start, _, rfl, length, _, rfl, key, _, rfl, keyLength, _, rfl, rfl⟩ := h
    simp only [Value.ofWord, run]
    apply Yields.after (keyAt_yields _ _ _)
    intro recovered
    apply Yields.refuse
    · simp
    · apply Yields.after (.write _ _)
      intro _
      exact .pure rfl
  | assertSha256 =>
    simp only [signature, map_type_eq_cons, List.map_eq_nil_iff] at h
    obtain ⟨start, _, rfl, length, _, rfl, expected, _, rfl, rfl⟩ := h
    simp only [Value.ofWord, run]
    apply Yields.after (digestOf_yields _ _)
    intro hash
    apply Yields.after (.digestAt _)
    intro expected
    apply Yields.refuse
    · simp
    · exact .pure rfl
  | sha256 =>
    simp only [signature, map_type_eq_cons, List.map_eq_nil_iff] at h
    obtain ⟨start, _, rfl, length, _, rfl, result, _, rfl, rfl⟩ := h
    simp only [Value.ofWord, run]
    apply Yields.after (digestOf_yields _ _)
    intro hash
    apply Yields.after (.write _ _)
    intro _
    exact .pure rfl

theorem StorageCall.run_returns {op : StorageCall} (h : op.signature.accepts args) :
    Returns op.signature.result (op.run host args) := by
  rw [Signature.accepts_iff] at h
  cases op with
  | store =>
    simp only [signature, map_type_eq_cons, List.map_eq_nil_iff] at h
    obtain ⟨table, _, rfl, key, _, rfl, keyLength, _, rfl, value, _, rfl, valueLength, _, rfl,
      rfl⟩ := h
    apply Yields.after (.slice _ _)
    intro key
    apply Yields.after (.slice _ _)
    intro value
    apply Yields.after (.callback _)
    intro _
    exact .pure rfl
  | load =>
    simp only [signature, map_type_eq_cons, List.map_eq_nil_iff] at h
    obtain ⟨table, _, rfl, key, _, rfl, keyLength, _, rfl, start, _, rfl, length, _, rfl,
      rfl⟩ := h
    apply Yields.after (.slice _ _)
    intro key
    apply Yields.after (.lend _ _ _)
    intro result
    exact .pure rfl
  | hasKey =>
    simp only [signature, map_type_eq_cons, List.map_eq_nil_iff] at h
    obtain ⟨table, _, rfl, key, _, rfl, keyLength, _, rfl, rfl⟩ := h
    apply Yields.after (.slice _ _)
    intro key
    apply Yields.after (.callback _)
    intro found
    exact .pure rfl
  | removeKey =>
    simp only [signature, map_type_eq_cons, List.map_eq_nil_iff] at h
    obtain ⟨table, _, rfl, key, _, rfl, keyLength, _, rfl, rfl⟩ := h
    apply Yields.after (.slice _ _)
    intro key
    apply Yields.after (.callback _)
    intro _
    exact .pure rfl
  | hasTable | removeTable =>
    simp only [signature, map_type_eq_cons, List.map_eq_nil_iff] at h
    obtain ⟨table, _, rfl, rfl⟩ := h
    apply Yields.after (.callback _)
    intro _
    exact .pure rfl

/-- Positions of the declared type lead to topics. -/
theorem ChainCall.topics_yields {positions : List Value} {count : Nat}
    (h : positions.map Value.type = List.replicate count .i32) :
    Yields (fun _ => True) (positions.mapM topic : Session ω (List Digest)) := by
  induction count generalizing positions with
  | zero =>
    obtain rfl := List.map_eq_nil_iff.mp h
    exact .pure trivial
  | succ count ih =>
    rw [List.replicate_succ, map_type_eq_cons] at h
    obtain ⟨position, rest, rfl, hrest⟩ := h
    rw [List.mapM_cons]
    apply Yields.after (.digestAt position)
    intro topic
    apply Yields.after (ih hrest)
    intro topics
    exact .pure trivial

theorem ChainCall.run_returns {op : ChainCall} (h : op.signature.accepts args) :
    Returns op.signature.result (op.run host args) := by
  rw [Signature.accepts_iff] at h
  cases op with
  | time | height =>
    obtain rfl := List.map_eq_nil_iff.mp h
    apply Yields.after (.callback _)
    intro answer
    exact .pure rfl
  | hash =>
    simp only [signature, map_type_eq_cons, List.map_eq_nil_iff] at h
    obtain ⟨simple, _, rfl, full, _, rfl, rfl⟩ := h
    apply Yields.after (.callback _)
    intro hashes
    apply Yields.after (.write _ _)
    intro _
    apply Yields.after (.write _ _)
    intro _
    exact .pure rfl
  | log topics =>
    -- as many positions follow as there are topics
    simp only [signature, map_type_eq_cons] at h
    obtain ⟨start, _, rfl, length, positions, rfl, hpositions⟩ := h
    apply Yields.after (topics_yields hpositions)
    intro topics
    apply Yields.after (.slice _ _)
    intro data
    apply Yields.after (.callback _)
    intro _
    exact .pure rfl

theorem ActionCall.readAddress_yields (start length : UInt32) :
    Yields (fun _ => True) (readAddress start length : Session ω Address) := by
  unfold readAddress
  apply Yields.refuse
  · nofun
  · apply Yields.after (.slice start length)
    intro bytes
    apply Yields.check
    intro e he
    unfold Address.ofBytes at he
    split_ifs at he
    cases he
    nofun

theorem ActionCall.run_returns {op : ActionCall} (h : op.signature.accepts args) :
    Returns op.signature.result (op.run host args) := by
  cases takes_of_accepts h with
  | useGas cost => exact .pure rfl
  | readData start length =>
    apply Yields.get
    intro c
    dsimp only
    split_ifs
    · exact .pure rfl
    · apply Yields.after (.write _ _)
      intro _
      exact .pure rfl
  | dataSize | amount =>
    apply Yields.get
    intro c
    exact .pure rfl
  | address party start length =>
    apply Yields.get
    intro c
    apply Yields.after (.write _ _)
    intro _
    exact .pure rfl
  | transfer start length value =>
    apply Yields.after (readAddress_yields _ _)
    intro receiver
    apply Yields.after (.callback _)
    intro _
    exact .pure rfl
  | call start length payloadStart payloadLength value storage user =>
    apply Yields.after (readAddress_yields _ _)
    intro receiver
    apply Yields.get
    intro c
    apply Yields.refuse
    · nofun
    · apply Yields.after (.slice _ _)
      intro payload
      apply Yields.after (.callback _)
      intro result
      exact .pure rfl
  | callResult start length =>
    apply Yields.after (.lend _ _ _)
    intro result
    exact .pure rfl
  | setResult start length =>
    apply Yields.after (.slice _ _)
    intro result
    apply Yields.after (.callback _)
    intro answer
    exact .pure rfl

/-! ## §5 The whole catalog -/

namespace Intrinsic

/-- What an intrinsic does, on arguments of the declared types, returns a value of the declared
type. -/
theorem run_returns {i : Intrinsic} (h : i.signature.accepts args) :
    Returns i.signature.result (i.run host args) := by
  cases i with
  | action op => exact ActionCall.run_returns h
  | wide op => exact WideCall.Rule.run_returns h
  | console op => exact ConsoleCall.run_returns h
  | assertion op => exact AssertionCall.run_returns h
  | crypto op => exact CryptoCall.run_returns h
  | storage op => exact StorageCall.run_returns h
  | memory op => exact MemoryCall.run_returns h
  | float op => exact floatCall_returns h
  | chain op => exact ChainCall.run_returns h

/-- Charging comes first, and fails for want of gas only. -/
theorem call_returns {i : Intrinsic} (h : i.signature.accepts args) (host : Host ω)
    (c : Context ω) :
    ((i.call host args).exec c).1 ≠ .error .unmatchedArguments ∧
      ∀ v, ((i.call host args).exec c).1 = .ok v → v.map Value.type = i.signature.result := by
  by_cases hgas : i.price c.action args ≤ c.gas
  · rw [exec_call_paid h hgas]
    have hreturns : Returns i.signature.result (i.run host args) := run_returns h
    exact ⟨fun herror => hreturns.error _ _ herror rfl, hreturns.ok _⟩
  · -- the charge fails, and nothing is run
    obtain ⟨need, left, -, -, hcall⟩ := exec_call_unpaid h (Nat.lt_of_not_le hgas)
    rw [hcall host]
    exact ⟨nofun, nofun⟩

/-- Every intrinsic keeps to its signature, whichever host it asks and in every context. Called with
arguments of the declared types, it does not fail for one that is missing or of another type, and
what it returns has the declared type, where there is one, and is nothing otherwise. Called with
other arguments it fails with a fault that tells what it expects, and nothing at all has changed. -/
theorem call_typed (i : Intrinsic) (host : Host ω) (args : List Value) (c : Context ω) :
    let outcome := (i.call host args).exec c
    (args.map Value.type = i.signature.params →
      outcome.1 ≠ .error .unmatchedArguments ∧
        ∀ v, outcome.1 = .ok v → v.map Value.type = i.signature.result) ∧
    (args.map Value.type ≠ i.signature.params →
      ∃ fault, fault = .argumentTypes i.namespace_ i.name i.signature ∧
        fault.kind? = some .runtime ∧ outcome = (.error fault, c)) := by
  intro outcome
  constructor
  · intro h
    exact call_returns (Signature.accepts_iff.mpr h) host c
  · intro h
    have hrefused : ¬i.signature.accepts args := fun hargs => h (Signature.accepts_iff.mp hargs)
    exact ⟨_, rfl, rfl, exec_call_refused hrefused host⟩

end Intrinsic

end MeteredWasm
