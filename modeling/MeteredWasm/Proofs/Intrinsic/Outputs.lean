import MeteredWasm.Proofs.Intrinsic.Steps
import MeteredWasm.Proofs.Memory.Refinement

/-!
# Where intrinsics write

The arguments of a call tell where its output goes, and how much of it there can be: a wide result, an
address, data, a buffer lent to the host, a key, a digest, a copied or filled range. Whatever comes of
a call, the memory keeps its size, and the bytes elsewhere stay as they were.

* `LinearMemory.AgreesOutside`: memories that differ in some ranges only;
* `Session.WritesWithin`: sessions that write nowhere else, put together from steps;
* `Intrinsic.outputs`: the ranges that the arguments of a call name;
* `Intrinsic.call_writes`: every call.
-/

namespace MeteredWasm

open Wasm (Value)

variable {ω : Type} {α β : Type}

/-! ## §1 Outputs -/

/-- A range of the memory that may be written. -/
structure Output where
  start : UInt32
  length : Nat

/-- An offset inside the range. -/
def Output.Covers (o : Output) (i : Nat) : Prop :=
  o.start.toNat ≤ i ∧ i < o.start.toNat + o.length

namespace LinearMemory

variable {outputs : List Output} {m m' m'' : LinearMemory}

/-- A memory of the same size, with the same bytes outside of some ranges. -/
def AgreesOutside (outputs : List Output) (m m' : LinearMemory) : Prop :=
  m'.pages = m.pages ∧
    ∀ i, (∀ o ∈ outputs, ¬o.Covers i) → m'.view.byte i = m.view.byte i

theorem AgreesOutside.refl (outputs : List Output) (m : LinearMemory) :
    AgreesOutside outputs m m :=
  ⟨rfl, fun _ _ => rfl⟩

theorem AgreesOutside.trans (h₁ : AgreesOutside outputs m m') (h₂ : AgreesOutside outputs m' m'') :
    AgreesOutside outputs m m'' :=
  ⟨h₂.1.trans h₁.1, fun i hi => (h₂.2 i hi).trans (h₁.2 i hi)⟩

/-- Overwriting one of the ranges leaves the rest. -/
theorem AgreesOutside.blit {start : UInt32} {src : ByteArray}
    (hmem : ⟨start, src.size⟩ ∈ outputs) (h : m.blit start.toNat src = .ok m') :
    AgreesOutside outputs m m' := by
  refine ⟨pages_of_blit h, ?_⟩
  intro i hi
  rw [view_of_blit h]
  exact if_neg (hi _ hmem)

theorem AgreesOutside.write {start : UInt32} {data : List UInt8}
    (hmem : ⟨start, data.length⟩ ∈ outputs) (h : m.write start.toNat data = .ok m') :
    AgreesOutside outputs m m' := by
  unfold LinearMemory.write at h
  split_ifs at h
  exact .blit (by rwa [List.size_toByteArray]) h

theorem AgreesOutside.copyWithin {dst : UInt32} {src length : Nat}
    (hmem : ⟨dst, length⟩ ∈ outputs) (h : m.copyWithin dst.toNat src length = .ok m') :
    AgreesOutside outputs m m' := by
  unfold LinearMemory.copyWithin at h
  split_ifs at h with hsrc
  -- as much is written as was taken from the source
  have hsize : (m.bytes.extract src (src + length)).size = length := by
    rw [ByteArray.size_extract]
    unfold size at hsrc
    omega
  exact .blit (by rwa [hsize]) h

theorem AgreesOutside.fill {start : UInt32} {value : UInt8} {length : Nat}
    (hmem : ⟨start, length⟩ ∈ outputs) (h : m.fill start.toNat value length = .ok m') :
    AgreesOutside outputs m m' := by
  unfold LinearMemory.fill at h
  split_ifs at h
  exact .blit (by rwa [size_repeated]) h

end LinearMemory

/-! ## §2 Sessions -/

/-- A session that writes inside some ranges only, whatever comes of it. -/
def Session.WritesWithin (outputs : List Output) (x : Session ω α) : Prop :=
  ∀ c : Context ω, c.memory.AgreesOutside outputs (x.exec c).2.memory

namespace Session.WritesWithin

open LinearMemory (AgreesOutside)

variable {outputs : List Output}

theorem pure (a : α) : WritesWithin outputs (Pure.pure a : Session ω α) :=
  fun _ => .refl _ _

theorem throw (e : Fault) : WritesWithin outputs (MonadExcept.throw e : Session ω α) :=
  fun _ => .refl _ _

theorem bind {x : Session ω α} {f : α → Session ω β} (hx : WritesWithin outputs x)
    (hf : ∀ a, WritesWithin outputs (f a)) : WritesWithin outputs (x >>= f) := by
  intro c
  have hfirst := hx c
  rw [exec_bind]
  generalize x.exec c = outcome at hfirst ⊢
  obtain ⟨r, c'⟩ := outcome
  cases r with
  | ok a => exact hfirst.trans (hf a c')
  | error e =>
    -- nothing follows, but what was written before stays
    exact hfirst

/-- What is done with a context that is read, in that context. -/
theorem get_at {f : Context ω → Session ω α} {c : Context ω}
    (h : c.memory.AgreesOutside outputs ((f c).exec c).2.memory) :
    c.memory.AgreesOutside outputs ((MonadState.get >>= f).exec c).2.memory :=
  h

theorem get {f : Context ω → Session ω α} (hf : ∀ c, WritesWithin outputs (f c)) :
    WritesWithin outputs (MonadState.get >>= f) :=
  fun c => get_at (hf c c)

theorem trap (r : Except Trap α) : WritesWithin outputs (Session.trap r : Session ω α) := by
  cases r with
  | ok a => exact pure a
  | error t => exact throw (.trap t)

theorem check (r : Except Fault α) : WritesWithin outputs (Session.check r : Session ω α) := by
  cases r with
  | ok a => exact pure a
  | error e => exact throw e

theorem slice (start length : UInt32) :
    WritesWithin outputs (Session.slice start length : Session ω (List UInt8)) :=
  get fun c => trap (c.memory.slice start.toNat length.toNat)

theorem digestAt (start : UInt32) :
    WritesWithin outputs (Session.digestAt start : Session ω Digest) := by
  apply get
  intro c
  apply bind (trap (c.memory.sliceVector start.toNat 32))
  intro bytes
  exact pure (Digest.mk bytes)

theorem print (text : String) : WritesWithin outputs (Session.print text : Session ω Unit) :=
  fun _ => .refl _ _

/-- Callbacks change the world of the host, not the memory. -/
theorem callback (f : StateKey → StateM ω α) :
    WritesWithin outputs (Session.callback f : Session ω α) :=
  fun _ => .refl _ _

theorem changeMemory {f : LinearMemory → Except Trap LinearMemory}
    (hf : ∀ m m', f m = .ok m' → AgreesOutside outputs m m') :
    WritesWithin outputs (Session.changeMemory f : Session ω Unit) := by
  intro c
  cases hm : f c.memory with
  | ok m =>
    rw [exec_changeMemory_ok hm]
    exact hf c.memory m hm
  | error t =>
    rw [exec_changeMemory_error hm]
    exact .refl _ _

theorem write {start : UInt32} {bytes : List UInt8} (hmem : ⟨start, bytes.length⟩ ∈ outputs) :
    WritesWithin outputs (Session.write start bytes : Session ω Unit) := by
  have hchange : WritesWithin outputs
      (Session.changeMemory fun m => m.write start.toNat bytes : Session ω Unit) :=
    changeMemory fun m m' h => AgreesOutside.write hmem h
  exact hchange

/-- A buffer that was lent is written back where it came from. -/
theorem lend {start length : UInt32}
    {f : StateKey → Vector UInt8 length.toNat → StateM ω (Int32 × Vector UInt8 length.toNat)}
    (hmem : ⟨start, length.toNat⟩ ∈ outputs) :
    WritesWithin outputs (Session.lend start length f) := by
  apply get
  intro c
  apply bind (trap (c.memory.sliceVector start.toNat length.toNat))
  intro buffer
  apply bind (callback fun key => f key buffer)
  rintro ⟨result, contents⟩
  -- the host cannot give back more or fewer bytes than it was lent
  have hlength : contents.toList.length = length.toNat := Vector.length_toList
  apply bind (write (by rwa [hlength]))
  intro _
  exact pure result

/-- A refusal that hangs on a condition, and what comes after it otherwise. -/
theorem refuse {condition : Prop} [Decidable condition] (e : Fault) {f : Unit → Session ω α}
    (h : WritesWithin outputs (f ())) :
    WritesWithin outputs (if condition then MonadExcept.throw e >>= f else f ()) := by
  split_ifs
  · exact bind (throw e) fun _ => h
  · exact h

end Session.WritesWithin

/-! ## §3 The outputs of calls -/

/-- Data, an address, or a buffer that is lent to the host. Of data and addresses as much is copied
as there is, but no more than fits into the range given. -/
def ActionCall.outputs (action : Action) : ActionCall → List Value → List Output
  | readData, [.i32 start, .i32 length] => [⟨start, min length.toNat action.data.length⟩]
  | address _, [.i32 start, .i32 length] => [⟨start, min length.toNat Address.length⟩]
  | callResult, [.i32 start, .i32 length] => [⟨start, length.toNat⟩]
  | _, _ => []

/-- A wide result, which calls have that give no other. -/
def WideCall.outputs (op : WideCall) : List Value → List Output
  | .i32 start :: _ => if op.signature.result = none then [⟨start, 16⟩] else []
  | _ => []

/-- A key, or a digest. -/
def CryptoCall.outputs : CryptoCall → List Value → List Output
  | recoverKey, [_, _, _, .i32 start, _] => [⟨start, Crypto.publicKeyLength⟩]
  | sha256, [_, _, .i32 start] => [⟨start, 32⟩]
  | _, _ => []

/-- A buffer that is lent to the host. -/
def StorageCall.outputs : StorageCall → List Value → List Output
  | load, [_, _, _, .i32 start, .i32 length] => [⟨start, length.toNat⟩]
  | _, _ => []

/-- The range that is copied to, or filled. -/
def MemoryCall.outputs : MemoryCall → List Value → List Output
  | compare, _ => []
  | _, [.i32 start, _, .i32 length] => [⟨start, length.toNat⟩]
  | _, _ => []

/-- Two digests. -/
def ChainCall.outputs : ChainCall → List Value → List Output
  | hash, [.i32 simple, .i32 full] => [⟨simple, 32⟩, ⟨full, 32⟩]
  | _, _ => []

/-- The ranges that the arguments of a call name for its output. -/
def Intrinsic.outputs (action : Action) (args : List Value) : Intrinsic → List Output
  | .action op => op.outputs action args
  | .wide op => op.outputs args
  | .crypto op => op.outputs args
  | .storage op => op.outputs args
  | .memory op => op.outputs args
  | .chain op => op.outputs args
  | .console _ | .assertion _ | .float _ => []

theorem Address.length_toBytes (a : Address) : a.toBytes.length = Address.length :=
  Vector.length_toList

theorem Digest.length_toBytes (d : Digest) : d.toBytes.length = 32 :=
  Vector.length_toList

open Session (WritesWithin)

variable {host : Host ω} {outputs : List Output}

/-! ## §4 Intrinsics without a host -/

theorem MemoryCall.run_writes (op : MemoryCall) (args : List Value) :
    WritesWithin (op.outputs args) (op.run args : Session ω (Option Value)) := by
  unfold run
  split
  · apply WritesWithin.refuse
    apply WritesWithin.bind (.changeMemory fun _ _ h => .copyWithin (.head _) h)
    intro _
    exact .pure _
  · apply WritesWithin.bind (.changeMemory fun _ _ h => .copyWithin (.head _) h)
    intro _
    exact .pure _
  · apply WritesWithin.bind (.slice _ _)
    intro a
    apply WritesWithin.bind (.slice _ _)
    intro b
    exact .pure _
  · apply WritesWithin.bind (.changeMemory fun _ _ h => .fill (.head _) h)
    intro _
    exact .pure _
  · exact .throw _

theorem WideCall.writeWide_writes {start : UInt32} (w : Wide.Word) (hmem : ⟨start, 16⟩ ∈ outputs) :
    WritesWithin outputs (writeWide start w : Session ω (Option Value)) := by
  have hlength : (littleEndian 16 w.toNat).length = 16 := length_littleEndian 16 _
  apply WritesWithin.bind (.write (by rwa [hlength]))
  intro _
  exact .pure none

theorem WideCall.run_writes (op : WideCall) (args : List Value) :
    WritesWithin (op.outputs args) (op.run args : Session ω (Option Value)) := by
  have hwide {start : UInt32} {rest : List Value} (hargs : args = .i32 start :: rest)
      (hresult : op.rule.signature.result = none) : ⟨start, 16⟩ ∈ op.outputs args := by
    subst hargs
    show _ ∈ if op.rule.signature.result = none then _ else _
    rw [if_pos hresult]
    exact .head _
  unfold run Rule.run
  split
  -- the rules with a wide result, then those with a result of their own
  case h_1 hrule | h_2 hrule | h_5 hrule | h_6 hrule | h_7 hrule | h_8 hrule =>
    exact writeWide_writes _ (hwide rfl (by rw [hrule]; rfl))
  case h_3 hrule =>
    apply WritesWithin.bind (.trap _)
    intro w
    exact writeWide_writes w (hwide rfl (by rw [hrule]; rfl))
  case h_4 | h_9 | h_10 | h_11 | h_12 | h_13 => exact .pure _
  case h_14 => exact .throw _

theorem AssertionCall.run_writes (op : AssertionCall) (args : List Value) :
    WritesWithin outputs (op.run args : Session ω (Option Value)) := by
  unfold run
  split
  · exact .throw _
  · split_ifs
    · apply WritesWithin.get
      intro c
      apply WritesWithin.bind (.trap _)
      intro text
      apply WritesWithin.bind (.throw _)
      intro _
      exact .pure none
    · exact .pure none
  · split_ifs
    · apply WritesWithin.get
      intro c
      apply WritesWithin.bind (.slice _ _)
      intro text
      apply WritesWithin.bind (.throw _)
      intro _
      exact .pure none
    · exact .pure none
  · exact .refuse _ (.pure none)
  · exact .throw _
  · exact .throw _

theorem ConsoleCall.text_writes (op : ConsoleCall) (args : List Value) :
    WritesWithin outputs (op.text args : Session ω String) := by
  unfold text
  split
  case h_1 | h_7 =>
    apply WritesWithin.get
    intro c
    apply WritesWithin.bind (.trap _)
    intro bytes
    exact .pure _
  case h_2 | h_9 =>
    apply WritesWithin.bind (.slice _ _)
    intro bytes
    exact .pure _
  case h_3 | h_4 | h_5 | h_6 | h_8 => exact .pure _
  case h_10 => exact .throw _

theorem ConsoleCall.run_writes (op : ConsoleCall) (args : List Value) :
    WritesWithin outputs (op.run args : Session ω (Option Value)) := by
  apply WritesWithin.bind (op.text_writes args)
  intro text
  apply WritesWithin.bind (.print text)
  intro _
  exact .pure none

/-! ## §5 Intrinsics that ask the host -/

theorem CryptoCall.keyAt_writes (digest start length : UInt32) :
    WritesWithin outputs (keyAt digest start length : Session ω Crypto.PublicKey) := by
  apply WritesWithin.bind (.digestAt digest)
  intro d
  apply WritesWithin.bind (.slice start length)
  intro bytes
  exact .check _

theorem CryptoCall.digestOf_writes (start length : UInt32) :
    WritesWithin outputs (digestOf host start length) := by
  apply WritesWithin.bind (.slice start length)
  intro data
  apply WritesWithin.get
  intro c
  exact .pure _

theorem CryptoCall.run_writes (op : CryptoCall) (args : List Value) :
    WritesWithin (op.outputs args) (op.run host args) := by
  fun_cases run host op args with
  | case1 =>
    apply WritesWithin.bind (keyAt_writes _ _ _)
    intro recovered
    apply WritesWithin.bind (.slice _ _)
    intro key
    exact .refuse _ (.pure none)
  | case2 digest start length key keyLength =>
    apply WritesWithin.bind (keyAt_writes _ _ _)
    intro recovered
    -- a key has its length, however long the buffer
    have hlength : recovered.toList.length = Crypto.publicKeyLength := Vector.length_toList
    apply WritesWithin.refuse
    apply WritesWithin.bind (.write (by rw [hlength]; exact .head _))
    intro _
    exact .pure _
  | case3 =>
    apply WritesWithin.bind (digestOf_writes _ _)
    intro hash
    apply WritesWithin.bind (.digestAt _)
    intro expected
    exact .refuse _ (.pure none)
  | case4 =>
    apply WritesWithin.bind (digestOf_writes _ _)
    intro hash
    apply WritesWithin.bind (.write (by rw [hash.length_toBytes]; exact .head _))
    intro _
    exact .pure none
  | case5 => exact .throw _

theorem StorageCall.run_writes (op : StorageCall) (args : List Value) :
    WritesWithin (op.outputs args) (op.run host args) := by
  fun_cases run host op args with
  | case1 table key keyLength value valueLength =>
    apply WritesWithin.bind (.slice _ _)
    intro key
    apply WritesWithin.bind (.slice _ _)
    intro value
    apply WritesWithin.bind (.callback _)
    intro _
    exact .pure none
  | case2 table key keyLength start length =>
    apply WritesWithin.bind (.slice _ _)
    intro key
    apply WritesWithin.bind (.lend (.head _))
    intro result
    exact .pure _
  | case3 | case4 =>
    apply WritesWithin.bind (.slice _ _)
    intro key
    apply WritesWithin.bind (.callback _)
    intro _
    exact .pure _
  | case5 | case6 =>
    apply WritesWithin.bind (.callback _)
    intro _
    exact .pure _
  | case7 => exact .throw _

theorem ChainCall.topic_writes (v : Value) :
    WritesWithin outputs (topic v : Session ω Digest) := by
  unfold topic
  split
  · exact .digestAt _
  · exact .throw _

theorem ChainCall.topics_writes (positions : List Value) :
    WritesWithin outputs (positions.mapM topic : Session ω (List Digest)) := by
  induction positions with
  | nil => exact .pure []
  | cons v rest ih =>
    rw [List.mapM_cons]
    apply WritesWithin.bind (topic_writes v)
    intro digest
    apply WritesWithin.bind ih
    intro digests
    exact .pure _

theorem ChainCall.run_writes (op : ChainCall) (args : List Value) :
    WritesWithin (op.outputs args) (op.run host args) := by
  fun_cases run host op args with
  | case1 | case2 =>
    apply WritesWithin.bind (.callback _)
    intro _
    exact .pure _
  | case3 simple full =>
    apply WritesWithin.bind (.callback _)
    rintro ⟨simpleHash, fullHash⟩
    -- two writes: if the second fails, the first is not undone
    apply WritesWithin.bind (.write (by rw [simpleHash.length_toBytes]; exact .head _))
    intro _
    apply WritesWithin.bind (.write (by rw [fullHash.length_toBytes]; exact .tail _ (.head _)))
    intro _
    exact .pure none
  | case4 =>
    apply WritesWithin.bind (topics_writes _)
    intro topics
    apply WritesWithin.bind (.slice _ _)
    intro data
    apply WritesWithin.bind (.callback _)
    intro _
    exact .pure none
  | case5 => exact .throw _

theorem ActionCall.readAddress_writes (start length : UInt32) :
    WritesWithin outputs (readAddress start length : Session ω Address) := by
  unfold readAddress
  apply WritesWithin.refuse
  apply WritesWithin.bind (.slice start length)
  intro bytes
  exact .check _

theorem ActionCall.run_writes {op : ActionCall} {args : List Value}
    (hargs : op.signature.accepts args) (c : Context ω) :
    c.memory.AgreesOutside (op.outputs c.action args) ((op.run host args).exec c).2.memory := by
  cases takes_of_accepts hargs with
  | useGas cost => exact .refl _ _
  | readData start length =>
    have hlength : (c.action.data.take length.toNat).length =
        min length.toNat c.action.data.length := List.length_take
    -- how much is written hangs on the data of this context
    apply WritesWithin.get_at
    dsimp only
    split_ifs
    · exact .refl _ _
    · refine WritesWithin.bind (.write (by rw [hlength]; exact .head _)) ?_ c
      intro _
      exact .pure _
  | dataSize | amount => exact .refl _ _
  | address party start length =>
    apply WritesWithin.get_at
    have hlength : ((party.address c.invocation).toBytes.take length.toNat).length =
        min length.toNat Address.length := by
      rw [List.length_take, Address.length_toBytes]
    refine WritesWithin.bind (.write (by rw [hlength]; exact .head _)) ?_ c
    intro _
    exact .pure none
  | transfer start length value =>
    refine WritesWithin.bind (readAddress_writes _ _) ?_ c
    intro receiver
    apply WritesWithin.bind (.callback _)
    intro _
    exact .pure none
  | call start length payloadStart payloadLength value storage user =>
    refine WritesWithin.bind (readAddress_writes _ _) ?_ c
    intro receiver
    apply WritesWithin.get
    intro c
    apply WritesWithin.refuse
    apply WritesWithin.bind (.slice _ _)
    intro payload
    apply WritesWithin.bind (.callback _)
    intro result
    exact .pure _
  | callResult start length =>
    refine WritesWithin.bind (.lend (.head _)) ?_ c
    intro result
    exact .pure _
  | setResult start length =>
    refine WritesWithin.bind (.slice _ _) ?_ c
    intro result
    apply WritesWithin.bind (.callback _)
    intro answer
    exact .pure _

/-! ## §6 Calls -/

theorem Intrinsic.run_writes {i : Intrinsic} {args : List Value} (hargs : i.signature.accepts args)
    (c : Context ω) :
    c.memory.AgreesOutside (i.outputs c.action args) ((i.run host args).exec c).2.memory := by
  cases i with
  | action op => exact ActionCall.run_writes hargs c
  | wide op => exact op.run_writes args c
  | console op => exact op.run_writes args c
  | assertion op => exact op.run_writes args c
  | crypto op => exact op.run_writes args c
  | storage op => exact op.run_writes args c
  | memory op => exact op.run_writes args c
  | float op =>
    refine WritesWithin.bind (.check (op.eval args)) ?_ c
    intro v
    exact .pure (some v)
  | chain op => exact op.run_writes args c

/-- Whatever comes of a call, and whatever the host answers, the memory afterwards has as many pages
as before, and the same byte at every offset outside of the outputs. A call that fails may have
written some of them: of two digests perhaps the first only. -/
theorem Intrinsic.call_writes (host : Host ω) (i : Intrinsic) (args : List Value) (c : Context ω) :
    c.memory.AgreesOutside (i.outputs c.action args) ((i.call host args).exec c).2.memory := by
  rcases i.exec_call_cases args c host with ⟨fault, left, h⟩ | ⟨hargs, left, h⟩
  · -- only the gas was touched
    rw [h]
    exact .refl _ _
  · rw [h]
    exact run_writes hargs (c.withGas left)

end MeteredWasm
