import MeteredWasm.Contract.Session

/-!
# Callbacks as data

Everything that a host can be asked, as one type of questions with a type of answers for each. A host
is then a function from questions to answers, so what holds of every callback is said once; and a
host can be made to record what it is asked, which shows the callbacks that a contract makes.
-/

namespace MeteredWasm

variable {ω : Type}

/-! ## §1 Questions and answers -/

/-- A callback with its arguments, without the key of the invocation that makes it. -/
inductive Callback where
  | store (table : UInt64) (key value : List UInt8)
  | load (table : UInt64) (key : List UInt8) {length : Nat} (buffer : Vector UInt8 length)
  | hasKey (table : UInt64) (key : List UInt8)
  | removeKey (table : UInt64) (key : List UInt8)
  | hasTable (table : UInt64)
  | removeTable (table : UInt64)
  | time
  | height
  | hashes
  | log (topics : List Digest) (data : List UInt8)
  | transfer (receiver : Address) (amount : UInt64)
  | call (nested : NestedCall)
  | callResult {length : Nat} (buffer : Vector UInt8 length)
  | setResult (result : List UInt8)

namespace Callback

/-- What the host gives back. -/
def Answer : Callback → Type
  | store .. | removeKey .. | removeTable .. | log .. | transfer .. => Unit
  | @load _ _ length _ | @callResult length _ => Int32 × Vector UInt8 length
  | hasKey .. | hasTable .. => Bool
  | time | height => UInt64
  | hashes => Digest × Digest
  | call .. | setResult .. => Int32

/-- The callbacks that are made to change something outside the contract. -/
def mutates : Callback → Bool
  | store .. | removeKey .. | removeTable .. | log .. | transfer .. | call .. | setResult .. => true
  | _ => false

end Callback

namespace Host

/-- The answer of a host to a question. -/
def answer (host : Host ω) (key : StateKey) : (q : Callback) → StateM ω q.Answer
  | .store table k v => host.store key table k v
  | .load table k buffer => host.load key table k buffer
  | .hasKey table k => host.hasKey key table k
  | .removeKey table k => host.removeKey key table k
  | .hasTable table => host.hasTable key table
  | .removeTable table => host.removeTable key table
  | .time => host.time key
  | .height => host.height key
  | .hashes => host.hashes key
  | .log topics data => host.log key topics data
  | .transfer receiver amount => host.transfer key receiver amount
  | .call nested => host.call key nested
  | .callResult buffer => host.callResult key buffer
  | .setResult result => host.setResult key result

/-- The host that gives certain answers. -/
def ofAnswers (answers : StateKey → (q : Callback) → StateM ω q.Answer)
    (sha256 : ω → List UInt8 → Digest) : Host ω where
  store key table k v := answers key (.store table k v)
  load key table k _ buffer := answers key (.load table k buffer)
  hasKey key table k := answers key (.hasKey table k)
  removeKey key table k := answers key (.removeKey table k)
  hasTable key table := answers key (.hasTable table)
  removeTable key table := answers key (.removeTable table)
  time key := answers key .time
  height key := answers key .height
  hashes key := answers key .hashes
  log key topics data := answers key (.log topics data)
  transfer key receiver amount := answers key (.transfer receiver amount)
  call key nested := answers key (.call nested)
  callResult key _ buffer := answers key (.callResult buffer)
  setResult key result := answers key (.setResult result)
  sha256 := sha256

@[simp]
theorem answer_ofAnswers (answers : StateKey → (q : Callback) → StateM ω q.Answer)
    (sha256 : ω → List UInt8 → Digest) (key : StateKey) (q : Callback) :
    (ofAnswers answers sha256).answer key q = answers key q := by
  cases q <;> rfl

end Host

/-! ## §2 Hosts that cannot be told apart -/

/-- How two worlds are compared: by a relation that is to be kept, until the first one is spoiled. -/
structure Comparison (ω ω' : Type) where
  related : ω → ω' → Prop
  spoiled : ω → Prop := fun _ => False

/-- Two computations on worlds that give the same result and keep a relation between the worlds,
unless the first one spoils its world. -/
def Comparison.Keeps {ω ω' α : Type} (K : Comparison ω ω') (x : StateM ω α) (x' : StateM ω' α) :
    Prop :=
  ∀ world world', K.related world world' → ¬K.spoiled (x world).2 →
    (x world).1 = (x' world').1 ∧ K.related (x world).2 (x' world').2

/-- Two hosts that answer alike in related worlds. A spoiled world stays spoiled. -/
structure Host.Alike {ω ω' : Type} (K : Comparison ω ω') (host : Host ω) (host' : Host ω') :
    Prop where
  answer : ∀ key q, K.Keeps (host.answer key q) (host'.answer key q)
  spoils : ∀ key q world, K.spoiled world → K.spoiled (host.answer key q world).2
  sha256 : ∀ world world' data, K.related world world' →
    host.sha256 world data = host'.sha256 world' data

/-! ## §3 Recording -/

/-- The callbacks that were made, the first one first, each with the key that came with it. -/
abbrev Record := List (StateKey × Callback)

namespace Host

/-- The host that answers as another one does, and keeps a record of what it is asked. -/
def recording (host : Host ω) : Host (ω × Record) :=
  .ofAnswers
    (fun key q world =>
      let answered := host.answer key q world.1
      (answered.1, answered.2, world.2 ++ [(key, q)]))
    fun world => host.sha256 world.1

theorem answer_recording (host : Host ω) (key : StateKey) (q : Callback) (world : ω × Record) :
    host.recording.answer key q world =
      ((host.answer key q world.1).1, (host.answer key q world.1).2, world.2 ++ [(key, q)]) := by
  rw [recording, answer_ofAnswers]

/-- Nobody notices that a record is kept. -/
theorem alike_recording (host : Host ω) :
    Alike ⟨fun world recorded => recorded.1 = world, fun _ => False⟩ host host.recording where
  answer key q := by
    intro world recorded hworld _
    subst hworld
    rw [answer_recording]
    exact ⟨rfl, rfl⟩
  spoils _ _ _ := False.elim
  sha256 := by
    intro world recorded data hworld
    subst hworld
    rfl

end Host

end MeteredWasm
