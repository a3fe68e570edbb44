import MeteredWasm.Proofs.Checks
import MeteredWasm.Proofs.Wasm.Leb
import MeteredWasm.Wasm.Parser

/-!
# What parsers read

A parser *reads* some bytes as a value when it does so wherever they stand and whatever follows
them. This is the half of a round trip that composes along sequences; the other half, what a
successful run tells about its input, is an equivalence for each primitive parser.
-/

namespace MeteredWasm.Wasm

open MeteredWasm.Run

namespace Parser

variable {α β γ : Type}

/-! ## §1 Reading exactly some bytes -/

/-- The parser reads exactly these bytes as a value, wherever they stand and whatever follows. -/
def Reads (p : Parser α) (front : List UInt8) (a : α) : Prop :=
  ∀ tail offset, p.run ⟨front ++ tail, offset⟩ = .ok (a, ⟨tail, offset + front.length⟩)

@[simp]
theorem fail_ne_ok {cause : Malformed} {s : Input} {r : α × Input} :
    ¬ (fail cause : Parser α).run s = .ok r := by
  simp [fail, StateT.run]

theorem require_eq_ok {condition : Bool} {cause : Malformed} {s s' : Input} {u : Unit} :
    (require condition cause).run s = .ok (u, s') ↔ condition = true ∧ s = s' := by
  unfold require
  split_ifs with hcondition
  · simp only [pure_eq_ok, hcondition, true_and]
  · simp [hcondition]

namespace Reads

protected theorem pure (a : α) : Reads (pure a) [] a :=
  fun _ _ => rfl

protected theorem bind {p : Parser α} {f : α → Parser β} {front back : List UInt8} {a : α} {b : β}
    (hp : Reads p front a) (hf : Reads (f a) back b) : Reads (p >>= f) (front ++ back) b := by
  intro tail offset
  rw [bind_eq_ok]
  refine ⟨a, ⟨back ++ tail, offset + front.length⟩, ?_, ?_⟩
  · rw [List.append_assoc, hp]
  · rw [hf, List.length_append, Nat.add_assoc]

/-- A last step that reads nothing more. -/
theorem bind_nil {p : Parser α} {f : α → Parser β} {front : List UInt8} {a : α} {b : β}
    (hp : Reads p front a) (hf : Reads (f a) [] b) : Reads (p >>= f) front b := by
  have h := hp.bind hf
  rwa [List.append_nil] at h

/-- A last step that only computes. -/
theorem bind_pure {p : Parser α} {front : List UInt8} {a : α} (hp : Reads p front a) (f : α → β) :
    Reads (p >>= fun a => pure (f a)) front (f a) :=
  hp.bind_nil (Reads.pure (f a))

protected theorem map {p : Parser α} {front : List UInt8} {a : α} (hp : Reads p front a)
    (f : α → β) : Reads (f <$> p) front (f a) := by
  rw [← bind_pure_comp]
  exact hp.bind_pure f

/-- A first step that reads one byte. -/
theorem byte_bind {f : UInt8 → Parser β} {b : UInt8} {back : List UInt8} {a : β}
    (hf : Reads (f b) back a) : Reads (byte >>= f) (b :: back) a := by
  have hb : Reads byte [b] b := fun _ _ => rfl
  exact hb.bind hf

/-- A first step that reads nothing, because its condition holds. -/
theorem require_bind {condition : Bool} {cause : Malformed} {f : Unit → Parser β}
    {back : List UInt8} {a : β} (h : condition = true) (hf : Reads (f ()) back a) :
    Reads (require condition cause >>= f) back a := by
  have hrequire : Reads (require condition cause) [] () := by
    rw [require, if_pos h]
    exact Reads.pure ()
  exact hrequire.bind hf

/-- The run of a parser on bytes that it reads. -/
theorem run {p : Parser α} {front : List UInt8} {a : α} (hp : Reads p front a) (offset : Nat) :
    StateT.run p ⟨front, offset⟩ = .ok (a, ⟨[], offset + front.length⟩) := by
  have h := hp [] offset
  rwa [List.append_nil] at h

end Reads

theorem byte_eq_ok {s s' : Input} {b : UInt8} :
    byte.run s = .ok (b, s') ↔ s.bytes = b :: s'.bytes ∧ s'.offset = s.offset + 1 := by
  obtain ⟨bytes, offset⟩ := s
  obtain ⟨bytes', offset'⟩ := s'
  cases bytes with
  | nil => simp [StateT.run, byte]
  | cons c rest =>
    simp only [StateT.run, byte, Except.ok.injEq, Prod.mk.injEq, Input.mk.injEq, List.cons.injEq]
    tauto

theorem take_eq_ok {count : Nat} {s s' : Input} {front : List UInt8} :
    (take count).run s = .ok (front, s') ↔
      s.bytes = front ++ s'.bytes ∧ front.length = count ∧ s'.offset = s.offset + count := by
  obtain ⟨bytes, offset⟩ := s
  obtain ⟨bytes', offset'⟩ := s'
  simp only [StateT.run, take, List.splitAt_eq]
  split_ifs with hlength
  · simp only [Except.ok.injEq, Prod.mk.injEq, Input.mk.injEq]
    constructor
    · rintro ⟨rfl, rfl, rfl⟩
      exact ⟨(List.take_append_drop count bytes).symm, hlength, rfl⟩
    · rintro ⟨rfl, rfl, rfl⟩
      simp
  · simp only [false_iff, not_and]
    rintro rfl rfl
    simp at hlength

/-- A given number of bytes is read as it is. -/
theorem take_reads (bytes : List UInt8) : Reads (take bytes.length) bytes bytes := by
  intro tail offset
  rw [take_eq_ok]
  exact ⟨rfl, rfl, rfl⟩

/-- The parser that reads a form from the front of the input. -/
def ofRead (read : List UInt8 → Except Malformed (α × Nat × List UInt8)) : Parser α := fun s =>
  match read s.bytes with
  | .ok (a, used, rest) => .ok (a, ⟨rest, s.offset + used⟩)
  | .error e => .error e

theorem ofRead_eq_ok {read : List UInt8 → Except Malformed (α × Nat × List UInt8)}
    {s s' : Input} {a : α} :
    (ofRead read).run s = .ok (a, s') ↔
      ∃ used, read s.bytes = .ok (a, used, s'.bytes) ∧ s'.offset = s.offset + used := by
  obtain ⟨bytes', offset'⟩ := s'
  unfold StateT.run ofRead
  cases hread : read s.bytes with
  | error e => simp
  | ok r =>
    obtain ⟨b, used, rest⟩ := r
    simp only [Except.ok.injEq, Prod.mk.injEq, Input.mk.injEq]
    constructor
    · rintro ⟨rfl, rfl, rfl⟩
      exact ⟨used, ⟨rfl, rfl, rfl⟩, rfl⟩
    · rintro ⟨_, ⟨rfl, rfl, rfl⟩, rfl⟩
      exact ⟨rfl, rfl, rfl⟩

theorem u32_eq_ofRead : u32 = ofRead (Leb.readUnsigned 32) := by
  funext s
  unfold u32 ofRead
  cases Leb.readUnsigned 32 s.bytes with
  | error e => rfl
  | ok r => rfl

theorem signed_eq_ofRead (bits : Nat) : signed bits = ofRead (Leb.readSigned bits) := by
  funext s
  unfold signed ofRead
  cases Leb.readSigned bits s.bytes with
  | error e => rfl
  | ok r => rfl

theorem u32_eq_ok {s s' : Input} {n : Nat} :
    u32.run s = .ok (n, s') ↔
      ∃ used, Leb.readUnsigned 32 s.bytes = .ok (n, used, s'.bytes) ∧
        s'.offset = s.offset + used := by
  rw [u32_eq_ofRead, ofRead_eq_ok]

theorem signed_eq_ok {bits : Nat} {s s' : Input} {i : Int} :
    (signed bits).run s = .ok (i, s') ↔
      ∃ used, Leb.readSigned bits s.bytes = .ok (i, used, s'.bytes) ∧
        s'.offset = s.offset + used := by
  rw [signed_eq_ofRead, ofRead_eq_ok]

/-- A number that is read has 32 bits. -/
theorem u32_lt {s s' : Input} {n : Nat} (hrun : u32.run s = .ok (n, s')) : n < 2 ^ 32 := by
  obtain ⟨used, hread, -⟩ := u32_eq_ok.mp hrun
  exact (Leb.readUnsigned_bound hread).1

/-- The shortest form of a number is read as that number. -/
theorem u32_reads {n : Nat} (h : n < 2 ^ 32) : Reads u32 (Leb.unsigned n) n := by
  intro tail offset
  rw [u32_eq_ok]
  exact ⟨_, Leb.readUnsigned_unsigned h tail, rfl⟩

/-- The shortest form of an integer is read as that integer. -/
theorem signed_reads {bits : Nat} {i : Int} (h : -(2 ^ (bits - 1)) ≤ i ∧ i < 2 ^ (bits - 1)) :
    Reads (signed bits) (Leb.signed i) i := by
  intro tail offset
  rw [signed_eq_ok]
  exact ⟨_, Leb.readSigned_signed h tail, rfl⟩

/-! ## §2 Parsers that only look at what they use -/

/-- Whatever the parser accepts, it reads from the front that it uses. -/
def Local (p : Parser α) : Prop :=
  ∀ s a s', p.run s = .ok (a, s') →
    ∃ front, s.bytes = front ++ s'.bytes ∧ s'.offset = s.offset + front.length ∧ Reads p front a

namespace Local

protected theorem pure (a : α) : Local (pure a) := by
  intro s b s' hrun
  obtain ⟨rfl, rfl⟩ := pure_eq_ok.mp hrun
  exact ⟨[], rfl, rfl, Reads.pure a⟩

protected theorem fail (cause : Malformed) : Local (fail cause : Parser α) := by
  intro s b s' hrun
  simp at hrun

protected theorem bind {p : Parser α} {f : α → Parser β} (hp : Local p) (hf : ∀ a, Local (f a)) :
    Local (p >>= f) := by
  intro s b s' hrun
  obtain ⟨a, t, ha, hb⟩ := bind_eq_ok.mp hrun
  -- both parts use a front of what they are given, one behind the other
  obtain ⟨front, hfront, hoffset, hreads⟩ := hp _ _ _ ha
  obtain ⟨back, hback, hoffset', hreads'⟩ := hf a _ _ _ hb
  refine ⟨front ++ back, ?_, ?_, hreads.bind hreads'⟩
  · rw [hfront, hback, List.append_assoc]
  · rw [hoffset', hoffset, List.length_append, Nat.add_assoc]

end Local

theorem byte_local : Local byte := by
  intro s b s' hrun
  obtain ⟨hbytes, hoffset⟩ := byte_eq_ok.mp hrun
  exact ⟨[b], hbytes, hoffset, fun _ _ => rfl⟩

/-- A form that means the same in front of anything is all that its parser looks at. -/
theorem ofRead_local {read : List UInt8 → Except Malformed (α × Nat × List UInt8)}
    (hread : ∀ {bytes rest a used}, read bytes = .ok (a, used, rest) →
      ∃ front, bytes = front ++ rest ∧ front.length = used ∧
        ∀ tail, read (front ++ tail) = .ok (a, used, tail)) : Local (ofRead read) := by
  intro s a s' hrun
  obtain ⟨used, hused, hoffset⟩ := ofRead_eq_ok.mp hrun
  obtain ⟨front, hbytes, rfl, hfront⟩ := hread hused
  refine ⟨front, hbytes, hoffset, ?_⟩
  intro tail offset
  exact ofRead_eq_ok.mpr ⟨_, hfront tail, rfl⟩

theorem u32_local : Local u32 := by
  rw [u32_eq_ofRead]
  exact ofRead_local Leb.readUnsigned_front

theorem signed_local (bits : Nat) : Local (signed bits) := by
  rw [signed_eq_ofRead]
  exact ofRead_local Leb.readSigned_front

theorem repeatGo_local {p : Parser α} (hp : Local p) (count : Nat) (acc : Array α) :
    Local (repeatGo p count acc) := by
  induction count generalizing acc with
  | zero => exact Local.pure _
  | succ count ih => exact hp.bind fun a => ih (acc.push a)

theorem vec_local {p : Parser α} (hp : Local p) : Local (vec p) :=
  u32_local.bind fun count => repeatGo_local hp count #[]

theorem blockType_local : Local blockType := by
  refine byte_local.bind fun b => ?_
  split
  all_goals first
    | exact Local.pure _
    | exact Local.fail _

end Parser

end MeteredWasm.Wasm
