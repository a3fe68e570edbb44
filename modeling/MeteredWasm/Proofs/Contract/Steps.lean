import Mathlib.Algebra.Ring.Nat
import Mathlib.Tactic.SplitIfs
import MeteredWasm.Proofs.Contract.Callbacks
import MeteredWasm.Proofs.Memory.Contents

/-!
# What sessions are made of

Two sessions over different worlds are made of the same steps when they differ in nothing but the
host that they ask. Once this is known of a session, what its steps leave alone, the session leaves
alone, and hosts that cannot be told apart lead to outcomes that cannot be told apart.
-/

namespace MeteredWasm

variable {ω ω' : Type}

/-! ## §1 Outcomes -/

/-- The context with another world. -/
def Context.withWorld (c : Context ω) (world : ω') : Context ω' :=
  { c with world := world }

/-- The context with other gas. -/
def Context.withGas (c : Context ω) (gas : Nat) : Context ω :=
  { c with gas := gas }

namespace Session

variable {α β : Type}

/-- Run a session: its result, and what has become of the context. -/
def exec (x : Session ω α) (c : Context ω) : Except Fault α × Context ω :=
  x.run c

theorem exec_bind (x : Session ω α) (f : α → Session ω β) (c : Context ω) :
    (x >>= f).exec c = match x.exec c with
      | (.ok a, c') => (f a).exec c'
      | (.error e, c') => (.error e, c') := by
  show (match x.exec c with | (r, c') => (ExceptT.bindCont f r) c') = _
  obtain ⟨r, c'⟩ := x.exec c
  cases r with
  | ok a => rfl
  | error e => rfl

theorem exec_bind_ok {x : Session ω α} {f : α → Session ω β} {c c' : Context ω} {a : α}
    (h : x.exec c = (.ok a, c')) : (x >>= f).exec c = (f a).exec c' := by
  rw [exec_bind, h]

theorem exec_bind_error {x : Session ω α} {f : α → Session ω β} {c c' : Context ω} {e : Fault}
    (h : x.exec c = (.error e, c')) : (x >>= f).exec c = (.error e, c') := by
  rw [exec_bind, h]

@[simp]
theorem exec_get_bind (f : Context ω → Session ω α) (c : Context ω) :
    (get >>= f).exec c = (f c).exec c :=
  rfl

theorem exec_callback (f : StateKey → StateM ω α) (c : Context ω) :
    (callback f).exec c = (.ok (f c.invocation.stateKey c.world).1,
      { c with world := (f c.invocation.stateKey c.world).2 }) :=
  rfl

theorem exec_changeMemory_ok {f : LinearMemory → Except Trap LinearMemory} {c : Context ω}
    {m : LinearMemory} (h : f c.memory = .ok m) :
    (changeMemory f).exec c = (.ok (), { c with memory := m }) := by
  show ((trap (f c.memory)) >>= _).exec c = _
  rw [h]
  rfl

theorem exec_changeMemory_error {f : LinearMemory → Except Trap LinearMemory} {c : Context ω}
    {t : Trap} (h : f c.memory = .error t) :
    (changeMemory f).exec c = (.error (.trap t), c) := by
  show ((trap (f c.memory)) >>= _).exec c = _
  rw [h]
  rfl

/-! ## §2 Charging -/

section Charging

variable {c : Context ω}

theorem exec_charge_paid {cost : Nat} (h : cost ≤ c.gas) :
    (charge cost : Session ω Unit).exec c = (.ok (), c.withGas (c.gas - cost)) := by
  have hnot : ¬c.gas < cost := Nat.not_lt.mpr h
  unfold charge
  simp only [exec_get_bind, hnot, if_false]
  rfl

theorem exec_charge_unpaid {cost : Nat} (h : c.gas < cost) :
    (charge cost : Session ω Unit).exec c = (.error (.outOfGas cost c.gas), c) := by
  unfold charge
  simp only [exec_get_bind, h, if_true]
  rfl

theorem forM_charge_cons (cost : Nat) (rest : List Nat) :
    ((cost :: rest).forM charge : Session ω Unit) =
      charge cost >>= fun _ => rest.forM charge :=
  rfl

/-- Charges that are covered together are all paid. -/
theorem exec_charges_paid {costs : List Nat} (h : costs.sum ≤ c.gas) :
    (costs.forM charge : Session ω Unit).exec c = (.ok (), c.withGas (c.gas - costs.sum)) := by
  induction costs generalizing c with
  | nil => rfl
  | cons cost rest ih =>
    rw [List.sum_cons] at h
    rw [forM_charge_cons, exec_bind_ok (exec_charge_paid (by omega)),
      ih (Nat.le_sub_of_add_le' h)]
    simp only [Context.withGas, List.sum_cons, Nat.sub_sub]

/-- Of charges that are not covered together the first ones may be paid, but one is not. -/
theorem exec_charges_unpaid {costs : List Nat} {gas : Nat} (h : gas < costs.sum) :
    ∃ need left, left < need ∧ left ≤ gas ∧ ∀ {ω : Type} (c : Context ω), c.gas = gas →
      (costs.forM charge : Session ω Unit).exec c =
        (.error (.outOfGas need left), c.withGas left) := by
  induction costs generalizing gas with
  | nil => simp at h
  | cons cost rest ih =>
    rw [List.sum_cons] at h
    by_cases hcost : gas < cost
    · refine ⟨cost, gas, hcost, Nat.le_refl gas, ?_⟩
      intro ω c hc
      subst hc
      rw [forM_charge_cons, exec_bind_error (exec_charge_unpaid hcost)]
      rfl
    · have hrest : gas - cost < rest.sum := by omega
      obtain ⟨need, left, hneed, hleft, hrest⟩ := ih hrest
      refine ⟨need, left, hneed, Nat.le_trans hleft (Nat.sub_le _ _), ?_⟩
      intro ω c hc
      subst hc
      rw [forM_charge_cons, exec_bind_ok (exec_charge_paid (by omega)), hrest _ rfl]
      rfl

end Charging

/-! ## §3 Steps -/

/-- Sessions made of the same steps, with callbacks out of those allowed. What is read of a context
is the same in both, whatever the worlds are. -/
inductive Steps (host : Host ω) (host' : Host ω') (allowed : Callback → Prop) :
    {α : Type} → Session ω α → Session ω' α → Prop where
  | pure {α : Type} (a : α) : Steps host host' allowed (Pure.pure a) (Pure.pure a)
  | throw {α : Type} (e : Fault) :
      Steps host host' allowed (throw e : Session ω α) (throw e : Session ω' α)
  | bind {α β : Type} {x : Session ω α} {x' : Session ω' α} {f : α → Session ω β}
      {f' : α → Session ω' β} (hx : Steps host host' allowed x x')
      (hf : ∀ a, Steps host host' allowed (f a) (f' a)) :
      Steps host host' allowed (x >>= f) (x' >>= f')
  | get {α : Type} {f : Context ω → Session ω α} {f' : Context ω' → Session ω' α}
      (hf : ∀ c world, Steps host host' allowed (f c) (f' (c.withWorld world))) :
      Steps host host' allowed (get >>= f) (get >>= f')
  | changeMemory {f : LinearMemory → Except Trap LinearMemory}
      (hf : ∀ m m', f m = .ok m' → m'.pages = m.pages) :
      Steps host host' allowed (Session.changeMemory f) (Session.changeMemory f)
  | print (text : String) : Steps host host' allowed (Session.print text) (Session.print text)
  | ask (q : Callback) (hq : allowed q) :
      Steps host host' allowed (callback fun key => host.answer key q)
        (callback fun key => host'.answer key q)
  | sha256 (data : List UInt8) :
      Steps host host' allowed (do return host.sha256 (← MonadState.get).world data)
        (do return host'.sha256 (← MonadState.get).world data)

namespace Steps

variable {host : Host ω} {host' : Host ω'} {allowed : Callback → Prop}

theorem trap (r : Except Trap α) :
    Steps host host' allowed (Session.trap r) (Session.trap r) := by
  cases r with
  | ok a => exact .pure a
  | error t => exact .throw (.trap t)

theorem check (r : Except Fault α) :
    Steps host host' allowed (Session.check r) (Session.check r) := by
  cases r with
  | ok a => exact .pure a
  | error e => exact .throw e

theorem slice (start length : UInt32) :
    Steps host host' allowed (Session.slice start length) (Session.slice start length) := by
  apply Steps.get
  intro c world
  exact Steps.trap (c.memory.slice start.toNat length.toNat)

theorem digestAt (start : UInt32) :
    Steps host host' allowed (Session.digestAt start) (Session.digestAt start) := by
  apply Steps.get
  intro c world
  apply Steps.bind (Steps.trap (c.memory.sliceVector start.toNat 32))
  intro bytes
  exact Steps.pure (Digest.mk bytes)

theorem write (start : UInt32) (bytes : List UInt8) :
    Steps host host' allowed (Session.write start bytes) (Session.write start bytes) :=
  .changeMemory fun _ _ h => LinearMemory.pages_of_write h

/-- Lending is asking, with a range of the memory read before and written afterwards. -/
theorem lend {start length : UInt32}
    {f : StateKey → Vector UInt8 length.toNat → StateM ω (Int32 × Vector UInt8 length.toNat)}
    {f' : StateKey → Vector UInt8 length.toNat → StateM ω' (Int32 × Vector UInt8 length.toNat)}
    (hf : ∀ buffer, Steps host host' allowed (callback fun key => f key buffer)
      (callback fun key => f' key buffer)) :
    Steps host host' allowed (Session.lend start length f) (Session.lend start length f') := by
  apply Steps.get
  intro c world
  apply Steps.bind (Steps.trap (c.memory.sliceVector start.toNat length.toNat))
  intro buffer
  apply Steps.bind (hf buffer)
  rintro ⟨result, contents⟩
  apply Steps.bind (Steps.write start contents.toList)
  intro _
  exact .pure result

/-- A refusal that hangs on a condition, and what comes after it otherwise. -/
theorem refuse {condition : Prop} [Decidable condition] (e : Fault) {f : Unit → Session ω α}
    {f' : Unit → Session ω' α} (h : Steps host host' allowed (f ()) (f' ())) :
    Steps host host' allowed (if condition then MonadExcept.throw e >>= f else f ())
      (if condition then MonadExcept.throw e >>= f' else f' ()) := by
  split_ifs
  · exact .bind (.throw e) fun _ => h
  · exact h

end Steps

/-! ## §4 What steps leave alone -/

/-- A relation between a context and what becomes of it, kept by everything that steps do: they
change bytes of the memory, but not its size, and the console, and they let the host answer. -/
structure Frame (host : Host ω) (allowed : Callback → Prop)
    (M : Context ω → Context ω → Prop) : Prop where
  refl : ∀ c, M c c
  trans : ∀ c₁ c₂ c₃, M c₁ c₂ → M c₂ c₃ → M c₁ c₃
  memory : ∀ c m, m.pages = c.memory.pages → M c { c with memory := m }
  console : ∀ c text, M c { c with console := text }
  answer : ∀ c q, allowed q →
    M c { c with world := (host.answer c.invocation.stateKey q c.world).2 }

/-- Sessions keep the relations that steps keep. -/
theorem Steps.frame {host : Host ω} {host' : Host ω'} {allowed : Callback → Prop}
    {x : Session ω α} {x' : Session ω' α} (h : Steps host host' allowed x x')
    {M : Context ω → Context ω → Prop} (hM : Frame host allowed M) (world : ω') (c : Context ω) :
    M c (x.exec c).2 := by
  induction h generalizing c with
  | pure a => exact hM.refl c
  | throw e => exact hM.refl c
  | @bind α β x x' f f' _ _ ihx ihf =>
    have hfirst := ihx c
    rw [exec_bind]
    generalize x.exec c = outcome at hfirst ⊢
    obtain ⟨r, c'⟩ := outcome
    cases r with
    | ok a => exact hM.trans _ _ _ hfirst (ihf a c')
    | error e => exact hfirst
  | get _ ih => exact ih c world c
  | @changeMemory f hf =>
    cases hm : f c.memory with
    | ok m =>
      rw [exec_changeMemory_ok hm]
      exact hM.memory c m (hf c.memory m hm)
    | error t =>
      rw [exec_changeMemory_error hm]
      exact hM.refl c
  | print text => exact hM.console c _
  | ask q hq => exact hM.answer c q hq
  | sha256 data => exact hM.refl c

/-! ## §5 Sessions that cannot tell hosts apart -/

/-- Two sessions with one outcome in contexts that differ in related worlds only, and that leave such
contexts, unless the first one spoils its world. -/
def Related (K : Comparison ω ω') (x : Session ω α) (x' : Session ω' α) : Prop :=
  ∀ c world, K.related c.world world → ¬K.spoiled (x.exec c).2.world →
    ∃ world', K.related (x.exec c).2.world world' ∧
      x'.exec (c.withWorld world) = ((x.exec c).1, (x.exec c).2.withWorld world')

/-- A session that leaves a spoiled world spoiled. -/
def Spoils (K : Comparison ω ω') (x : Session ω α) : Prop :=
  ∀ c, K.spoiled c.world → K.spoiled (x.exec c).2.world

variable {K : Comparison ω ω'}

theorem Steps.spoils {host : Host ω} {host' : Host ω'} {allowed : Callback → Prop}
    {x : Session ω α} {x' : Session ω' α} (h : Steps host host' allowed x x')
    (hK : Host.Alike K host host') (world : ω') : Spoils K x := by
  have hframe : Frame host allowed fun c c' => K.spoiled c.world → K.spoiled c'.world :=
    { refl := fun _ hc => hc
      trans := fun _ _ _ h₁ h₂ hc => h₂ (h₁ hc)
      memory := fun _ _ _ hc => hc
      console := fun _ _ hc => hc
      answer := fun _ _ _ hc => hK.spoils _ _ _ hc }
  exact fun c => h.frame hframe world c

namespace Related

/-- A session that does the same to both contexts, whatever their worlds are. -/
theorem of_exec {x : Session ω α} {x' : Session ω' α}
    (h : ∀ c world, (x.exec c).2.world = c.world ∧
      x'.exec (c.withWorld world) = ((x.exec c).1, (x.exec c).2.withWorld world)) :
    Related K x x' := by
  intro c world hworld _
  obtain ⟨hsame, hexec⟩ := h c world
  exact ⟨world, hsame ▸ hworld, hexec⟩

theorem bind {x : Session ω α} {x' : Session ω' α} {f : α → Session ω β} {f' : α → Session ω' β}
    (hx : Related K x x') (hf : ∀ a, Related K (f a) (f' a))
    (hspoils : ∀ (_ : ω') a, Spoils K (f a)) :
    Related K (x >>= f) (x' >>= f') := by
  intro c world hworld hclean
  have hfirst := hx c world hworld
  rw [exec_bind] at hclean ⊢
  rw [exec_bind]
  generalize x.exec c = outcome at hclean hfirst ⊢
  obtain ⟨r, c'⟩ := outcome
  cases r with
  | ok a =>
    obtain ⟨middle, hmiddle, hx'⟩ := hfirst fun hspoiled => hclean (hspoils world a c' hspoiled)
    rw [hx']
    exact hf a c' middle hmiddle hclean
  | error e =>
    obtain ⟨middle, hmiddle, hx'⟩ := hfirst hclean
    rw [hx']
    exact ⟨middle, hmiddle, rfl⟩

theorem get {f : Context ω → Session ω α} {f' : Context ω' → Session ω' α}
    (hf : ∀ c world, Related K (f c) (f' (c.withWorld world))) :
    Related K (MonadState.get >>= f) (MonadState.get >>= f') :=
  fun c world hworld => hf c world c world hworld

theorem changeMemory (f : LinearMemory → Except Trap LinearMemory) :
    Related K (Session.changeMemory f) (Session.changeMemory f) := by
  apply of_exec
  intro c world
  cases hm : f c.memory with
  | ok m =>
    rw [exec_changeMemory_ok hm]
    exact ⟨rfl, exec_changeMemory_ok hm⟩
  | error t =>
    rw [exec_changeMemory_error hm]
    exact ⟨rfl, exec_changeMemory_error hm⟩

theorem callback {f : StateKey → StateM ω α} {f' : StateKey → StateM ω' α}
    (hf : ∀ key, K.Keeps (f key) (f' key)) :
    Related K (Session.callback f) (Session.callback f') := by
  intro c world hworld hclean
  obtain ⟨hsame, hafter⟩ := hf c.invocation.stateKey c.world world hworld hclean
  refine ⟨_, hafter, ?_⟩
  rw [exec_callback, exec_callback]
  exact Prod.ext (congrArg Except.ok hsame.symm) rfl

end Related

theorem Steps.related {host : Host ω} {host' : Host ω'} {allowed : Callback → Prop}
    {x : Session ω α} {x' : Session ω' α} (h : Steps host host' allowed x x')
    (hK : Host.Alike K host host') : Related K x x' := by
  induction h with
  | pure a => exact .of_exec fun _ _ => ⟨rfl, rfl⟩
  | throw e => exact .of_exec fun _ _ => ⟨rfl, rfl⟩
  | bind _ hf ihx ihf => exact .bind ihx ihf fun world a => (hf a).spoils hK world
  | get _ ih => exact .get ih
  | @changeMemory f _ => exact .changeMemory f
  | print text => exact .of_exec fun _ _ => ⟨rfl, rfl⟩
  | ask q _ => exact .callback fun key => hK.answer key q
  | sha256 data =>
    intro c world hworld _
    refine ⟨world, hworld, ?_⟩
    exact Prod.ext (congrArg Except.ok (hK.sha256 c.world world data hworld).symm) rfl

end Session

end MeteredWasm
