import Mathlib.Data.List.Forall2

/-!
# Computations that may be refused

When a sequence of checks succeeds, every one of them does. These equivalences open the checks of
the library without unfolding how they are chained.
-/

namespace MeteredWasm

variable {α β ε : Type}

namespace Except

theorem bind_eq_ok {x : Except ε α} {f : α → Except ε β} {b : β} :
    (x >>= f) = .ok b ↔ ∃ a, x = .ok a ∧ f a = .ok b := by
  cases x with
  | error e => simp [bind, Except.bind]
  | ok a => simp [bind, Except.bind]

theorem bind_eq_error {x : Except ε α} {f : α → Except ε β} {e : ε} :
    (x >>= f) = .error e ↔ x = .error e ∨ ∃ a, x = .ok a ∧ f a = .error e := by
  cases x with
  | error e => simp [bind, Except.bind]
  | ok a => simp [bind, Except.bind]

theorem pure_eq_ok {a b : α} : (pure a : Except ε α) = .ok b ↔ a = b := by
  simp [pure, Except.pure]

theorem map_eq_ok {x : Except ε α} {f : α → β} {b : β} :
    f <$> x = .ok b ↔ ∃ a, x = .ok a ∧ f a = b := by
  cases x with
  | error e => simp [Functor.map, Except.map]
  | ok a => simp [Functor.map, Except.map]

theorem fails_iff {x : Except ε α} : (∃ e, x = .error e) ↔ ¬∃ a, x = .ok a := by
  cases x <;> simp

end Except

namespace Run

variable {σ : Type} {s s' : σ}

/-- A sequence succeeds when both parts do, the second from where the first left off. -/
theorem bind_eq_ok {x : StateT σ (Except ε) α} {f : α → StateT σ (Except ε) β} {b : β} :
    (x >>= f).run s = .ok (b, s') ↔
      ∃ a t, x.run s = .ok (a, t) ∧ (f a).run t = .ok (b, s') := by
  rw [StateT.run_bind]
  cases hx : x.run s with
  | error e => simp [bind, Except.bind]
  | ok r =>
    obtain ⟨a, t⟩ := r
    simp [bind, Except.bind]

theorem pure_eq_ok {a b : α} :
    (pure a : StateT σ (Except ε) α).run s = .ok (b, s') ↔ a = b ∧ s = s' := by
  rw [StateT.run_pure]
  simp [pure, Except.pure]

theorem map_eq_ok {x : StateT σ (Except ε) α} {f : α → β} {b : β} :
    (f <$> x).run s = .ok (b, s') ↔ ∃ a, x.run s = .ok (a, s') ∧ f a = b := by
  rw [← bind_pure_comp, bind_eq_ok]
  simp only [pure_eq_ok]
  constructor
  · rintro ⟨a, t, hx, rfl, rfl⟩
    exact ⟨a, hx, rfl⟩
  · rintro ⟨a, hx, rfl⟩
    exact ⟨a, s', hx, rfl, rfl⟩

theorem get_eq_ok {a : σ} :
    (get : StateT σ (Except ε) σ).run s = .ok (a, s') ↔ a = s ∧ s = s' := by
  rw [StateT.run_get]
  simp [pure, Except.pure, eq_comm]

end Run

/-- A check of all items succeeds when it does so on each. -/
theorem forM_eq_ok {as : List α} {check : α → Except ε Unit} {u : Unit} :
    forM as check = .ok u ↔ ∀ a ∈ as, check a = .ok () := by
  induction as with
  | nil => simp [Except.pure_eq_ok]
  | cons a as ih =>
    simp only [List.forM_cons, Except.bind_eq_ok, ih, List.forall_mem_cons]
    constructor
    · rintro ⟨_, ha, has⟩
      exact ⟨ha, has⟩
    · rintro ⟨ha, has⟩
      exact ⟨(), ha, has⟩

/-- What every step keeps, a loop keeps. -/
theorem foldlM_invariant {as : List α} {step : β → α → Except ε β} (Inv : β → Prop)
    (hstep : ∀ {b a b'}, step b a = .ok b' → Inv b → Inv b') {b b' : β}
    (h : as.foldlM step b = .ok b') (hb : Inv b) : Inv b' := by
  induction as generalizing b with
  | nil =>
    obtain rfl := Except.pure_eq_ok.mp h
    exact hb
  | cons a as ih =>
    rw [List.foldlM_cons] at h
    obtain ⟨next, hnext, hrest⟩ := Except.bind_eq_ok.mp h
    exact ih hrest (hstep hnext hb)

/-- A loop goes through when each item allows its step, whatever the steps before it have left. -/
theorem foldlM_succeeds_iff {as : List α} {step : β → α → Except ε β} (Inv : β → Prop)
    {Allowed : α → Prop}
    (hstep : ∀ b, ∀ a ∈ as, Inv b → ((∃ b', step b a = .ok b') ↔ Allowed a))
    (hinv : ∀ {b a b'}, step b a = .ok b' → Inv b → Inv b') {b : β} (hb : Inv b) :
    (∃ b', as.foldlM step b = .ok b') ↔ ∀ a ∈ as, Allowed a := by
  induction as generalizing b with
  | nil => simp [Except.pure_eq_ok]
  | cons a as ih =>
    have hrest {next : β} (hnext : step b a = .ok next) :=
      ih (fun b a ha => hstep b a (List.mem_cons_of_mem _ ha)) (hinv hnext hb)
    rw [List.foldlM_cons, List.forall_mem_cons, ← hstep b a List.mem_cons_self hb]
    constructor
    · rintro ⟨b', h⟩
      obtain ⟨next, hnext, h⟩ := Except.bind_eq_ok.mp h
      exact ⟨⟨next, hnext⟩, (hrest hnext).mp ⟨b', h⟩⟩
    · rintro ⟨⟨next, hnext⟩, hall⟩
      obtain ⟨b', h⟩ := (hrest hnext).mpr hall
      exact ⟨b', Except.bind_eq_ok.mpr ⟨next, hnext, h⟩⟩

/-- All items are converted when each of them is. -/
theorem mapM_eq_ok {as : List α} {bs : List β} {f : α → Except ε β} :
    as.mapM f = .ok bs ↔ List.Forall₂ (fun a b => f a = .ok b) as bs := by
  induction as generalizing bs with
  | nil =>
    rw [List.mapM_nil, Except.pure_eq_ok, List.forall₂_nil_left_iff, eq_comm]
  | cons a as ih =>
    simp only [List.mapM_cons, Except.bind_eq_ok, Except.pure_eq_ok, ih]
    constructor
    · rintro ⟨b, hb, bs', hbs, rfl⟩
      exact .cons hb hbs
    · intro h
      cases h with
      | cons hb hbs => exact ⟨_, hb, _, hbs, rfl⟩

/-- A conversion that fails does so at one of the items. -/
theorem mapM_eq_error {as : List α} {f : α → Except ε β} {e : ε} (h : as.mapM f = .error e) :
    ∃ a ∈ as, f a = .error e := by
  induction as with
  | nil => cases h
  | cons a as ih =>
    rw [List.mapM_cons] at h
    rcases Except.bind_eq_error.mp h with hfirst | ⟨b, -, h⟩
    · exact ⟨a, List.mem_cons_self, hfirst⟩
    · rcases Except.bind_eq_error.mp h with hrest | ⟨bs, -, hpure⟩
      · obtain ⟨a', ha', hfails⟩ := ih hrest
        exact ⟨a', List.mem_cons_of_mem a ha', hfails⟩
      · cases hpure

theorem mapM_eq_some {as : List α} {bs : List β} {f : α → Option β} :
    as.mapM f = some bs ↔ List.Forall₂ (fun a b => f a = some b) as bs := by
  induction as generalizing bs with
  | nil => simp [eq_comm]
  | cons a as ih =>
    simp only [List.mapM_cons, Option.bind_eq_bind, Option.bind_eq_some_iff, ih]
    constructor
    · rintro ⟨b, hb, bs', hbs, hcons⟩
      cases hcons
      exact .cons hb hbs
    · intro h
      cases h with
      | cons hb hbs => exact ⟨_, hb, _, hbs, rfl⟩

/-- Whatever stands in the second of two matching lists has its match in the first. -/
theorem exists_mem_left {R : α → β → Prop} {as : List α} {bs : List β} (h : List.Forall₂ R as bs)
    {b : β} (hb : b ∈ bs) : ∃ a ∈ as, R a b := by
  induction h with
  | nil => cases hb
  | cons hab _ ih =>
    rcases List.mem_cons.mp hb with rfl | hmem
    · exact ⟨_, List.mem_cons_self, hab⟩
    · obtain ⟨a, ha, hR⟩ := ih hmem
      exact ⟨a, List.mem_cons_of_mem _ ha, hR⟩

theorem exists_mem_right {R : α → β → Prop} {as : List α} {bs : List β} (h : List.Forall₂ R as bs)
    {a : α} (ha : a ∈ as) : ∃ b ∈ bs, R a b :=
  exists_mem_left h.flip ha

/-- What a list has at a place, every longer list has there as well. -/
theorem getElem?_of_prefix {as bs : List α} (h : as <+: bs) {index : Nat} {a : α}
    (ha : as[index]? = some a) : bs[index]? = some a := by
  obtain ⟨hlt, rfl⟩ := List.getElem?_eq_some_iff.mp ha
  exact List.prefix_iff_getElem?.mp h index hlt

/-- Two lists of one length, joined item by item: the result matches the first. -/
theorem forall₂_zipWith_left {γ : Type} {f : α → β → γ} {R : α → γ → Prop} {as : List α}
    {bs : List β} (hlength : as.length = bs.length) (hf : ∀ a b, R a (f a b)) :
    List.Forall₂ R as (as.zipWith f bs) := by
  induction as generalizing bs with
  | nil => exact .nil
  | cons a as ih =>
    cases bs with
    | nil => simp at hlength
    | cons b bs => exact .cons (hf a b) (ih (by simpa using hlength))

/-- Two lists of one length, joined item by item: the result matches the second. -/
theorem forall₂_zipWith_right {γ : Type} {f : α → β → γ} {R : β → γ → Prop} {as : List α}
    {bs : List β} (hlength : as.length = bs.length) (hf : ∀ a b, R b (f a b)) :
    List.Forall₂ R bs (as.zipWith f bs) := by
  rw [List.zipWith_comm]
  exact forall₂_zipWith_left hlength.symm fun b a => hf a b

end MeteredWasm
