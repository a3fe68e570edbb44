import MeteredWasm.Proofs.Sandbox.Isolation

/-!
# Isolation from history

Requests come to a sandbox one after another, and each leaves it with modules in its cache and
memories in its pool. None of that matters to the next one: it is served as by a fresh sandbox, in
whatever can be observed of it, unless two codes that were run have the same digest.
-/

namespace MeteredWasm

open Wasm (Value)

variable {σ τ Inst : Type}

/-! ## §1 Requests -/

/-- A request to run a contract, with the embedder around it and the state that it is in. Runs that
are nested more deeply than `nesting` are left to the embedder. -/
structure Request (σ : Type) where
  embedder : Embedder σ
  state : σ
  invocation : Invocation
  gas : Nat
  nesting : Nat

namespace Request

/-- Serve a request on a sandbox. -/
def run (r : Request σ) (m : Machine Inst) (sandbox : Sandbox Inst) :
    Execution × World σ Inst :=
  r.embedder.run m .plain (r.nesting + 1) r.invocation r.gas ⟨r.state, sandbox⟩

/-- Serve a request, and note everything down that happens. -/
def noted (r : Request σ) (m : Machine Inst) (sandbox : Sandbox Inst) :
    Execution × World (σ × List Event) Inst :=
  r.embedder.run m .full (r.nesting + 1) r.invocation r.gas ⟨(r.state, []), sandbox⟩

/-- What happens while a request is served. -/
def events (r : Request σ) (m : Machine Inst) (sandbox : Sandbox Inst) : List Event :=
  (r.noted m sandbox).2.outside.2

/-- What a sandbox has become when it has served some requests. -/
def serve (m : Machine Inst) : List (Request σ) → Sandbox Inst → Sandbox Inst
  | [], sandbox => sandbox
  | r :: rest, sandbox => serve m rest (r.run m sandbox).2.sandbox

/-- The codes that were run meanwhile, with their digests. -/
def served (m : Machine Inst) : List (Request σ) → Sandbox Inst → List Use
  | [], _ => []
  | r :: rest, sandbox => uses (r.events m sandbox) ++ served m rest (r.run m sandbox).2.sandbox

theorem served_append (m : Machine Inst) (past next : List (Request σ)) (sandbox : Sandbox Inst) :
    served m (past ++ next) sandbox =
      served m past sandbox ++ served m next (serve m past sandbox) := by
  induction past generalizing sandbox with
  | nil => rfl
  | cons r rest ih =>
    rw [List.cons_append, served, served, ih, List.append_assoc]
    rfl

/-! ## §2 One request and many -/

section Invariant

variable {m : Machine Inst} {config : Config} {earlier : List Use} {sandbox : Sandbox Inst}
  {ρ : σ × List Event → τ → Prop} {k : Notebook σ τ}

/-- A request is served alike on two sandboxes that are faithful. -/
theorem noted_keeps (r : Request σ) (hk : k.Mirrors ρ) {sandbox' : Sandbox Inst}
    (h : sandbox.Faithful m config earlier) (h' : sandbox'.Faithful m config earlier)
    (hfree : CollisionFree (earlier ++ uses (r.events m sandbox))) {t : τ}
    (ht : ρ (r.state, []) t) :
    let ran := r.embedder.run m k (r.nesting + 1) r.invocation r.gas ⟨t, sandbox'⟩
    (r.noted m sandbox).1 = ran.1 ∧
      (isolation m config earlier ρ).related (r.noted m sandbox).2 ran.2 := by
  have hstart : (isolation m config earlier ρ).related ⟨(r.state, []), sandbox⟩ ⟨t, sandbox'⟩ :=
    ⟨ht, h.subset fun _ huse => List.mem_append_left _ huse,
      h'.subset fun _ huse => List.mem_append_left _ huse⟩
  exact (run_alike hk r.embedder _).keeps _ _ _ _ hstart (Classical.not_not.mpr hfree)

/-- Taking notes makes no difference, and a request leaves a faithful sandbox behind. -/
theorem run_noted (r : Request σ) {sandbox' : Sandbox Inst}
    (h : sandbox.Faithful m config earlier) (h' : sandbox'.Faithful m config earlier)
    (hfree : CollisionFree (earlier ++ uses (r.events m sandbox))) :
    (r.noted m sandbox).1 = (r.run m sandbox').1 ∧
      (r.noted m sandbox).2.outside.1 = (r.run m sandbox').2.outside ∧
      (r.run m sandbox').2.sandbox.Faithful m config (earlier ++ uses (r.events m sandbox)) := by
  obtain ⟨hsame, houtside, _, hfaithful⟩ := r.noted_keeps Notebook.mirrors_plain h h' hfree rfl
  exact ⟨hsame, houtside, hfaithful⟩

/-- A faithful sandbox is still faithful when it has served some requests. -/
theorem serve_faithful (past : List (Request σ)) (h : sandbox.Faithful m config earlier)
    (hfree : CollisionFree (earlier ++ served m past sandbox)) :
    (serve m past sandbox).Faithful m config (earlier ++ served m past sandbox) := by
  induction past generalizing sandbox earlier with
  | nil => exact h.subset fun _ huse => List.mem_append_left _ huse
  | cons r rest ih =>
    -- the codes of the first request count as used earlier by the others
    rw [served, ← List.append_assoc] at hfree ⊢
    have hfirst := hfree.subset fun _ huse => List.mem_append_left _ huse
    exact ih (r.run_noted h h hfirst).2.2 hfree

end Invariant

/-! ## §3 The next request -/

/-- The next request is served as on a fresh sandbox, whatever came before it: its result, its
console and the gas that is left are the same, so is the state in which it leaves the embedder, and
so is everything that happens meanwhile, in every contract that it runs: what the contract sees on
entry and after each intrinsic, its memory included, and what it asks the host. -/
theorem run_isolated (m : Machine Inst) (config : Config) (past : List (Request σ))
    (r : Request σ) (hfree : CollisionFree (served m (past ++ [r]) (.fresh config))) :
    let used := serve m past (.fresh config)
    (r.run m used).1 = (r.run m (.fresh config)).1 ∧
      (r.run m used).2.outside = (r.run m (.fresh config)).2.outside ∧
      r.events m used = r.events m (.fresh config) := by
  intro used
  rw [served_append, served, served, List.append_nil] at hfree
  have hpast := hfree.subset fun _ huse => List.mem_append_left _ huse
  have hused := serve_faithful past (Sandbox.Faithful.fresh m config []) hpast
  rw [List.nil_append] at hused
  have hfresh := Sandbox.Faithful.fresh m config (served m past (.fresh config))
  -- three runs in step with the noted one on the used sandbox
  obtain ⟨hrun, houtside, _⟩ := r.run_noted hused hused hfree
  obtain ⟨hrun', houtside', _⟩ := r.run_noted hused hfresh hfree
  obtain ⟨_, hnoted, _⟩ := r.noted_keeps Notebook.mirrors_full hused hfresh hfree rfl
  exact ⟨hrun.symm.trans hrun', houtside.symm.trans houtside', congrArg Prod.snd hnoted⟩

/-! ## §4 Hosts with good digests -/

/-- A request all of whose runs are of certain codes, with digests that do not change. -/
structure Confined (C : List UInt8 → Prop) (hash : List UInt8 → Digest) (r : Request σ) :
    Prop where
  code : C r.invocation.code
  runs : ∀ key q s, (r.embedder.react key q s).Runs C
  sha256 : ∀ s code, C code → r.embedder.sha256 s code = hash code

variable {C : List UInt8 → Prop} {hash : List UInt8 → Digest}

theorem Confined.mem_uses {r : Request σ} (h : r.Confined C hash) (m : Machine Inst)
    (sandbox : Sandbox Inst) :
    ∀ use ∈ uses (r.events m sandbox), C use.2 ∧ use.1 = hash use.2 := by
  let M := fun w w' : World (σ × List Event) Inst =>
    ∀ use ∈ uses w'.outside.2,
      use ∈ uses w.outside.2 ∨ C use.2 ∧ use.1 = hash use.2
  have hM : Notebook.full.Frame (fun use => C use.2 ∧ use.1 = hash use.2) M :=
    { refl := fun _ _ huse => .inl huse
      trans := by
        intro w₁ w₂ w₃ h₁ h₂ use huse
        exact (h₂ use huse).elim (h₁ use) .inr
      sandbox := fun _ _ _ huse => .inl huse
      update := fun _ _ _ huse => .inl huse
      note := by
        intro w event hevent use huse
        rw [World.note, Notebook.full, uses_append] at huse
        refine (List.mem_append.mp huse).imp_right fun hnew => ?_
        cases event with
        | ran i gas digest =>
          rw [List.mem_singleton.mp hnew]
          exact hevent
        | _ => cases hnew }
  have hframe := Embedder.run_frame hM m h.runs (fun s code hcode => ⟨hcode, h.sha256 s code hcode⟩)
    (r.nesting + 1) r.invocation r.gas ⟨(r.state, []), sandbox⟩ h.code
  exact fun use huse => (hframe use huse).resolve_left (List.not_mem_nil)

/-- Confined requests use codes with different digests, if only the digests of the codes that they
are confined to are different. -/
theorem collisionFree_of_confined (hhash : ∀ code code', C code → C code' →
    hash code = hash code' → code = code') {requests : List (Request σ)}
    (h : ∀ r ∈ requests, r.Confined C hash) (m : Machine Inst) (sandbox : Sandbox Inst) :
    CollisionFree (served m requests sandbox) := by
  have huses : ∀ use ∈ served m requests sandbox, C use.2 ∧ use.1 = hash use.2 := by
    induction requests generalizing sandbox with
    | nil => exact fun _ huse => nomatch huse
    | cons r rest ih =>
      intro use huse
      rcases List.mem_append.mp huse with hfirst | hrest
      · exact (h r List.mem_cons_self).mem_uses m sandbox use hfirst
      · exact ih (fun r hr => h r (List.mem_cons_of_mem _ hr)) _ use hrest
  intro a ha b hb hab
  obtain ⟨hcode, hdigest⟩ := huses a ha
  obtain ⟨hcode', hdigest'⟩ := huses b hb
  exact hhash _ _ hcode hcode' (hdigest.symm.trans (hab.trans hdigest'))

/-! ## §5 A contract that calls others -/

/-- A module without functions. -/
def emptyContract : List UInt8 :=
  [0x00, 0x61, 0x73, 0x6D, 0x01, 0x00, 0x00, 0x00]

/-- A module with a memory of one page and an entry point. -/
def entryContract : List UInt8 :=
  [0x00, 0x61, 0x73, 0x6D, 0x01, 0x00, 0x00, 0x00, 0x01, 0x05, 0x01, 0x60, 0x01, 0x7E, 0x00, 0x03,
   0x02, 0x01, 0x00, 0x05, 0x04, 0x01, 0x01, 0x01, 0x01, 0x07, 0x09, 0x01, 0x05, 0x61, 0x70, 0x70,
   0x6C, 0x79, 0x00, 0x00, 0x0A, 0x04, 0x01, 0x02, 0x00, 0x0B]

/-- Every function prints the start of its memory, overwrites it, calls a contract and exits. -/
def forwarder : Machine Unit where
  instantiate _ _ := .ok ()
  invoke _ _ _ view :=
    .call view (.console .hex) [.i32 0, .i32 8] fun _ view =>
      let marked := (view.memory.fill 0 1 32).toOption.getD view.memory
      .call { view with memory := marked } (.action .call)
        [.i32 0, .i32 20, .i32 0, .i32 8, .i64 0, .i32 0, .i32 0] fun _ view =>
        .done view (.error (.exit 0))

/-- An answer to every question. -/
def idleAnswer : (q : Callback) → q.Answer
  | .store .. | .removeKey .. | .removeTable .. | .log .. | .transfer .. => ()
  | @Callback.load _ _ _ buffer | @Callback.callResult _ buffer => (-1, buffer)
  | .hasKey .. | .hasTable .. => false
  | .time | .height => (0 : UInt64)
  | .hashes => (default, default)
  | .call .. | .setResult .. => (0 : Int32)

/-- An embedder that runs the same code for every call, and counts the calls. -/
def relay : Embedder Nat where
  react key
    | .call nested, calls =>
      .run (calls + 1) ⟨entryContract, nested.payload, default, default, default, default, 0, key,
        nested.depth⟩ 150 fun execution calls => .answer (Int32.ofNat execution.status) calls
    | q, calls => .answer (idleAnswer q) calls
  sha256 _ := Crypto.Sha256.digest
  beyond _ gas calls := (⟨.error .aborted, "", gas⟩, calls)

/-- A request to the relay, with some code and the payload of an action. -/
def relayed (code : List UInt8) : Request Nat :=
  ⟨relay, 0, ⟨code, List.replicate 8 0, default, default, default, default, 0, ⟨1⟩, 0⟩, 250, 2⟩

theorem relayed_confined {code : List UInt8} (h : code ∈ [emptyContract, entryContract]) :
    (relayed code).Confined (fun code => code ∈ [emptyContract, entryContract])
      Crypto.Sha256.digest where
  code := h
  runs key q calls := by
    cases q with
    | call nested => exact ⟨List.mem_of_elem_eq_true rfl, fun _ _ => trivial⟩
    | _ => trivial
  sha256 _ _ _ := rfl

/-- After a module that does nothing, one whose calls are nested, and the latter again. -/
theorem run_isolated_relayed :
    let past := [relayed emptyContract, relayed entryContract]
    let used := serve forwarder past (.fresh {})
    let next := relayed entryContract
    CollisionFree (served forwarder (past ++ [next]) (.fresh {})) ∧
      (next.run forwarder used).1 = (next.run forwarder (.fresh {})).1 ∧
      next.events forwarder used = next.events forwarder (.fresh {}) := by
  intro past used next
  have hdigests : Crypto.Sha256.digest emptyContract ≠ Crypto.Sha256.digest entryContract := by
    decide +kernel
  have hinjective : ∀ code code', code ∈ [emptyContract, entryContract] →
      code' ∈ [emptyContract, entryContract] →
      Crypto.Sha256.digest code = Crypto.Sha256.digest code' → code = code' := by
    simp only [List.mem_cons, List.not_mem_nil, or_false]
    rintro _ _ (rfl | rfl) (rfl | rfl) h
    · rfl
    · exact absurd h hdigests
    · exact absurd h.symm hdigests
    · rfl
  have hconfined : ∀ r ∈ past ++ [next],
      r.Confined (fun code => code ∈ [emptyContract, entryContract]) Crypto.Sha256.digest := by
    simp only [past, next, List.cons_append, List.nil_append, List.forall_mem_cons]
    exact ⟨relayed_confined (by simp), relayed_confined (by simp), relayed_confined (by simp), nofun⟩
  have hfree := collisionFree_of_confined hinjective hconfined forwarder (.fresh {})
  obtain ⟨hrun, _, hevents⟩ := run_isolated forwarder {} past next hfree
  exact ⟨hfree, hrun, hevents⟩

end Request

end MeteredWasm
