import Mathlib

/-!
# Routines over an interface

A routine that talks to the rest of the program only through a fixed interface
(a list of operations with typed responses) is a tree: at each node it performs
one operation and continues with the response.  `Prog S ε α` is the type of such
trees, with failures in `ε` and results in `α`.  One and the same routine can
then be run against several implementations of the interface, and facts that
relate two implementations are proved once, by induction on the tree, instead
of once per routine.

## Key results

- `run_bind`: running a sequence runs its parts
- `wp_bind`, `wp_mono`, `wp_run`: weakest preconditions of routines, with an
  obligation `pre` at every operation and a set `tol` of tolerated failures
- `wpUnder_bind`, `wp_of_wpUnder`: weakest preconditions under assumptions
- `fold_bind`, `fold_mono`: the demonic fold of a guard over all responses
- `run_simulates`: operation-wise simulation of one implementation by another
  lifts to routines, for a relation that spends a budget as operations are made
- `run_simulates_error`: and so do failures
- `Extends.run`, `Extends.cost`: a routine that is given more fuel
- `Uses.bind`, `Uses.run`: what a set of operations preserves, a routine that performs no others does
- `wpCost_bind`: weakest preconditions that also count what a routine costs
-/

namespace Free

/-- An interface: operations and the type each one answers with. -/
structure Sig where
  Op : Type
  Resp : Op → Type

/-- A routine over the interface `S`, failing with `ε`, returning `α`. -/
inductive Prog (S : Sig) (ε α : Type) where
  | pure (a : α)
  | throw (e : ε)
  | call (o : S.Op) (k : S.Resp o → Prog S ε α)

variable {S : Sig} {ε α β σ τ : Type}

namespace Prog

protected def bind : Prog S ε α → (α → Prog S ε β) → Prog S ε β
  | .pure a, f => f a
  | .throw e, _ => .throw e
  | .call o k, f => .call o fun r => (k r).bind f

instance : Monad (Prog S ε) where
  pure := .pure
  bind := .bind

/-- Perform one operation and return its response. -/
def op (o : S.Op) : Prog S ε (S.Resp o) := .call o .pure

/-- Fail with `e` unless there is a value. -/
def ofOption (e : ε) : Option α → Prog S ε α
  | some a => .pure a
  | none => .throw e

theorem bind_pure' (p : Prog S ε α) : p.bind .pure = p := by
  induction p with
  | pure a => rfl
  | throw e => rfl
  | call o k ih => simp only [Prog.bind, ih]

theorem bind_assoc' {γ : Type} (p : Prog S ε α) (f : α → Prog S ε β) (g : β → Prog S ε γ) :
    (p.bind f).bind g = p.bind fun a => (f a).bind g := by
  induction p with
  | pure a => rfl
  | throw e => rfl
  | call o k ih => simp only [Prog.bind, ih]

instance : LawfulMonad (Prog S ε) :=
  LawfulMonad.mk' _ (fun p => bind_pure' p) (fun _ _ => rfl) bind_assoc'

end Prog

/-- An implementation of the interface over a state `σ`. -/
abbrev Handler (S : Sig) (ε σ : Type) := (o : S.Op) → σ → Except ε (S.Resp o × σ)

/-! ## Running a routine -/

/-- Run a routine against an implementation. -/
def run (h : Handler S ε σ) : Prog S ε α → σ → Except ε (α × σ)
  | .pure a, s => .ok (a, s)
  | .throw e, _ => .error e
  | .call o k, s =>
    match h o s with
    | .ok (r, s') => run h (k r) s'
    | .error e => .error e

@[simp] theorem run_pure (h : Handler S ε σ) (a : α) (s : σ) :
    run h (pure a : Prog S ε α) s = .ok (a, s) := rfl

theorem run_bind (h : Handler S ε σ) (p : Prog S ε α) (f : α → Prog S ε β) (s : σ) :
    run h (p >>= f) s =
      match run h p s with
      | .ok (a, s') => run h (f a) s'
      | .error e => .error e := by
  show run h (p.bind f) s = _
  induction p generalizing s with
  | pure a => rfl
  | throw e => rfl
  | call o k ih =>
    simp only [Prog.bind, run]
    cases h o s with
    | error e => rfl
    | ok rs => exact ih rs.1 rs.2

/-- How often a run performs operations, each counted with its weight. -/
def cost (h : Handler S ε σ) (c : S.Op → Nat) : Prog S ε α → σ → Nat
  | .pure _, _ => 0
  | .throw _, _ => 0
  | .call o k, s =>
    match h o s with
    | .ok (r, s') => c o + cost h c (k r) s'
    | .error _ => c o

theorem cost_bind (h : Handler S ε σ) (c : S.Op → Nat) (p : Prog S ε α)
    (f : α → Prog S ε β) (s : σ) :
    cost h c (p >>= f) s = cost h c p s +
      match run h p s with
      | .ok (a, s') => cost h c (f a) s'
      | .error _ => 0 := by
  show cost h c (p.bind f) s = _
  induction p generalizing s with
  | pure a => simp [Prog.bind, cost, run]
  | throw e => rfl
  | call o k ih =>
    simp only [Prog.bind, cost, run]
    cases h o s with
    | error e => rfl
    | ok rs =>
      dsimp only
      rw [ih rs.1 rs.2, Nat.add_assoc]

/-- The observations a run makes: `view` picks the operations to observe, and
    each is reported with the state it was made in. -/
def events {E : Type} (h : Handler S ε σ) (view : S.Op → Option E) :
    Prog S ε α → σ → List (E × σ)
  | .pure _, _ => []
  | .throw _, _ => []
  | .call o k, s =>
    (view o).toList.map (fun e => (e, s)) ++
      match h o s with
      | .ok (r, s') => events h view (k r) s'
      | .error _ => []

/-- The property `I` holds in the state a run starts from and after every operation
    it makes. -/
def Always (h : Handler S ε σ) (I : σ → Prop) : Prog S ε α → σ → Prop
  | .pure _, s => I s
  | .throw _, s => I s
  | .call o k, s => I s ∧
    match h o s with
    | .ok (r, s') => Always h I (k r) s'
    | .error _ => True

theorem Always.mono {h : Handler S ε σ} {I J : σ → Prop} (hIJ : ∀ s, I s → J s)
    {p : Prog S ε α} {s : σ} (hp : Always h I p s) : Always h J p s := by
  induction p generalizing s with
  | pure a => exact hIJ s hp
  | throw e => exact hIJ s hp
  | call o k ih =>
    simp only [Always] at hp ⊢
    refine ⟨hIJ s hp.1, ?_⟩
    have h2 := hp.2
    cases hs : h o s with
    | error e => trivial
    | ok rs =>
      simp only [hs] at h2
      exact ih rs.1 h2

/-! ## Weakest preconditions -/

/-- `wp h pre tol p s Q`: running `p` from `s` meets `pre` at every operation and
    either fails with a tolerated failure or ends in a state satisfying `Q`. -/
def wp (h : Handler S ε σ) (pre : S.Op → σ → Prop) (tol : ε → Prop) :
    Prog S ε α → σ → (α → σ → Prop) → Prop
  | .pure a, s, Q => Q a s
  | .throw e, _, _ => tol e
  | .call o k, s, Q => pre o s ∧
    match h o s with
    | .ok (r, s') => wp h pre tol (k r) s' Q
    | .error e => tol e

section WeakestPrecondition

variable {h : Handler S ε σ} {pre : S.Op → σ → Prop} {tol : ε → Prop}

@[simp] theorem wp_pure (a : α) (s : σ) (Q : α → σ → Prop) :
    wp h pre tol (pure a : Prog S ε α) s Q ↔ Q a s := Iff.rfl

@[simp] theorem wp_throw (e : ε) (s : σ) (Q : α → σ → Prop) :
    wp h pre tol (.throw e : Prog S ε α) s Q ↔ tol e := Iff.rfl

theorem wp_mono {p : Prog S ε α} {s : σ} {Q Q' : α → σ → Prop}
    (hp : wp h pre tol p s Q) (hQ : ∀ a s', Q a s' → Q' a s') : wp h pre tol p s Q' := by
  induction p generalizing s with
  | pure a => exact hQ a s hp
  | throw e => exact hp
  | call o k ih =>
    simp only [wp] at hp ⊢
    refine ⟨hp.1, ?_⟩
    have h2 := hp.2
    cases hs : h o s with
    | error e => simpa only [hs] using h2
    | ok rs =>
      simp only [hs] at h2
      exact ih rs.1 h2

theorem wp_bind (p : Prog S ε α) (f : α → Prog S ε β) (s : σ) (Q : β → σ → Prop) :
    wp h pre tol (p >>= f) s Q ↔
      wp h pre tol p s (fun a s' => wp h pre tol (f a) s' Q) := by
  show wp h pre tol (p.bind f) s Q ↔ _
  induction p generalizing s with
  | pure a => rfl
  | throw e => rfl
  | call o k ih =>
    simp only [Prog.bind, wp]
    cases h o s with
    | error e => rfl
    | ok rs => exact and_congr_right fun _ => ih rs.1 rs.2

theorem wp_op (o : S.Op) (s : σ) (Q : S.Resp o → σ → Prop) :
    wp h pre tol (Prog.op o) s Q ↔ pre o s ∧
      (∀ r s', h o s = .ok (r, s') → Q r s') ∧ ∀ e, h o s = .error e → tol e := by
  simp only [Prog.op, wp]
  cases h o s with
  | error e => simp
  | ok rs => simp [Prod.ext_iff]

theorem wp_ofOption (e : ε) (x : Option α) (s : σ) (Q : α → σ → Prop) :
    wp h pre tol (Prog.ofOption e x) s Q ↔
      (∃ a, x = some a ∧ Q a s) ∨ (x = none ∧ tol e) := by
  cases x <;> simp [Prog.ofOption, wp]

/-- What a weakest precondition says about the run. -/
theorem wp_run {p : Prog S ε α} {s : σ} {Q : α → σ → Prop} (hp : wp h pre tol p s Q) :
    (∀ a s', run h p s = .ok (a, s') → Q a s') ∧ ∀ e, run h p s = .error e → tol e := by
  induction p generalizing s with
  | pure a =>
    refine ⟨fun b s' hr => ?_, fun e hr => nomatch hr⟩
    simp only [run, Except.ok.injEq, Prod.mk.injEq] at hr
    exact hr.1 ▸ hr.2 ▸ hp
  | throw e =>
    refine ⟨fun b s' hr => (nomatch hr), fun e' hr => ?_⟩
    simp only [run, Except.error.injEq] at hr
    exact hr ▸ hp
  | call o k ih =>
    simp only [wp] at hp
    have h2 := hp.2
    simp only [run]
    cases hs : h o s with
    | error e =>
      simp only [hs] at h2 ⊢
      exact ⟨fun b s' hr => (nomatch hr), fun e' hr => Except.error.inj hr ▸ h2⟩
    | ok rs =>
      simp only [hs] at h2 ⊢
      exact ih rs.1 h2

/-- Every observed operation met its obligation. -/
theorem wp_events {E : Type} (view : S.Op → Option E) {p : Prog S ε α} {s : σ}
    {Q : α → σ → Prop} (hp : wp h pre tol p s Q) {e : E} {s' : σ}
    (he : (e, s') ∈ events h view p s) : ∃ o, view o = some e ∧ pre o s' := by
  induction p generalizing s with
  | pure a => simp [events] at he
  | throw e => simp [events] at he
  | call o k ih =>
    simp only [wp] at hp
    simp only [events, List.mem_append, List.mem_map, Option.mem_toList, Prod.mk.injEq] at he
    rcases he with ⟨e', hv, rfl, rfl⟩ | he
    · exact ⟨o, hv, hp.1⟩
    · have h2 := hp.2
      cases hs : h o s with
      | error e => simp [hs] at he
      | ok rs =>
        simp only [hs] at h2 he
        exact ih rs.1 h2 he

/-- The converse of `wp_events`: obligations that only concern observed operations are met
    when the observations meet them, whatever the routine ends with. -/
theorem wp_of_events {E : Type} (view : S.Op → Option E) {ok : E × σ → Prop}
    (hnone : ∀ o s, view o = none → pre o s) {p : Prog S ε α} {s : σ}
    (h' : ∀ e ∈ events h view p s, ok e)
    (hsome : ∀ o e s, view o = some e → ok (e, s) → pre o s) :
    wp h pre (fun _ => True) p s fun _ _ => True := by
  induction p generalizing s with
  | pure a => trivial
  | throw e => trivial
  | call o k ih =>
    simp only [events] at h'
    simp only [wp]
    constructor
    · cases hv : view o with
      | none => exact hnone o s hv
      | some e => exact hsome o e s hv (h' (e, s) (List.mem_append_left _ (by simp [hv])))
    · cases hs : h o s with
      | error e => trivial
      | ok rs =>
        simp only [hs] at h'
        exact ih rs.1 fun e he => h' e (List.mem_append_right _ he)

/-- More failures may be tolerated. -/
theorem wp_mono_tol {tol' : ε → Prop} {p : Prog S ε α} {s : σ} {Q : α → σ → Prop}
    (hp : wp h pre tol p s Q) (htol : ∀ e, tol e → tol' e) : wp h pre tol' p s Q := by
  induction p generalizing s with
  | pure a => exact hp
  | throw e => exact htol e hp
  | call o k ih =>
    simp only [wp] at hp ⊢
    refine ⟨hp.1, ?_⟩
    have h2 := hp.2
    cases hs : h o s with
    | error e =>
      simp only [hs] at h2
      exact htol e h2
    | ok rs =>
      simp only [hs] at h2
      exact ih rs.1 h2

end WeakestPrecondition

/-! ## Assumptions -/

/-- Like `wp`, but a run that breaks the assumption `asm` at an operation owes nothing more. -/
def wpUnder (h : Handler S ε σ) (asm pre : S.Op → σ → Prop) (tol : ε → Prop) :
    Prog S ε α → σ → (α → σ → Prop) → Prop
  | .pure a, s, Q => Q a s
  | .throw e, _, _ => tol e
  | .call o k, s, Q => asm o s → pre o s ∧
    match h o s with
    | .ok (r, s') => wpUnder h asm pre tol (k r) s' Q
    | .error e => tol e

section Assumptions

variable {h : Handler S ε σ} {asm pre : S.Op → σ → Prop} {tol : ε → Prop}

theorem wpUnder_mono {p : Prog S ε α} {s : σ} {Q Q' : α → σ → Prop}
    (hp : wpUnder h asm pre tol p s Q) (hQ : ∀ a s', Q a s' → Q' a s') :
    wpUnder h asm pre tol p s Q' := by
  induction p generalizing s with
  | pure a => exact hQ a s hp
  | throw e => exact hp
  | call o k ih =>
    simp only [wpUnder] at hp ⊢
    intro hasm
    refine ⟨(hp hasm).1, ?_⟩
    have h2 := (hp hasm).2
    cases hs : h o s with
    | error e => simpa only [hs] using h2
    | ok rs =>
      simp only [hs] at h2
      exact ih rs.1 h2

theorem wpUnder_bind (p : Prog S ε α) (f : α → Prog S ε β) (s : σ) (Q : β → σ → Prop) :
    wpUnder h asm pre tol (p >>= f) s Q ↔
      wpUnder h asm pre tol p s (fun a s' => wpUnder h asm pre tol (f a) s' Q) := by
  show wpUnder h asm pre tol (p.bind f) s Q ↔ _
  induction p generalizing s with
  | pure a => rfl
  | throw e => rfl
  | call o k ih =>
    simp only [Prog.bind, wpUnder]
    cases h o s with
    | error e => rfl
    | ok rs => exact imp_congr_right fun _ => and_congr_right fun _ => ih rs.1 rs.2

/-- What holds without assumptions holds under them. -/
theorem wpUnder_of_wp {p : Prog S ε α} {s : σ} {Q : α → σ → Prop} (hp : wp h pre tol p s Q) :
    wpUnder h asm pre tol p s Q := by
  induction p generalizing s with
  | pure a => exact hp
  | throw e => exact hp
  | call o k ih =>
    simp only [wp] at hp
    simp only [wpUnder]
    intro _
    refine ⟨hp.1, ?_⟩
    have h2 := hp.2
    cases hs : h o s with
    | error e => simpa only [hs] using h2
    | ok rs =>
      simp only [hs] at h2
      exact ih rs.1 h2

/-- More failures may be tolerated. -/
theorem wpUnder_mono_tol {tol' : ε → Prop} {p : Prog S ε α} {s : σ} {Q : α → σ → Prop}
    (hp : wpUnder h asm pre tol p s Q) (htol : ∀ e, tol e → tol' e) :
    wpUnder h asm pre tol' p s Q := by
  induction p generalizing s with
  | pure a => exact hp
  | throw e => exact htol e hp
  | call o k ih =>
    simp only [wpUnder] at hp ⊢
    intro hasm
    refine ⟨(hp hasm).1, ?_⟩
    have h2 := (hp hasm).2
    cases hs : h o s with
    | error e =>
      simp only [hs] at h2
      exact htol e h2
    | ok rs =>
      simp only [hs] at h2
      exact ih rs.1 h2

/-- A run that meets the assumptions at all observed operations meets its obligations, when
    nothing is assumed of the other operations. -/
theorem wp_of_wpUnder {E : Type} (view : S.Op → Option E) {ok : E × σ → Prop}
    (hnone : ∀ o s, view o = none → asm o s) (hsome : ∀ o e s, view o = some e → ok (e, s) → asm o s)
    {p : Prog S ε α} {s : σ} {Q : α → σ → Prop} (h' : ∀ e ∈ events h view p s, ok e)
    (hp : wpUnder h asm pre tol p s Q) : wp h pre tol p s Q := by
  induction p generalizing s with
  | pure a => exact hp
  | throw e => exact hp
  | call o k ih =>
    simp only [events] at h'
    simp only [wpUnder] at hp
    have hasm : asm o s := by
      cases hv : view o with
      | none => exact hnone o s hv
      | some e => exact hsome o e s hv (h' (e, s) (List.mem_append_left _ (by simp [hv])))
    have hp := hp hasm
    simp only [wp]
    refine ⟨hp.1, ?_⟩
    have h2 := hp.2
    cases hs : h o s with
    | error e => simpa only [hs] using h2
    | ok rs =>
      simp only [hs] at h' h2
      exact ih rs.1 (fun e he => h' e (List.mem_append_right _ he)) h2

end Assumptions

/-! ## Guards

A guard gives each operation a precondition and an effect on a ghost state `τ`,
without knowing the implementation: a routine passes when every response the
operations could give leads to a continuation that passes. -/

/-- A predicate transformer for each operation. -/
abbrev Guard (S : Sig) (τ : Type) := (o : S.Op) → τ → (S.Resp o → τ → Prop) → Prop

/-- The guard respects weakening of the continuation. -/
def Guard.Mono (G : Guard S τ) : Prop :=
  ∀ (o : S.Op) (t : τ) (K K' : S.Resp o → τ → Prop),
    (∀ r t', K r t' → K' r t') → G o t K → G o t K'

/-- The guard folded over a routine. -/
def fold (G : Guard S τ) : Prog S ε α → τ → (α → τ → Prop) → Prop
  | .pure a, t, Q => Q a t
  | .throw _, _, _ => True
  | .call o k, t, Q => G o t fun r t' => fold G (k r) t' Q

section Fold

variable {G : Guard S τ}

@[simp] theorem fold_pure (a : α) (t : τ) (Q : α → τ → Prop) :
    fold G (pure a : Prog S ε α) t Q ↔ Q a t := Iff.rfl

@[simp] theorem fold_throw (e : ε) (t : τ) (Q : α → τ → Prop) :
    fold G (.throw e : Prog S ε α) t Q := trivial

theorem fold_bind (p : Prog S ε α) (f : α → Prog S ε β) (t : τ) (Q : β → τ → Prop) :
    fold G (p >>= f) t Q = fold G p t (fun a t' => fold G (f a) t' Q) := by
  show fold G (p.bind f) t Q = _
  induction p generalizing t with
  | pure a => rfl
  | throw e => rfl
  | call o k ih =>
    simp only [Prog.bind, fold]
    congr 1
    funext r t'
    exact ih r t'

theorem fold_mono (hG : G.Mono) {p : Prog S ε α} {t : τ} {Q Q' : α → τ → Prop}
    (hp : fold G p t Q) (hQ : ∀ a t', Q a t' → Q' a t') : fold G p t Q' := by
  induction p generalizing t with
  | pure a => exact hQ a t hp
  | throw e => trivial
  | call o k ih => exact hG o t _ _ (fun r t' hr => ih r hr) hp

theorem fold_ofOption (e : ε) (x : Option α) (t : τ) (Q : α → τ → Prop) :
    fold G (Prog.ofOption e x) t Q ↔ ∀ a, x = some a → Q a t := by
  cases x with
  | none => simp [Prog.ofOption]
  | some a => simp [Prog.ofOption, fold]

end Fold

/-! ## Simulation -/

/-- A step-wise simulation: whenever the first implementation answers and the guard
    lets the operation pass, the second gives the same answer, and the relation
    is kept while the weight of the operation is spent. -/
def Simulates {σ₁ σ₂ : Type} (h₁ : Handler S ε σ₁) (h₂ : Handler S ε σ₂)
    (G : Guard S τ) (c : S.Op → Nat) (R : Nat → σ₁ → σ₂ → τ → Prop) : Prop :=
  ∀ (o : S.Op) (n : Nat) (s₁ s₁' : σ₁) (s₂ : σ₂) (t : τ) (r : S.Resp o)
    (K : S.Resp o → τ → Prop),
    R (c o + n) s₁ s₂ t → h₁ o s₁ = .ok (r, s₁') → G o t K →
    ∃ s₂' t', h₂ o s₂ = .ok (r, s₂') ∧ R n s₁' s₂' t' ∧ K r t'

/-- Simulation of operations lifts to routines: a run of the first implementation is
    a run of the second, and the relation holds in every state in between. -/
theorem run_simulates {σ₁ σ₂ : Type} {h₁ : Handler S ε σ₁} {h₂ : Handler S ε σ₂}
    {G : Guard S τ} {c : S.Op → Nat} {R : Nat → σ₁ → σ₂ → τ → Prop}
    (hsim : Simulates h₁ h₂ G c R) (p : Prog S ε α) {n : Nat} {s₁ s₁' : σ₁} {s₂ : σ₂}
    {t : τ} {a : α} {Q : α → τ → Prop} (hR : R (cost h₁ c p s₁ + n) s₁ s₂ t)
    (hrun : run h₁ p s₁ = .ok (a, s₁')) (hG : fold G p t Q) :
    (∃ s₂' t', run h₂ p s₂ = .ok (a, s₂') ∧ R n s₁' s₂' t' ∧ Q a t') ∧
      Always h₂ (fun s => ∃ m s₁ t, R m s₁ s t) p s₂ := by
  induction p generalizing s₁ s₂ t with
  | pure b =>
    simp only [run, Except.ok.injEq, Prod.mk.injEq] at hrun
    obtain ⟨rfl, rfl⟩ := hrun
    rw [cost, Nat.zero_add] at hR
    exact ⟨⟨s₂, t, rfl, hR, hG⟩, ⟨n, s₁, t, hR⟩⟩
  | throw e => simp [run] at hrun
  | call o k ih =>
    simp only [run] at hrun
    cases hs : h₁ o s₁ with
    | error e => simp [hs] at hrun
    | ok rs =>
      obtain ⟨r, u₁⟩ := rs
      simp only [hs] at hrun
      simp only [cost, hs, Nat.add_assoc] at hR
      obtain ⟨u₂, t', hstep, hR', hK⟩ := hsim o _ s₁ u₁ s₂ t r _ hR hs hG
      have hrest := ih r hR' hrun hK
      simp only [run, Always, hstep]
      exact ⟨hrest.1, ⟨_, s₁, t, hR⟩, hrest.2⟩

/-- Both implementations are asked for the same operations. -/
theorem run_simulates_cost {σ₁ σ₂ : Type} {h₁ : Handler S ε σ₁} {h₂ : Handler S ε σ₂}
    {G : Guard S τ} {c : S.Op → Nat} {R : Nat → σ₁ → σ₂ → τ → Prop}
    (hsim : Simulates h₁ h₂ G c R) (p : Prog S ε α) {n : Nat} {s₁ : σ₁} {s₂ : σ₂} {t : τ}
    {out : α × σ₁} {Q : α → τ → Prop} (hR : R (cost h₁ c p s₁ + n) s₁ s₂ t)
    (hrun : run h₁ p s₁ = .ok out) (hG : fold G p t Q) : cost h₂ c p s₂ = cost h₁ c p s₁ := by
  induction p generalizing s₁ s₂ t with
  | pure b => rfl
  | throw e => rfl
  | call o k ih =>
    simp only [run] at hrun
    cases hs : h₁ o s₁ with
    | error e => simp [hs] at hrun
    | ok rs =>
      obtain ⟨r, u₁⟩ := rs
      simp only [hs] at hrun
      simp only [cost, hs, Nat.add_assoc] at hR ⊢
      obtain ⟨u₂, t', hstep, hR', hK⟩ := hsim o _ s₁ u₁ s₂ t r _ hR hs hG
      rw [hstep]
      exact congrArg (c o + ·) (ih r hR' hrun hK)

/-- A routine fails under the second implementation as it does under the first, when it is not an
    operation of the first that fails. -/
theorem run_simulates_error {σ₁ σ₂ : Type} {h₁ : Handler S ε σ₁} {h₂ : Handler S ε σ₂}
    {G : Guard S τ} {c : S.Op → Nat} {R : Nat → σ₁ → σ₂ → τ → Prop} {bad : ε}
    (hsim : Simulates h₁ h₂ G c R) (hbad : ∀ o s e, h₁ o s = .error e → e = bad) (p : Prog S ε α)
    {s₁ : σ₁} {s₂ : σ₂} {t : τ} {e : ε} {Q : α → τ → Prop} (hR : R (cost h₁ c p s₁) s₁ s₂ t)
    (hrun : run h₁ p s₁ = .error e) (he : e ≠ bad) (hG : fold G p t Q) : run h₂ p s₂ = .error e := by
  induction p generalizing s₁ s₂ t with
  | pure b => contradiction
  | throw e' =>
    rw [run, Except.error.injEq] at hrun
    rw [run, hrun]
  | call o k ih =>
    simp only [run] at hrun
    cases hs : h₁ o s₁ with
    | error e' =>
      rw [hs, Except.error.injEq] at hrun
      exact absurd (hrun ▸ hbad o s₁ e' hs) he
    | ok rs =>
      obtain ⟨r, u₁⟩ := rs
      simp only [hs] at hrun
      simp only [cost, hs] at hR
      obtain ⟨u₂, t', hstep, hR', hK⟩ := hsim o _ s₁ u₁ s₂ t r _ hR hs hG
      simp only [run, hstep]
      exact ih r hR' hrun hK

/-! ## Fuel -/

/-- `q` is `p` except that it may go on where `p` gives up with `e`. -/
inductive Extends (e : ε) : Prog S ε α → Prog S ε α → Prop where
  | giveUp (q : Prog S ε α) : Extends e (.throw e) q
  | pure (a : α) : Extends e (.pure a) (.pure a)
  | throw (e' : ε) : Extends e (.throw e') (.throw e')
  | call (o : S.Op) {k k' : S.Resp o → Prog S ε α} (h : ∀ r, Extends e (k r) (k' r)) :
      Extends e (.call o k) (.call o k')

namespace Extends

variable {e : ε} {p q : Prog S ε α}

theorem refl (e : ε) (p : Prog S ε α) : Extends e p p := by
  induction p with
  | pure a => exact .pure a
  | throw e' => exact .throw e'
  | call o k ih => exact .call o ih

theorem bind {f g : α → Prog S ε β} (h : Extends e p q) (hfg : ∀ a, Extends e (f a) (g a)) :
    Extends e (p >>= f) (q >>= g) := by
  show Extends e (p.bind f) (q.bind g)
  induction h with
  | giveUp q => exact .giveUp _
  | pure a => exact hfg a
  | throw e' => exact .throw e'
  | call o h ih => exact .call o ih

/-- A run that does not give up is the run of the extension. -/
theorem run {h : Handler S ε σ} {s : σ} {out : α × σ} (hpq : Extends e p q)
    (hrun : Free.run h p s = .ok out) : Free.run h q s = .ok out := by
  induction hpq generalizing s with
  | giveUp q => contradiction
  | pure a => exact hrun
  | throw e' => contradiction
  | call o hk ih =>
    rw [Free.run] at hrun ⊢
    cases hs : h o s with
    | error e' =>
      rw [hs] at hrun
      contradiction
    | ok rs =>
      rw [hs] at hrun
      exact ih rs.1 hrun

theorem cost {h : Handler S ε σ} {c : S.Op → Nat} {s : σ} {out : α × σ} (hpq : Extends e p q)
    (hrun : Free.run h p s = .ok out) : Free.cost h c q s = Free.cost h c p s := by
  induction hpq generalizing s with
  | giveUp q => contradiction
  | pure a => rfl
  | throw e' => rfl
  | call o hk ih =>
    rw [Free.run] at hrun
    rw [Free.cost, Free.cost]
    cases hs : h o s with
    | error e' => rfl
    | ok rs =>
      rw [hs] at hrun
      exact congrArg (c o + ·) (ih rs.1 hrun)

theorem always {h : Handler S ε σ} {I : σ → Prop} {s : σ} {out : α × σ} (hpq : Extends e p q)
    (hrun : Free.run h p s = .ok out) (hp : Always h I p s) : Always h I q s := by
  induction hpq generalizing s with
  | giveUp q => contradiction
  | pure a => exact hp
  | throw e' => exact hp
  | call o hk ih =>
    rw [Free.run] at hrun
    rw [Always] at hp ⊢
    refine ⟨hp.1, ?_⟩
    have hrest := hp.2
    cases hs : h o s with
    | error e' => trivial
    | ok rs =>
      rw [hs] at hrun hrest
      exact ih rs.1 hrun hrest

end Extends

/-! ## The operations a routine performs -/

section Uses

/-- Whatever the responses are, a routine performs operations in `A` only. -/
def Uses (A : S.Op → Prop) : Prog S ε α → Prop
  | .pure _ => True
  | .throw _ => True
  | .call o k => A o ∧ ∀ r, Uses A (k r)

variable {A : S.Op → Prop} {p : Prog S ε α}

theorem Uses.op {o : S.Op} (h : A o) : Uses A (Prog.op (ε := ε) o) := ⟨h, fun _ => trivial⟩

theorem Uses.ofOption (e : ε) (x : Option α) : Uses A (Prog.ofOption (S := S) e x) := by
  cases x with
  | none => trivial
  | some a => trivial

theorem Uses.bind {f : α → Prog S ε β} (hp : Uses A p) (hf : ∀ a, Uses A (f a)) :
    Uses A (p >>= f) := by
  show Uses A (p.bind f)
  induction p with
  | pure a => exact hf a
  | throw e => trivial
  | call o k ih => exact ⟨hp.1, fun r => ih r (hp.2 r)⟩

/-- What every operation in `A` preserves, a run of the routine preserves. -/
theorem Uses.run {h : Handler S ε σ} {I : σ → Prop} (hp : Uses A p)
    (hstep : ∀ o s r s', A o → I s → h o s = .ok (r, s') → I s') {s s' : σ} {a : α} (hs : I s)
    (hrun : run h p s = .ok (a, s')) : I s' := by
  induction p generalizing s with
  | pure b =>
    obtain ⟨-, rfl⟩ := Prod.mk.inj (Except.ok.inj hrun)
    exact hs
  | throw e => contradiction
  | call o k ih =>
    rw [Free.run] at hrun
    cases ho : h o s with
    | error e =>
      rw [ho] at hrun
      contradiction
    | ok rs =>
      rw [ho] at hrun
      exact ih rs.1 (hp.2 rs.1) (hstep o s rs.1 rs.2 hp.1 hs ho) hrun

end Uses

/-! ## What a routine costs -/

section WpCost

variable (h : Handler S ε σ) (c : S.Op → Nat)

/-- The routine ends, and `Q` holds of its result, the state after it and its cost. -/
def wpCost (p : Prog S ε α) (s : σ) (Q : α → σ → Nat → Prop) : Prop :=
  match run h p s with
  | .ok (a, s') => Q a s' (cost h c p s)
  | .error _ => False

/-- The costs of the parts add up. -/
theorem wpCost_bind (p : Prog S ε α) (f : α → Prog S ε β) (s : σ) (Q : β → σ → Nat → Prop) :
    wpCost h c (p >>= f) s Q ↔
      wpCost h c p s fun a s' n => wpCost h c (f a) s' fun b s'' m => Q b s'' (n + m) := by
  unfold wpCost
  rw [run_bind, cost_bind]
  cases run h p s with
  | error e => rfl
  | ok out => rfl

theorem wpCost_op (o : S.Op) (s : σ) (Q : S.Resp o → σ → Nat → Prop) :
    wpCost h c (Prog.op o) s Q ↔
      match h o s with
      | .ok (r, s') => Q r s' (c o)
      | .error _ => False := by
  unfold wpCost
  rw [Prog.op, run, cost]
  cases h o s with
  | error e => rfl
  | ok out => rfl

theorem wpCost_ite (P : Prop) [Decidable P] (p q : Prog S ε α) (s : σ) (Q : α → σ → Nat → Prop) :
    wpCost h c (if P then p else q) s Q ↔ if P then wpCost h c p s Q else wpCost h c q s Q := by
  split
  · rfl
  · rfl

variable {h c}

theorem wpCost_mono {p : Prog S ε α} {s : σ} {Q Q' : α → σ → Nat → Prop} (hp : wpCost h c p s Q)
    (hQ : ∀ a s' n, Q a s' n → Q' a s' n) : wpCost h c p s Q' := by
  unfold wpCost at hp ⊢
  cases hrun : run h p s with
  | error e =>
    rw [hrun] at hp
    exact hp
  | ok out =>
    rw [hrun] at hp
    exact hQ _ _ _ hp

/-- The cost of a routine whose run is known -/
theorem wpCost_of_run {p : Prog S ε α} {s s' : σ} {a : α} {Q : α → σ → Nat → Prop}
    (hrun : run h p s = .ok (a, s')) : wpCost h c p s Q ↔ Q a s' (cost h c p s) := by
  rw [wpCost, hrun]

end WpCost

end Free
