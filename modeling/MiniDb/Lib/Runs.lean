import Mathlib

/-!
# Runs of a component

A component answers operations one after the other and may fail.  `calls` lists the
operations of a run, each with the state it is made in, `states` the states it goes
through, and `runAll` gives the answers and the last state.  `SpecRun` is the run of an
abstract machine, which may leave a choice open.

## Key results

- `exists_call_of_error`: a run that fails does so in one of its steps
- `calls_rest`, `runAll_rest`, `runAll_spec`: a component whose steps follow an abstract machine
  runs as it does
- `states_spec`: the states such a run goes through
- `runAll_follows`: where such a component fails
- `runAll_view`, `runAll_map`, `states_map`: a component that looks like another one runs as it does
- `runAll_inv`: what every step keeps holds after every run
-/

namespace Runs

variable {Op σ ρ ε α : Type}

/-- The operations made, each with the state it is made in; a failure ends the run. -/
def calls (step : Op → σ → Except ε (ρ × σ)) : List Op → σ → List (Op × σ)
  | [], _ => []
  | op :: ops, s => (op, s) ::
    match step op s with
    | .ok (_, s') => calls step ops s'
    | .error _ => []

/-- The states a run goes through, the first and the last one included -/
def states (step : Op → σ → Except ε (ρ × σ)) : List Op → σ → List σ
  | [], s => [s]
  | op :: ops, s => s ::
    match step op s with
    | .ok (_, s') => states step ops s'
    | .error _ => []

/-- The largest value `m` takes in the course of a run -/
def peak (step : Op → σ → Except ε (ρ × σ)) (m : σ → Nat) (ops : List Op) (s : σ) : Nat :=
  ((states step ops s).map m).foldr max ⊥

/-- The answers of a run and its last state -/
def runAll (step : Op → σ → Except ε (ρ × σ)) : List Op → σ → Except ε (List ρ × σ)
  | [], s => .ok ([], s)
  | op :: ops, s =>
    match step op s with
    | .ok (r, s') =>
      match runAll step ops s' with
      | .ok (rs, s'') => .ok (r :: rs, s'')
      | .error e => .error e
    | .error e => .error e

/-- A run of an abstract machine: `spec op a r a'` says that it may answer `r` and go from
    `a` to `a'`. -/
inductive SpecRun (spec : Op → α → ρ → α → Prop) : List Op → α → List ρ → α → Prop where
  | nil (a : α) : SpecRun spec [] a [] a
  | cons {op : Op} {ops : List Op} {a a' a'' : α} {r : ρ} {rs : List ρ} :
      spec op a r a' → SpecRun spec ops a' rs a'' → SpecRun spec (op :: ops) a (r :: rs) a''

section Rules

variable {step : Op → σ → Except ε (ρ × σ)}

theorem op_mem_of_mem_calls {ops : List Op} {s : σ} {c : Op × σ} (h : c ∈ calls step ops s) :
    c.1 ∈ ops := by
  induction ops generalizing s with
  | nil => exact nomatch h
  | cons op ops ih =>
    rcases List.mem_cons.mp h with rfl | h
    · exact List.mem_cons_self ..
    · apply List.mem_cons_of_mem
      cases hop : step op s with
      | ok r =>
        rw [hop] at h
        exact ih h
      | error e =>
        rw [hop] at h
        exact nomatch h

theorem mem_states_of_mem_calls {ops : List Op} {s : σ} {c : Op × σ} (h : c ∈ calls step ops s) :
    c.2 ∈ states step ops s := by
  induction ops generalizing s with
  | nil => exact nomatch h
  | cons op ops ih =>
    rcases List.mem_cons.mp h with rfl | h
    · exact List.mem_cons_self ..
    · apply List.mem_cons_of_mem
      cases hop : step op s with
      | ok r =>
        rw [hop] at h
        exact ih h
      | error e =>
        rw [hop] at h
        exact nomatch h

/-- A run that ends has made its first step and ends from there. -/
theorem runAll_cons_eq_ok {op : Op} {ops : List Op} {s s' : σ} {rs : List ρ}
    (h : runAll step (op :: ops) s = .ok (rs, s')) : ∃ r s₁ rs₁, step op s = .ok (r, s₁) ∧
      runAll step ops s₁ = .ok (rs₁, s') ∧ rs = r :: rs₁ := by
  rw [runAll] at h
  cases hop : step op s with
  | error e =>
    rw [hop] at h
    contradiction
  | ok out =>
    rw [hop] at h
    dsimp only at h
    cases hrest : runAll step ops out.2 with
    | error e =>
      rw [hrest] at h
      contradiction
    | ok outs =>
      rw [hrest] at h
      dsimp only at h
      rw [Except.ok.injEq, Prod.mk.injEq] at h
      obtain ⟨hrs, rfl⟩ := h
      exact ⟨out.1, out.2, outs.1, rfl, hrest, hrs.symm⟩

theorem mem_states_of_runAll {ops : List Op} {s s' : σ} {rs : List ρ}
    (h : runAll step ops s = .ok (rs, s')) : s' ∈ states step ops s := by
  induction ops generalizing s rs with
  | nil =>
    simp only [runAll, Except.ok.injEq, Prod.mk.injEq] at h
    rw [h.2]
    exact List.mem_cons_self ..
  | cons op ops ih =>
    obtain ⟨r, s₁, rs₁, hop, hrest, -⟩ := runAll_cons_eq_ok h
    rw [states, hop]
    exact List.mem_cons_of_mem _ (ih hrest)

theorem exists_ok_of_isSome {x : Except ε α} (h : x.toOption.isSome = true) : ∃ a, x = .ok a := by
  cases x with
  | error e => contradiction
  | ok a => exact ⟨a, rfl⟩

/-- A run that goes on where another one ended -/
theorem runAll_append {ops ops' : List Op} {s s' s'' : σ} {rs rs' : List ρ}
    (h : runAll step ops s = .ok (rs, s')) (h' : runAll step ops' s' = .ok (rs', s'')) :
    runAll step (ops ++ ops') s = .ok (rs ++ rs', s'') := by
  induction ops generalizing s rs with
  | nil =>
    rw [runAll, Except.ok.injEq, Prod.mk.injEq] at h
    obtain ⟨rfl, rfl⟩ := h
    exact h'
  | cons op ops ih =>
    obtain ⟨r, s₁, rs₁, hop, hrest, rfl⟩ := runAll_cons_eq_ok h
    rw [List.cons_append, runAll, hop]
    dsimp only
    rw [ih hrest]
    rfl

/-- The states of a run that goes on where another one ended -/
theorem mem_states_append {ops ops' : List Op} {s s' t : σ} {rs : List ρ}
    (h : runAll step ops s = .ok (rs, s')) (ht : t ∈ states step (ops ++ ops') s) :
    t ∈ states step ops s ∨ t ∈ states step ops' s' := by
  induction ops generalizing s rs with
  | nil =>
    rw [runAll, Except.ok.injEq, Prod.mk.injEq] at h
    exact Or.inr (h.2 ▸ ht)
  | cons op ops ih =>
    obtain ⟨r, s₁, rs₁, hop, hrest, -⟩ := runAll_cons_eq_ok h
    rw [List.cons_append, states, hop] at ht
    rw [states, hop]
    rcases List.mem_cons.mp ht with rfl | ht
    · exact Or.inl (List.mem_cons_self ..)
    · exact (ih hrest ht).imp_left (List.mem_cons_of_mem _)

/-- The calls of a run that goes on where another one ended -/
theorem mem_calls_append {ops ops' : List Op} {s s' : σ} {rs : List ρ} {c : Op × σ}
    (h : runAll step ops s = .ok (rs, s')) (hc : c ∈ calls step (ops ++ ops') s) :
    c ∈ calls step ops s ∨ c ∈ calls step ops' s' := by
  induction ops generalizing s rs with
  | nil =>
    rw [runAll, Except.ok.injEq, Prod.mk.injEq] at h
    exact Or.inr (h.2 ▸ hc)
  | cons op ops ih =>
    obtain ⟨r, s₁, rs₁, hop, hrest, -⟩ := runAll_cons_eq_ok h
    rw [List.cons_append, calls, hop] at hc
    rw [calls, hop]
    rcases List.mem_cons.mp hc with rfl | hc
    · exact Or.inl (List.mem_cons_self ..)
    · exact (ih hrest hc).imp_left (List.mem_cons_of_mem _)

/-- Every step of a run ends in a state of the run. -/
theorem mem_states_of_step {ops : List Op} {s : σ} {c : Op × σ} (h : c ∈ calls step ops s) {r : ρ}
    {s' : σ} (hstep : step c.1 c.2 = .ok (r, s')) : s' ∈ states step ops s := by
  induction ops generalizing s with
  | nil => exact nomatch h
  | cons op ops ih =>
    apply List.mem_cons_of_mem
    rcases List.mem_cons.mp h with rfl | h
    · rw [hstep]
      cases ops with
      | nil => exact List.mem_cons_self ..
      | cons op' ops => exact List.mem_cons_self ..
    · cases hop : step op s with
      | ok out =>
        rw [hop] at h
        exact ih h
      | error e =>
        rw [hop] at h
        exact nomatch h

/-- What every step keeps, where it may look at the operations still to be made, holds in every
    state of a run. -/
theorem states_rest {Rel : List Op → σ → Prop}
    (hkeep : ∀ op ops s r s', Rel (op :: ops) s → step op s = .ok (r, s') → Rel ops s')
    {ops : List Op} {s : σ} (hs : Rel ops s) : ∀ s' ∈ states step ops s, ∃ ops', Rel ops' s' := by
  induction ops generalizing s with
  | nil =>
    intro s' hs'
    rw [List.mem_singleton.mp hs']
    exact ⟨[], hs⟩
  | cons op ops ih =>
    intro s' hs'
    rcases List.mem_cons.mp hs' with rfl | hs'
    · exact ⟨_, hs⟩
    · cases hop : step op s with
      | ok out =>
        rw [hop] at hs'
        exact ih (hkeep op ops s out.1 out.2 hs hop) s' hs'
      | error e =>
        rw [hop] at hs'
        exact nomatch hs'

/-- Where a run has ended, what every step keeps holds for the operations still to be made. -/
theorem rest_runAll {Rel : List Op → σ → Prop}
    (hkeep : ∀ op ops s r s', Rel (op :: ops) s → step op s = .ok (r, s') → Rel ops s')
    {ops ops' : List Op} {s s' : σ} {rs : List ρ} (hs : Rel (ops ++ ops') s)
    (h : runAll step ops s = .ok (rs, s')) : Rel ops' s' := by
  induction ops generalizing s rs with
  | nil =>
    rw [runAll, Except.ok.injEq, Prod.mk.injEq] at h
    exact h.2 ▸ hs
  | cons op ops ih =>
    obtain ⟨r, s₁, rs₁, hop, hrest, -⟩ := runAll_cons_eq_ok h
    exact ih (hkeep op (ops ++ ops') s r s₁ hs hop) hrest

theorem le_peak {m : σ → Nat} {ops : List Op} {s s' : σ} (h : s' ∈ states step ops s) :
    m s' ≤ peak step m ops s :=
  List.le_max_of_le (List.mem_map_of_mem h) (Nat.le_refl _)

/-- A run that fails does so in one of its steps. -/
theorem exists_call_of_error {ops : List Op} {s : σ} {e : ε} (h : runAll step ops s = .error e) :
    ∃ c ∈ calls step ops s, step c.1 c.2 = .error e := by
  induction ops generalizing s with
  | nil => exact nomatch h
  | cons op ops ih =>
    simp only [runAll] at h
    simp only [calls]
    cases hop : step op s with
    | error e' =>
      rw [hop] at h
      exact ⟨(op, s), List.mem_cons_self .., hop.trans (congrArg _ (Except.error.inj h))⟩
    | ok r =>
      rw [hop] at h
      dsimp only at h ⊢
      cases hrest : runAll step ops r.2 with
      | error e' =>
        rw [hrest] at h
        obtain ⟨c, hc, hce⟩ := ih (hrest.trans (congrArg _ (Except.error.inj h)))
        exact ⟨c, List.mem_cons_of_mem _ hc, hce⟩
      | ok rs =>
        rw [hrest] at h
        exact nomatch h

section Machine

variable {spec : Op → α → ρ → α → Prop} {Ok : Op → σ → Prop}

section Rest

variable {Rel : List Op → α → σ → Prop}
  (hstep : ∀ op ops a s, Rel (op :: ops) a s → Ok op s →
    ∀ r s', step op s = .ok (r, s') → ∃ a', spec op a r a' ∧ Rel ops a' s')

include hstep

/-- Every step is made in a state of the machine; the relation may look at the operations that
    are still to be made. -/
theorem calls_rest {ops : List Op} {a : α} {s : σ} (hrel : Rel ops a s)
    (hok : ∀ c ∈ calls step ops s, Ok c.1 c.2) :
    ∀ c ∈ calls step ops s, ∃ a' ops', Rel (c.1 :: ops') a' c.2 := by
  induction ops generalizing a s with
  | nil => exact fun c hc => nomatch hc
  | cons op ops ih =>
    simp only [calls, List.mem_cons] at hok
    intro c hc
    simp only [calls, List.mem_cons] at hc
    rcases hc with rfl | hc
    · exact ⟨a, ops, hrel⟩
    · cases hop : step op s with
      | error e =>
        rw [hop] at hc
        exact nomatch hc
      | ok r =>
        simp only [hop] at hok hc
        obtain ⟨a', -, hrel'⟩ := hstep op ops a s hrel (hok (op, s) (Or.inl rfl)) r.1 r.2 hop
        exact ih hrel' (fun c hc => hok c (Or.inr hc)) c hc

theorem runAll_rest {ops : List Op} {a : α} {s : σ} (hrel : Rel ops a s)
    (hok : ∀ c ∈ calls step ops s, Ok c.1 c.2) {rs : List ρ} {s' : σ}
    (hrun : runAll step ops s = .ok (rs, s')) : ∃ a', SpecRun spec ops a rs a' ∧ Rel [] a' s' := by
  induction ops generalizing a s rs with
  | nil =>
    simp only [runAll, Except.ok.injEq, Prod.mk.injEq] at hrun
    obtain ⟨rfl, rfl⟩ := hrun
    exact ⟨a, SpecRun.nil a, hrel⟩
  | cons op ops ih =>
    obtain ⟨r, s₁, rs₁, hop, hrest, rfl⟩ := runAll_cons_eq_ok hrun
    simp only [calls, List.mem_cons, hop] at hok
    obtain ⟨a₁, hspec, hrel₁⟩ := hstep op ops a s hrel (hok (op, s) (Or.inl rfl)) r s₁ hop
    obtain ⟨a₂, hspec₁, hrel₂⟩ := ih hrel₁ (fun c hc => hok c (Or.inr hc)) hrest
    exact ⟨a₂, SpecRun.cons hspec hspec₁, hrel₂⟩

end Rest

/-- A component whose steps follow an abstract machine, with the states related by `Rel`,
    runs as the machine does and fails with tolerated failures only. -/
theorem runAll_spec {Rel : α → σ → Prop} {tol : ε → Prop}
    (hstep : ∀ op a s, Rel a s → Ok op s →
      (∀ r s', step op s = .ok (r, s') → ∃ a', spec op a r a' ∧ Rel a' s') ∧
      ∀ e, step op s = .error e → tol e)
    {ops : List Op} {a : α} {s : σ} (hrel : Rel a s) (hok : ∀ c ∈ calls step ops s, Ok c.1 c.2) :
    (∀ rs s', runAll step ops s = .ok (rs, s') → ∃ a', SpecRun spec ops a rs a' ∧ Rel a' s') ∧
      ∀ e, runAll step ops s = .error e → tol e := by
  let Rel' : List Op → α → σ → Prop := fun _ => Rel
  have hrest : ∀ op ops a s, Rel' (op :: ops) a s → Ok op s →
      ∀ r s', step op s = .ok (r, s') → ∃ a', spec op a r a' ∧ Rel' ops a' s' :=
    fun op _ a s hrel hok => (hstep op a s hrel hok).1
  have hrel : Rel' ops a s := hrel
  refine ⟨fun rs s' hrun => runAll_rest hrest hrel hok hrun, fun e hrun => ?_⟩
  obtain ⟨c, hc, hce⟩ := exists_call_of_error hrun
  obtain ⟨a₁, ops₁, hrel₁⟩ := calls_rest hrest hrel hok c hc
  exact (hstep c.1 a₁ c.2 hrel₁ (hok c hc)).2 e hce

/-- Every state of a run of a component whose steps follow an abstract machine is the last one of
    a shorter run, and it is related to the machine's state after that run. -/
theorem states_spec {Rel : α → σ → Prop}
    (hstep : ∀ op a s, Rel a s → Ok op s →
      ∀ r s', step op s = .ok (r, s') → ∃ a', spec op a r a' ∧ Rel a' s')
    {ops : List Op} {a : α} {s s' : σ} (hrel : Rel a s)
    (hok : ∀ c ∈ calls step ops s, Ok c.1 c.2) (h : s' ∈ states step ops s) :
    ∃ before after rs a', ops = before ++ after ∧ runAll step before s = .ok (rs, s') ∧
      SpecRun spec before a rs a' ∧ Rel a' s' := by
  -- by induction on the run: the state is the first one, or one of the rest
  induction ops generalizing a s with
  | nil =>
    rw [List.mem_singleton.mp h]
    exact ⟨[], [], [], a, rfl, rfl, SpecRun.nil a, hrel⟩
  | cons op ops ih =>
    simp only [calls, List.mem_cons] at hok
    simp only [states, List.mem_cons] at h
    rcases h with rfl | h
    · exact ⟨[], op :: ops, [], a, rfl, rfl, SpecRun.nil a, hrel⟩
    · cases hop : step op s with
      | error e =>
        rw [hop] at h
        exact absurd h List.not_mem_nil
      | ok r =>
        simp only [hop] at hok h
        obtain ⟨a₁, hspec, hrel₁⟩ := hstep op a s hrel (hok (op, s) (Or.inl rfl)) r.1 r.2 hop
        obtain ⟨before, after, rs, a₂, rfl, hrun, hspecs, hrel₂⟩ :=
          ih hrel₁ (fun c hc => hok c (Or.inr hc)) h
        have hrun' : runAll step (op :: before) s = .ok (r.1 :: rs, s') := by
          rw [runAll, hop]
          dsimp only
          rw [hrun]
        exact ⟨op :: before, after, r.1 :: rs, a₂, rfl, hrun', SpecRun.cons hspec hspecs, hrel₂⟩

/-- A run that fails does so in the step after a run of the machine. -/
theorem error_follows {Rel : α → σ → Prop} {fails : Op → α → ε → Prop}
    (hstep : ∀ op a s, Rel a s → Ok op s →
      (∀ r s', step op s = .ok (r, s') → ∃ a', spec op a r a' ∧ Rel a' s') ∧
      ∀ e, step op s = .error e → fails op a e)
    {ops : List Op} {a : α} {s : σ} (hrel : Rel a s) (hok : ∀ c ∈ calls step ops s, Ok c.1 c.2)
    {e : ε} (hrun : runAll step ops s = .error e) : ∃ before op after rs a',
      ops = before ++ op :: after ∧ SpecRun spec before a rs a' ∧ fails op a' e := by
  induction ops generalizing a s with
  | nil => contradiction
  | cons op ops ih =>
    simp only [calls, List.mem_cons] at hok
    simp only [runAll] at hrun
    obtain ⟨hgood, hbad⟩ := hstep op a s hrel (hok (op, s) (Or.inl rfl))
    -- the step fails here, or the rest of the run fails
    cases hop : step op s with
    | error e' =>
      rw [hop] at hrun
      rw [Except.error.inj hrun] at hop
      exact ⟨[], op, ops, [], a, rfl, SpecRun.nil a, hbad e hop⟩
    | ok r =>
      simp only [hop] at hok hrun
      obtain ⟨a₁, hspec, hrel₁⟩ := hgood r.1 r.2 hop
      cases hrest : runAll step ops r.2 with
      | ok out =>
        rw [hrest] at hrun
        contradiction
      | error e' =>
        rw [hrest] at hrun
        rw [Except.error.inj hrun] at hrest
        obtain ⟨before, op', after, rs, a', rfl, hbefore, hfails⟩ :=
          ih hrel₁ (fun c hc => hok c (Or.inr hc)) hrest
        exact ⟨op :: before, op', after, r.1 :: rs, a', rfl, SpecRun.cons hspec hbefore, hfails⟩

/-- A component whose steps follow an abstract machine, as long as they do not fail, runs as it
    does, up to the step that fails. -/
theorem runAll_follows {Rel : α → σ → Prop} {fails : Op → α → ε → Prop}
    (hstep : ∀ op a s, Rel a s → Ok op s →
      (∀ r s', step op s = .ok (r, s') → ∃ a', spec op a r a' ∧ Rel a' s') ∧
      ∀ e, step op s = .error e → fails op a e)
    {ops : List Op} {a : α} {s : σ} (hrel : Rel a s) (hok : ∀ c ∈ calls step ops s, Ok c.1 c.2) :
    (∀ rs s', runAll step ops s = .ok (rs, s') → ∃ a', SpecRun spec ops a rs a' ∧ Rel a' s') ∧
      ∀ e, runAll step ops s = .error e → ∃ before op after rs a',
        ops = before ++ op :: after ∧ SpecRun spec before a rs a' ∧ fails op a' e := by
  have hloose : ∀ op a s, Rel a s → Ok op s →
      (∀ r s', step op s = .ok (r, s') → ∃ a', spec op a r a' ∧ Rel a' s') ∧
      ∀ e, step op s = .error e → True :=
    fun op a s hrel hok => ⟨(hstep op a s hrel hok).1, fun _ _ => trivial⟩
  exact ⟨(runAll_spec hloose hrel hok).1, fun e hrun => error_follows hstep hrel hok hrun⟩

end Machine

/-- What every step keeps holds after every run. -/
theorem runAll_inv {Inv : σ → Prop} {Ok : Op → σ → Prop} {tol : ε → Prop}
    (hstep : ∀ op s, Inv s → Ok op s →
      (∀ r s', step op s = .ok (r, s') → Inv s') ∧ ∀ e, step op s = .error e → tol e)
    {ops : List Op} {s : σ} (hs : Inv s) (hok : ∀ c ∈ calls step ops s, Ok c.1 c.2) :
    (∀ rs s', runAll step ops s = .ok (rs, s') → Inv s') ∧
      ∀ e, runAll step ops s = .error e → tol e := by
  -- the machine with one state
  let spec : Op → Unit → ρ → Unit → Prop := fun _ _ _ _ => True
  let Rel : Unit → σ → Prop := fun _ s => Inv s
  have hfollow : ∀ op a s, Rel a s → Ok op s →
      (∀ r s', step op s = .ok (r, s') → ∃ a', spec op a r a' ∧ Rel a' s') ∧
        ∀ e, step op s = .error e → tol e := fun op _ s hs hok =>
    ⟨fun r s' hop => ⟨(), trivial, (hstep op s hs hok).1 r s' hop⟩, (hstep op s hs hok).2⟩
  have hrun := runAll_spec hfollow (a := ()) hs hok
  refine ⟨fun rs s' hout => ?_, hrun.2⟩
  obtain ⟨_, -, hinv⟩ := hrun.1 rs s' hout
  exact hinv

end Rules

/-! ## Views -/

section View

variable {τ κ : Type} {step : Op → σ → Except ε (ρ × σ)} {flat : Op → τ → Except ε (κ × τ)}
  {g : ρ → κ} {f : σ → τ} {Inv : σ → Prop} {Ok : Op → τ → Prop} {Fits : Op → σ → Prop}

/-- A component whose steps are those of another one, when its states and answers are looked at
    through `f` and `g`, runs as that one does. -/
theorem runAll_view
    (hstep : ∀ op s, Inv s → Ok op (f s) → Fits op s →
      (∃ r s', step op s = .ok (r, s') ∧ flat op (f s) = .ok (g r, f s') ∧ Inv s') ∨
      ∃ e, step op s = .error e ∧ flat op (f s) = .error e)
    {ops : List Op} {s : σ} (hs : Inv s) (hok : ∀ c ∈ calls flat ops (f s), Ok c.1 c.2)
    (hfits : ∀ c ∈ calls step ops s, Fits c.1 c.2) :
    (runAll step ops s).map (fun out => (out.1.map g, f out.2)) = runAll flat ops (f s) := by
  induction ops generalizing s with
  | nil => rfl
  | cons op ops ih =>
    simp only [calls, List.mem_cons] at hok hfits
    simp only [runAll]
    rcases hstep op s hs (hok (op, f s) (Or.inl rfl)) (hfits (op, s) (Or.inl rfl)) with
      ⟨r, s', hr, hflat, hs'⟩ | ⟨e, hr, hflat⟩
    · simp only [hr] at hfits ⊢
      simp only [hflat] at hok ⊢
      rw [← ih hs' (fun c hc => hok c (Or.inr hc)) fun c hc => hfits c (Or.inr hc)]
      cases runAll step ops s' with
      | error e => rfl
      | ok out => rfl
    · rw [hr, hflat]
      rfl

section Total

variable (hstep : ∀ op s, flat op (f s) = (step op s).map fun out => (g out.1, f out.2))

include hstep

/-- A component that looks like another one without conditions -/
theorem runAll_map (ops : List Op) (s : σ) :
    (runAll step ops s).map (fun out => (out.1.map g, f out.2)) = runAll flat ops (f s) := by
  induction ops generalizing s with
  | nil => rfl
  | cons op ops ih =>
    rw [runAll, runAll, hstep]
    cases step op s with
    | error e => rfl
    | ok out =>
      dsimp only [Except.map]
      rw [← ih]
      cases runAll step ops out.2 with
      | error e => rfl
      | ok outs => rfl

/-- The states it goes through -/
theorem states_map (ops : List Op) (s : σ) : (states step ops s).map f = states flat ops (f s) := by
  induction ops generalizing s with
  | nil => rfl
  | cons op ops ih =>
    rw [states, states, List.map_cons, hstep]
    cases step op s with
    | error e => rfl
    | ok out => exact congrArg _ (ih out.2)

end Total

end View

/-! ## Idle operations -/

section Idle

/-- A component that may also be left alone -/
def orIdle (step : Op → σ → Except ε (ρ × σ)) : Option Op → σ → Except ε (Option ρ × σ)
  | none, s => .ok (none, s)
  | some op, s =>
    match step op s with
    | .ok (r, s') => .ok (some r, s')
    | .error e => .error e

variable {step : Op → σ → Except ε (ρ × σ)}

/-- Leaving it alone makes no difference to a run. -/
theorem runAll_orIdle (ops : List (Option Op)) (s : σ) :
    (runAll (orIdle step) ops s).map (fun out => (out.1.reduceOption, out.2)) =
      runAll step ops.reduceOption s := by
  induction ops generalizing s with
  | nil => rfl
  | cons op ops ih =>
    cases op with
    | none =>
      rw [List.reduceOption_cons_of_none, ← ih, runAll]
      dsimp only [orIdle]
      cases runAll (orIdle step) ops s with
      | error e => rfl
      | ok out =>
        dsimp only [Except.map]
        rw [List.reduceOption_cons_of_none]
    | some op =>
      rw [List.reduceOption_cons_of_some, runAll, runAll]
      cases hop : step op s with
      | error e =>
        dsimp only [orIdle]
        rw [hop]
        rfl
      | ok out =>
        dsimp only [orIdle]
        rw [hop]
        dsimp only
        rw [← ih]
        cases runAll (orIdle step) ops out.2 with
        | error e => rfl
        | ok outs =>
          dsimp only [Except.map]
          rw [List.reduceOption_cons_of_some]

theorem mem_calls_reduceOption {ops : List (Option Op)} {s : σ} {op : Op} {s' : σ}
    (h : (some op, s') ∈ calls (orIdle step) ops s) : (op, s') ∈ calls step ops.reduceOption s := by
  induction ops generalizing s with
  | nil => exact absurd h List.not_mem_nil
  | cons o ops ih =>
    cases o with
    | none =>
      rw [List.reduceOption_cons_of_none]
      rcases List.mem_cons.mp h with heq | h
      · exact absurd (Prod.mk.inj heq).1 (Option.some_ne_none op)
      · exact ih h
    | some op' =>
      rw [List.reduceOption_cons_of_some]
      rcases List.mem_cons.mp h with heq | h
      · obtain ⟨hop, rfl⟩ := Prod.mk.inj heq
        rw [Option.some.inj hop]
        exact List.mem_cons_self ..
      · apply List.mem_cons_of_mem
        dsimp only [orIdle] at h
        cases hstep : step op' s with
        | error e =>
          rw [hstep] at h
          exact absurd h List.not_mem_nil
        | ok out =>
          rw [hstep] at h
          exact ih h

end Idle

end Runs
