import Mathlib

/-!
# The smallest candidate

The loop over an array that keeps the candidate with the smallest key seen so far; keys from
`bound` on are not taken.

## Key results

- `selectMin_spec`: what is found has the smallest key of all candidates
- `selectMin_none_iff`: when nothing is found
-/

namespace Select

variable {ι κ : Type} [LinearOrder κ]

/-- The loop: a candidate with a key below the bound becomes the best one and its key the
    bound. -/
def minLoop (cand : ι → Bool) (key : ι → κ) : List ι → Option ι → κ → Option ι
  | [], best, _ => best
  | i :: is, best, bound =>
    if cand i ∧ key i < bound then minLoop cand key is (some i) (key i)
    else minLoop cand key is best bound

/-- The candidate with the smallest key below the bound, the first one of several -/
def selectMin (cand : ι → Bool) (key : ι → κ) (bound : κ) (is : List ι) : Option ι :=
  minLoop cand key is none bound

variable {cand : ι → Bool} {key : ι → κ}

theorem minLoop_spec (is : List ι) (best : Option ι) (bound : κ) :
    (minLoop cand key is best bound = best ∧ ∀ j ∈ is, cand j → bound ≤ key j) ∨
      ∃ i ∈ is, minLoop cand key is best bound = some i ∧ cand i ∧ key i < bound ∧
        ∀ j ∈ is, cand j → key i ≤ key j := by
  -- along the list: `bound` is the least key so far, and `best` has it
  induction is generalizing best bound with
  | nil => exact Or.inl ⟨rfl, fun j hj => nomatch hj⟩
  | cons i is ih =>
    simp only [minLoop]
    split
    next hi =>
      right
      rcases ih (some i) (key i) with ⟨heq, hrest⟩ | ⟨k, hk, heq, hcand, hlt, hrest⟩
      · refine ⟨i, List.mem_cons_self .., heq, hi.1, hi.2, fun j hj hc => ?_⟩
        cases List.mem_cons.mp hj with
        | inl h => exact h ▸ le_refl _
        | inr h => exact hrest j h hc
      · refine ⟨k, List.mem_cons_of_mem _ hk, heq, hcand, lt_trans hlt hi.2, fun j hj hc => ?_⟩
        cases List.mem_cons.mp hj with
        | inl h => exact h ▸ le_of_lt hlt
        | inr h => exact hrest j h hc
    next hi =>
      have hskip : cand i = true → bound ≤ key i := fun hc => not_lt.mp fun h => hi ⟨hc, h⟩
      rcases ih best bound with ⟨heq, hrest⟩ | ⟨k, hk, heq, hcand, hlt, hrest⟩
      · refine Or.inl ⟨heq, fun j hj hc => ?_⟩
        cases List.mem_cons.mp hj with
        | inl h => exact h ▸ hskip (h ▸ hc)
        | inr h => exact hrest j h hc
      · refine Or.inr ⟨k, List.mem_cons_of_mem _ hk, heq, hcand, hlt, fun j hj hc => ?_⟩
        cases List.mem_cons.mp hj with
        | inl h => exact le_trans (le_of_lt hlt) (h ▸ hskip (h ▸ hc))
        | inr h => exact hrest j h hc

/-- What is found is a candidate, and no candidate has a smaller key. -/
theorem selectMin_spec {bound : κ} {is : List ι} {i : ι} (h : selectMin cand key bound is = some i) :
    i ∈ is ∧ cand i ∧ key i < bound ∧ ∀ j ∈ is, cand j → key i ≤ key j := by
  rcases minLoop_spec is none bound with ⟨heq, -⟩ | ⟨k, hk, heq, hrest⟩
  · rw [selectMin, heq] at h
    exact nomatch h
  · rw [selectMin, heq] at h
    exact Option.some.inj h ▸ ⟨hk, hrest⟩

/-- Nothing is found when no candidate has a key below the bound. -/
theorem selectMin_none_iff {bound : κ} {is : List ι} :
    selectMin cand key bound is = none ↔ ∀ j ∈ is, cand j → bound ≤ key j := by
  rcases minLoop_spec is none bound with ⟨heq, hrest⟩ | ⟨k, hk, heq, hcand, hlt, -⟩
  · exact iff_of_true heq hrest
  · rw [selectMin, heq]
    exact iff_of_false nofun fun h => absurd (h k hk hcand) (not_le.mpr hlt)

end Select
