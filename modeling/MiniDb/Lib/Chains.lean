import Mathlib

/-!
# Linked chains

Records that name their successors, down to an end mark.

## Key results

- `Visits.follow_eq`: following the links finds the chain
- `Visits.unique`, `Visits.nodup`: there is one chain from any record, and it meets no record twice
-/

namespace Chains

variable {α : Type}

/-- Following `next` from `p` visits the elements of the list one after the other and ends at
    `stop`. -/
def Visits (next : α → α) (stop : α) : α → List α → Prop
  | p, [] => p = stop
  | p, q :: qs => p = q ∧ q ≠ stop ∧ Visits next stop (next q) qs

/-- The elements met by following `next`, at most `n` of them -/
def follow [DecidableEq α] (next : α → α) (stop : α) : Nat → α → List α
  | 0, _ => []
  | n + 1, p => if p = stop then [] else p :: follow next stop n (next p)

theorem Visits.follow_eq [DecidableEq α] {next : α → α} {stop p : α} {l : List α}
    (h : Visits next stop p l) {n : Nat} (hn : l.length ≤ n) : follow next stop n p = l := by
  induction l generalizing p n with
  | nil =>
    cases n with
    | zero => rfl
    | succ n => exact if_pos h
  | cons q l ih =>
    obtain ⟨rfl, hne, hrest⟩ := h
    obtain ⟨n, rfl⟩ := Nat.exists_eq_add_of_le' (Nat.lt_of_lt_of_le (Nat.zero_lt_succ _) hn)
    rw [follow, if_neg hne, ih hrest (Nat.le_of_succ_le_succ hn)]

/-- A chain is determined by where it begins. -/
theorem Visits.unique {next : α → α} {stop p : α} {l l' : List α} (h : Visits next stop p l)
    (h' : Visits next stop p l') : l = l' := by
  induction l generalizing p l' with
  | nil =>
    cases l' with
    | nil => rfl
    | cons q l' =>
      obtain ⟨rfl, hne, -⟩ := h'
      exact absurd h hne
  | cons q l ih =>
    obtain ⟨rfl, hne, hrest⟩ := h
    cases l' with
    | nil => exact absurd h' hne
    | cons q' l' =>
      obtain ⟨rfl, -, hrest'⟩ := h'
      rw [ih hrest hrest']

/-- Only the links of the records before the end mark matter. -/
theorem Visits.congr {next next' : α → α} {stop p : α} {l : List α} (h : Visits next stop p l)
    (heq : ∀ q, q ≠ stop → next' q = next q) : Visits next' stop p l := by
  induction l generalizing p with
  | nil => exact h
  | cons q l ih =>
    obtain ⟨rfl, hne, hrest⟩ := h
    refine ⟨rfl, hne, ?_⟩
    rw [heq p hne]
    exact ih hrest

/-- What is left of a chain from one of its records on -/
theorem Visits.from_mem {next : α → α} {stop p q : α} {l m : List α}
    (h : Visits next stop p (l ++ q :: m)) : Visits next stop q (q :: m) := by
  induction l generalizing p with
  | nil =>
    obtain ⟨rfl, hne, hrest⟩ := h
    exact ⟨rfl, hne, hrest⟩
  | cons r l ih =>
    obtain ⟨-, -, hrest⟩ := h
    exact ih hrest

/-- A chain that ends does not come back to a record. -/
theorem Visits.nodup {next : α → α} {stop p : α} {l : List α} (h : Visits next stop p l) :
    l.Nodup := by
  induction l generalizing p with
  | nil => exact List.nodup_nil
  | cons q l ih =>
    have hall := h
    obtain ⟨rfl, -, hrest⟩ := h
    refine List.nodup_cons.mpr ⟨fun hmem => ?_, ih hrest⟩
    -- the chain from its second visit on would be the whole chain
    obtain ⟨l₁, l₂, rfl⟩ := List.append_of_mem hmem
    have hagain : Visits next stop p (p :: l₂) := hrest.from_mem
    have hlen := congrArg List.length (hall.unique hagain)
    simp only [List.length_cons, List.length_append] at hlen
    omega

theorem Visits.ne_stop {next : α → α} {stop p q : α} {l : List α} (h : Visits next stop p l)
    (hq : q ∈ l) : q ≠ stop := by
  induction l generalizing p with
  | nil => exact absurd hq List.not_mem_nil
  | cons r l ih =>
    obtain ⟨rfl, hne, hrest⟩ := h
    rcases List.mem_cons.mp hq with rfl | hq
    · exact hne
    · exact ih hrest hq

end Chains
