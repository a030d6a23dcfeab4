import Mathlib

/-!
# Cutting lists

A list that is the concatenation of the images of another list can be cut at any
of its elements; the cut passes through one of the images.  Elements that carry the bound on
their left span the intervals between these bounds.

## Key results

- `exists_flatMap_cut`: the cut at an element
- `exists_sorted_cut`: the cut of a sorted list at a bound
- `spans_flatMap`: the intervals of a refinement
-/

namespace Lists

variable {α β γ : Type}

/-- An element of a concatenation lies in one of the parts. -/
theorem exists_flatMap_cut {f : α → List β} {l : List α} {A B : List β} {b : β}
    (h : l.flatMap f = A ++ b :: B) :
    ∃ L x R A' B', l = L ++ x :: R ∧ f x = A' ++ b :: B' ∧ A = L.flatMap f ++ A' ∧
      B = B' ++ R.flatMap f := by
  induction l generalizing A with
  | nil =>
    rw [List.flatMap_nil] at h
    exact absurd (congrArg List.length h) (by simp)
  | cons x l ih =>
    rw [List.flatMap_cons] at h
    rcases List.append_eq_append_iff.mp h with ⟨A', hA, hl⟩ | ⟨C, hx, hB⟩
    · obtain ⟨L, y, R, A'', B', rfl, hy, rfl, rfl⟩ := ih hl
      exact ⟨x :: L, y, R, A'', B', rfl, hy, by rw [hA, List.flatMap_cons, List.append_assoc], rfl⟩
    · cases C with
      | nil =>
        rw [List.append_nil] at hx
        obtain ⟨L, y, R, A'', B', rfl, hy, hnil, rfl⟩ := ih (A := []) hB.symm
        obtain ⟨hL, rfl⟩ := List.append_eq_nil_iff.mp hnil.symm
        refine ⟨x :: L, y, R, [], B', rfl, hy, ?_, rfl⟩
        rw [List.flatMap_cons, hL, hx, List.append_nil, List.append_nil]
      | cons c C =>
        obtain ⟨rfl, rfl⟩ := List.cons.inj hB
        exact ⟨[], x, l, A, C, rfl, hx, rfl, rfl⟩

/-- A list sorted by `m` splits into the elements below a bound and the others. -/
theorem exists_sorted_cut {m : α → Nat} {l : List α} (h : l.Pairwise fun a b => m a < m b)
    (k : Nat) : ∃ A B, l = A ++ B ∧ (∀ a ∈ A, m a < k) ∧ ∀ b ∈ B, k ≤ m b := by
  induction l with
  | nil => exact ⟨[], [], rfl, by simp, by simp⟩
  | cons a l ih =>
    obtain ⟨h1, h2⟩ := List.pairwise_cons.mp h
    by_cases ha : m a < k
    · obtain ⟨A, B, rfl, hA, hB⟩ := ih h2
      refine ⟨a :: A, B, rfl, fun b hb => ?_, hB⟩
      rcases List.mem_cons.mp hb with rfl | hb
      · exact ha
      · exact hA b hb
    · refine ⟨[], a :: l, rfl, by simp, fun b hb => ?_⟩
      rcases List.mem_cons.mp hb with rfl | hb
      · omega
      · have := h1 b hb
        omega

/-- The cut at a position -/
theorem exists_cut_at {l : List α} {n : Nat} (h : n < l.length) :
    ∃ A a B, l = A ++ a :: B ∧ A.length = n ∧ l.take n = A ∧ l[n]? = some a ∧
      l.drop n = a :: B ∧ l.drop (n + 1) = B := by
  refine ⟨l.take n, l[n], l.drop (n + 1), ?_, ?_, rfl, List.getElem?_eq_getElem h, ?_, rfl⟩
  · rw [List.getElem_cons_drop, List.take_append_drop]
  · rw [List.length_take]; omega
  · rw [List.getElem_cons_drop]

/-- A nonempty part in front has a last element. -/
theorem eq_append_singleton {l : List α} (h : l ≠ []) : ∃ A a, l = A ++ [a] :=
  ⟨l.dropLast, l.getLast h, (List.dropLast_append_getLast h).symm⟩

/-- Elements of different parts have different images when all images differ. -/
theorem ne_of_nodup_map {f : α → β} {A B : List α} (h : ((A ++ B).map f).Nodup) {a b : α}
    (ha : a ∈ A) (hb : b ∈ B) : f a ≠ f b := by
  rw [List.map_append] at h
  exact (List.nodup_append.mp h).2.2 _ (List.mem_map_of_mem ha) _ (List.mem_map_of_mem hb)

/-- A permutation of an image is the image of a permutation. -/
theorem exists_perm_map {f : α → β} {l : List α} {m : List β} (h : (l.map f).Perm m) :
    ∃ l' : List α, l'.Perm l ∧ l'.map f = m := by
  induction m generalizing l with
  | nil =>
    have hnil : l = [] := List.map_eq_nil_iff.mp h.eq_nil
    exact ⟨[], by rw [hnil], rfl⟩
  | cons b m ih =>
    obtain ⟨a, ha, rfl⟩ := List.mem_map.mp (h.mem_iff.mpr (List.mem_cons_self ..))
    obtain ⟨A, B, rfl⟩ := List.append_of_mem ha
    have hmid : ((A ++ B).map f).Perm m := by
      rw [List.map_append, List.map_cons] at h
      rw [List.map_append]
      exact (List.perm_middle.symm.trans h).cons_inv
    obtain ⟨l', hl', rfl⟩ := ih hmid
    exact ⟨a :: l', (hl'.cons a).trans List.perm_middle.symm, rfl⟩

/-- A property that one element of a list without repetition loses -/
theorem countP_erase_one {P Q : α → Bool} {l : List α} {a : α} (hnodup : l.Nodup) (ha : a ∈ l)
    (hP : P a = true) (hQ : Q a = false) (hother : ∀ b, b ≠ a → Q b = P b) :
    l.countP Q + 1 = l.countP P := by
  obtain ⟨A, B, rfl⟩ := List.append_of_mem ha
  obtain ⟨-, hB, hAB⟩ := List.nodup_append.mp hnodup
  have hA : A.countP Q = A.countP P := List.countP_congr fun b hb => by
    rw [hother b fun h => hAB b hb a (List.mem_cons_self ..) h]
  have hB : B.countP Q = B.countP P := List.countP_congr fun b hb => by
    rw [hother b fun h => (List.nodup_cons.mp hB).1 (h ▸ hb)]
  rw [List.countP_append, List.countP_append, List.countP_cons_of_pos hP,
    List.countP_cons_of_neg (by simp [hQ]), hA, hB]
  omega

/-- A change at one element of a list without repetition -/
theorem countP_le_succ {P Q : α → Bool} {l : List α} {a : α} (hnodup : l.Nodup)
    (hother : ∀ b, b ≠ a → Q b = P b) : l.countP P ≤ l.countP Q + 1 := by
  by_cases hlost : a ∈ l ∧ P a = true ∧ Q a = false
  · obtain ⟨ha, hP, hQ⟩ := hlost
    rw [countP_erase_one hnodup ha hP hQ hother]
  · apply Nat.le_succ_of_le
    apply List.countP_mono_left
    intro b hb hP
    by_cases hba : b = a
    · subst hba
      by_contra hQ
      exact hlost ⟨hb, hP, Bool.not_eq_true _ ▸ hQ⟩
    · rw [hother b hba]
      exact hP

/-! ## Intervals -/

/-- The bound in front of a list, `last` in front of the empty one -/
def headBound (f : α → β) : List α → β → β
  | [], last => last
  | a :: _, _ => f a

/-- Every element with the bound on its right, `last` for the last one -/
def spans (f : α → β) : List α → β → List (α × β)
  | [], _ => []
  | a :: l, last => (a, headBound f l last) :: spans f l last

theorem headBound_append (f : α → β) (A B : List α) (last : β) :
    headBound f (A ++ B) last = headBound f A (headBound f B last) := by
  cases A <;> rfl

theorem spans_append (f : α → β) (A B : List α) (last : β) :
    spans f (A ++ B) last = spans f A (headBound f B last) ++ spans f B last := by
  induction A with
  | nil => rfl
  | cons a A ih => rw [List.cons_append, spans, spans, headBound_append, ih, List.cons_append]

theorem headBound_map (f : β → γ) (g : α → β) (l : List α) (last : γ) :
    headBound f (l.map g) last = headBound (f ∘ g) l last := by
  cases l <;> rfl

theorem spans_map (f : β → γ) (g : α → β) (l : List α) (last : γ) :
    spans f (l.map g) last = (spans (f ∘ g) l last).map fun x => (g x.1, x.2) := by
  induction l with
  | nil => rfl
  | cons a l ih => rw [List.map_cons, spans, spans, headBound_map, ih, List.map_cons]

theorem mem_of_mem_spans {f : α → β} {l : List α} {last : β} {x : α × β}
    (h : x ∈ spans f l last) : x.1 ∈ l := by
  induction l with
  | nil => exact absurd h (List.not_mem_nil)
  | cons a l ih =>
    rcases List.mem_cons.mp h with rfl | h
    · exact List.mem_cons_self ..
    · exact List.mem_cons_of_mem _ (ih h)

theorem exists_mem_spans (f : α → β) {l : List α} (last : β) {a : α} (h : a ∈ l) :
    ∃ b, (a, b) ∈ spans f l last := by
  obtain ⟨A, B, rfl⟩ := List.append_of_mem h
  rw [spans_append]
  exact ⟨_, List.mem_append_right _ (List.mem_cons_self ..)⟩

theorem headBound_flatMap {f : α → β} {g : γ → β} {parts : γ → List α}
    (hparts : ∀ x last, headBound f (parts x) last = g x) (l : List γ) (last : β) :
    headBound f (l.flatMap parts) last = headBound g l last := by
  cases l with
  | nil => rfl
  | cons x l => rw [List.flatMap_cons, headBound_append, hparts, headBound]

/-- When every part begins at the bound of its whole, the intervals of the parts divide the
    intervals of the wholes. -/
theorem spans_flatMap {f : α → β} {g : γ → β} {parts : γ → List α}
    (hparts : ∀ x last, headBound f (parts x) last = g x) (l : List γ) (last : β) :
    spans f (l.flatMap parts) last = (spans g l last).flatMap fun x => spans f (parts x.1) x.2 := by
  induction l with
  | nil => rfl
  | cons x l ih =>
    rw [List.flatMap_cons, spans_append, headBound_flatMap hparts, ih, spans, List.flatMap_cons]

end Lists
