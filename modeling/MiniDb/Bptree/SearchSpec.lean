import MiniDb.Bptree.Tree

/-!
# Searching the tree

A key has one place in every row of nodes: the last node whose fence lies before it
(`IsCut`).  Walking down from the root keeps to these places, so `find_leaf` ends in
the leaf that covers the key.

## Key results

- `TreeShape.exists_cut`: every key belongs to a leaf
- `findLeaf_spec`: the descent ends in the leaf at the cut
- `bptreeSearch_spec`: the search finds exactly the stored keys
- `bptreeHeight_spec`
-/

namespace MiniDb

open Bytes Lists

/-! ## The place of a key -/

/-- The key lies at or behind the fence of `c` and before the fences of the nodes `B` on
    the right of `c`. -/
structure IsCut (key : Key) (c : Child) (B : List Child) : Prop where
  left : fenceMark c.fence < keyMark key
  right : ∀ b ∈ B, keyMark key < fenceMark b.fence

/-- The place of a key in a row gives its place in the row of the parents. -/
theorem IsCut.parent {key : Key} {lv : List Inner} {A B : List Child} {c : Child}
    (hlv : lv.flatMap Inner.children = A ++ c :: B)
    (hord : Ordered ((A ++ c :: B).map (·.fence))) (hcut : IsCut key c B) :
    ∃ L n R A' B', lv = L ++ n :: R ∧ n.children = A' ++ c :: B' ∧
      A = L.flatMap Inner.children ++ A' ∧ B = B' ++ R.flatMap Inner.children ∧
      IsCut key c B' ∧ IsCut key n.child (R.map Inner.child) := by
  obtain ⟨L, n, R, A', B', rfl, hn, rfl, rfl⟩ := exists_flatMap_cut hlv
  refine ⟨L, n, R, A', B', rfl, hn, rfl, rfl,
    ⟨hcut.left, fun b hb => hcut.right b (List.mem_append_left _ hb)⟩, ?_, fun b hb => ?_⟩
  · -- the fence of the parent is the fence of its first child
    cases A' with
    | nil =>
      have hc := (List.cons.inj hn).1
      have := hcut.left
      rwa [← hc] at this
    | cons a A' =>
      have ha : a.fence = n.fence := congrArg Child.fence (List.cons.inj hn).1.symm
      have hac : fenceMark a.fence < fenceMark c.fence := by
        simp only [List.map_append, List.map_cons, List.append_assoc] at hord
        have := (List.pairwise_append.mp hord).2.1
        exact (List.pairwise_cons.mp this).1 _ (by simp)
      have hleft := hcut.left
      rw [Inner.child_fence, ← ha]
      omega
  · obtain ⟨r, hr, rfl⟩ := List.mem_map.mp hb
    refine hcut.right ⟨r.fence, r.first⟩ (List.mem_append_right _ ?_)
    exact List.mem_flatMap.mpr ⟨r, hr, List.mem_cons_self ..⟩

theorem Ordered.of_flatMap {L R : List Inner} {n : Inner}
    (h : Ordered (((L ++ n :: R).flatMap Inner.children).map (·.fence))) :
    Ordered (n.children.map (·.fence)) := by
  refine List.Pairwise.sublist ?_ h
  rw [List.flatMap_append, List.flatMap_cons]
  exact ((List.sublist_append_left _ _).trans (List.sublist_append_right _ _)).map _

/-- A child other than the first is the right child of an entry. -/
theorem Inner.children_cut {n : Inner} {A B : List Child} {c : Child}
    (h : n.children = A ++ c :: B) :
    (A = [] ∧ c = ⟨n.fence, n.first⟩ ∧ B = n.ents.map entryChild) ∨
      ∃ lo e hi, n.ents = lo ++ e :: hi ∧ c = entryChild e ∧ B = hi.map entryChild ∧
        A = ⟨n.fence, n.first⟩ :: lo.map entryChild := by
  cases A with
  | nil =>
    obtain ⟨hc, hB⟩ := List.cons.inj h
    exact Or.inl ⟨rfl, hc.symm, hB.symm⟩
  | cons a A =>
    obtain ⟨ha, hrest⟩ := List.cons.inj h
    obtain ⟨lo, rest, hents, rfl, hrest'⟩ := List.map_eq_append_iff.mp hrest
    obtain ⟨e, hi, rfl, rfl, rfl⟩ := List.map_eq_cons_iff.mp hrest'
    exact Or.inr ⟨lo, e, hi, hents, rfl, rfl, by rw [← ha]⟩

/-- The entries on the two sides of a child -/
theorem Inner.ents_cut {n : Inner} {A B : List Child} {c : Child}
    (h : n.children = A ++ c :: B) :
    ∃ lo hi, n.ents = lo ++ hi ∧ A ++ [c] = ⟨n.fence, n.first⟩ :: lo.map entryChild ∧
      B = hi.map entryChild := by
  rcases Inner.children_cut h with ⟨rfl, rfl, rfl⟩ | ⟨lo, e, hi, hents, rfl, rfl, rfl⟩
  · exact ⟨[], n.ents, rfl, rfl, rfl⟩
  · exact ⟨lo ++ [e], hi, by rw [hents, List.append_assoc]; rfl, by simp, rfl⟩

section Search

variable {db : Db} {key : Key} {tol : Fault → Prop}

/-- The child taken is the one at the place of the key. -/
theorem internalChildForKey_spec {n : Inner} (hat : InnerAt db.ps db.pages n) {A B : List Child}
    {c : Child} (hch : n.children = A ++ c :: B) (hord : Ordered (n.children.map (·.fence)))
    (hcut : IsCut key c B) {Q : PageId → Db → Prop} (hQ : Q c.pid db) :
    wpDb (internalChildForKey n.pid (db.pages n.pid) key) db Q tol := by
  obtain ⟨par, cnt, his⟩ := hat
  have hlt := his.count_lt db.ps_lt
  have hcount := his.count
  simp only [internalChildForKey, his.header, wpDb_bind, wpDb_inBounds_some his.read, wpDb_ite]
  dsimp only at hcount ⊢
  rcases Inner.children_cut hch with ⟨-, rfl, rfl⟩ | ⟨lo, e, hi, hents, rfl, rfl, rfl⟩
  · -- the key lies before all separators
    have hidx : (internalFind ([] ++ n.ents) cnt key).toNat = 0 :=
      internalFind_append hcount (by omega) (by simp)
        fun e he => keyMark_lt_fenceMark.mp (hcut.right _ (List.mem_map_of_mem he))
    have h0 : internalFind n.ents cnt key = 0 := UInt32.toNat_inj.mp hidx
    rw [if_pos h0]
    exact hQ
  · -- the key lies behind the separator of `e`
    -- the fences of the children increase, so the separators before `e` are smaller still
    have hlo : ∀ e' ∈ lo ++ [e], e'.key ≤ key := by
      intro e' he'
      rcases List.mem_append.mp he' with he' | he'
      · have hlt' : fenceMark (some e'.key) < fenceMark (some e.key) := by
          rw [hch] at hord
          simp only [List.map_append, List.cons_append, List.map_cons, List.map_map] at hord
          exact (List.pairwise_append.mp (List.pairwise_cons.mp hord).2).2.2 _
            (List.mem_map_of_mem he') _ (List.mem_cons_self ..)
        have := hcut.left
        rw [entryChild_fence] at this
        exact fenceMark_lt_keyMark.mp (by omega)
      · rw [List.mem_singleton.mp he']
        exact fenceMark_lt_keyMark.mp hcut.left
    have hents' : n.ents = (lo ++ [e]) ++ hi := by rw [hents, List.append_assoc]; rfl
    have hidx : (internalFind n.ents cnt key).toNat = lo.length + 1 := by
      have hcount' : cnt.toNat = ((lo ++ [e]) ++ hi).length := by rw [← hents']; exact hcount
      rw [hents', ← List.length_singleton (a := e), ← List.length_append]
      exact internalFind_append hcount' (by omega) hlo
        fun e' he' => keyMark_lt_fenceMark.mp (hcut.right _ (List.mem_map_of_mem he'))
    have h0 : internalFind n.ents cnt key ≠ 0 := fun h0 => by
      rw [h0] at hidx
      exact absurd hidx (by simp)
    -- the code reads the entry at `idx - 1`
    have hpred := UInt32.toNat_pred (x := internalFind n.ents cnt key) (by omega)
    rw [hidx, Nat.add_sub_cancel] at hpred
    have hget : n.ents.getD lo.length default = e := by
      rw [hents, List.getD_eq_getElem?_getD, List.getElem?_append_right (Nat.le_refl _),
        Nat.sub_self]
      rfl
    rw [if_neg h0]
    simp only [wpDb_note, wpDb_pure, hpred, hget]
    refine ⟨?_, hQ⟩
    have hlen : n.ents.length = lo.length + hi.length + 1 := by rw [hents]; simp; omega
    simp only [EventOk, UInt32.lt_iff_toNat_lt, hpred, hcount]
    omega

/-- The descent passes the node at the place of the key in every row. -/
theorem findLeafLoop_descend {levels : List (List Inner)} {lower A B : List Child} {c : Child}
    {root : PageId} (hup : Upper db.ps db.pages lower levels root)
    (hord : Ordered (lower.map (·.fence))) (hlower : lower = A ++ c :: B) (hcut : IsCut key c B)
    (hne : ∀ n ∈ levels.flatten, n.pid ≠ 0) (n : Nat) {Q : PageId → Db → Prop}
    (hQ : wpDb (findLeafLoop key n c.pid) db Q tol) :
    wpDb (findLeafLoop key (n + levels.length) root) db Q tol := by
  -- from the row upwards: the node above the place of the key has the same place in its own row
  induction levels generalizing lower A B c n with
  | nil =>
    obtain ⟨rfl, -⟩ := hup
    rcases A with _ | ⟨a, A⟩
    · obtain ⟨rfl, -⟩ := List.cons.inj hlower
      exact hQ
    · exact absurd (congrArg List.length hlower) (by simp)
  | cons lv levels ih =>
    obtain ⟨hlv, hat, -, hup⟩ := hup
    subst hlower
    obtain ⟨L, nd, R, A', B', rfl, hnd, rfl, rfl, hcut', hcutp⟩ := hcut.parent hlv hord
    have hnd_mem : nd ∈ L ++ nd :: R := by simp
    have hord' : Ordered (((L ++ nd :: R).flatMap Inner.children).map (·.fence)) := by
      rw [hlv]; exact hord
    -- a turn of the loop goes from that node down to the row
    have hstep : wpDb (findLeafLoop key (n + 1) nd.pid) db Q tol := by
      obtain ⟨par, cnt, his⟩ := hat nd hnd_mem
      have htype : ¬ pageType (db.pages nd.pid) = PageType.leaf.code := by
        rw [his.pageType]; decide
      simp only [findLeafLoop, wpDb_bind, wpDb_getPage_of (hne nd (List.mem_append_left _ hnd_mem)),
        wpDb_load, wpDb_ite, if_neg htype]
      refine internalChildForKey_spec (hat nd hnd_mem) hnd hord'.of_flatMap hcut' ?_
      rw [wpDb_unpin]
      exact hQ
    have := ih hup hord'.upper (by rw [List.map_append, List.map_cons]) hcutp
      (fun m hm => hne m (List.mem_append_right _ hm)) (n + 1) hstep
    rw [List.length_cons]
    rwa [show n + (levels.length + 1) = n + 1 + levels.length by omega]

end Search

/-! ## The place of a key in the tree -/

/-- The key belongs to the leaf `l`, between the entries `lo` and `hi`. -/
structure KeyCut (t : Tree) (key : Key) (A B : List Leaf) (l : Leaf) (lo hi : List LeafEntry) :
    Prop where
  leaves : t.leaves = A ++ l :: B
  ents : l.ents = lo ++ hi
  cut : IsCut key l.child (B.map Leaf.child)
  below : ∀ e ∈ lo, e.key < key
  above : ∀ e ∈ hi, key ≤ e.key
  tail : ∀ e ∈ hi.tail, key < e.key
  before : ∀ e ∈ A.flatMap (·.ents), e.key < key
  after : ∀ e ∈ B.flatMap (·.ents), key < e.key

/-- The marks of the leaves around a leaf -/
theorem marks_cut {A B : List Leaf} {l : Leaf}
    (h : ((A ++ l :: B).flatMap Leaf.marks).Pairwise (· < ·)) :
    (A.flatMap Leaf.marks).Pairwise (· < ·) ∧ l.marks.Pairwise (· < ·) ∧
      (B.flatMap Leaf.marks).Pairwise (· < ·) ∧
      (∀ a ∈ A.flatMap Leaf.marks, ∀ m ∈ l.marks, a < m) ∧
      (∀ a ∈ A.flatMap Leaf.marks, ∀ b ∈ B.flatMap Leaf.marks, a < b) ∧
      ∀ m ∈ l.marks, ∀ b ∈ B.flatMap Leaf.marks, m < b := by
  rw [List.flatMap_append, List.flatMap_cons] at h
  obtain ⟨h1, h2, h3⟩ := List.pairwise_append.mp h
  obtain ⟨h4, h5, h6⟩ := List.pairwise_append.mp h2
  exact ⟨h1, h4, h5, fun a ha m hm => h3 a ha m (List.mem_append_left _ hm),
    fun a ha b hb => h3 a ha b (List.mem_append_right _ hb), h6⟩

theorem Leaf.fence_mem_marks (l : Leaf) : fenceMark l.fence ∈ l.marks := List.mem_cons_self ..

theorem Leaf.key_mem_marks {l : Leaf} {e : LeafEntry} (he : e ∈ l.ents) :
    keyMark e.key ∈ l.marks := List.mem_cons_of_mem _ (List.mem_map_of_mem he)

theorem key_mem_flatMap {ls : List Leaf} {e : LeafEntry} (he : e ∈ ls.flatMap (·.ents)) :
    keyMark e.key ∈ ls.flatMap Leaf.marks := by
  obtain ⟨l, hl, he⟩ := List.mem_flatMap.mp he
  exact List.mem_flatMap.mpr ⟨l, hl, Leaf.key_mem_marks he⟩

/-- Entries are sorted by key. -/
theorem ents_sorted {l : Leaf} (h : l.marks.Pairwise (· < ·)) :
    l.ents.Pairwise fun a b => keyMark a.key < keyMark b.key :=
  List.pairwise_map.mp (List.pairwise_cons.mp h).2

theorem fences_marks_sublist (ls : List Leaf) :
    (ls.map fun l => fenceMark l.fence).Sublist (ls.flatMap Leaf.marks) := by
  induction ls with
  | nil => exact List.Sublist.refl _
  | cons l ls ih =>
    rw [List.map_cons, List.flatMap_cons, Leaf.marks, List.cons_append]
    exact (ih.trans (List.sublist_append_right _ _)).cons_cons _

theorem keys_marks_sublist (ls : List Leaf) :
    ((ls.flatMap (·.ents)).map fun e => keyMark e.key).Sublist (ls.flatMap Leaf.marks) := by
  induction ls with
  | nil => exact List.Sublist.refl _
  | cons l ls ih =>
    rw [List.flatMap_cons, List.flatMap_cons, List.map_append, Leaf.marks, List.cons_append]
    exact ((List.Sublist.refl _).append ih).cons _

theorem ordered_of_sorted {ls : List Leaf} (h : (ls.flatMap Leaf.marks).Pairwise (· < ·)) :
    Ordered ((ls.map Leaf.child).map (·.fence)) := by
  have := h.sublist (fences_marks_sublist ls)
  rw [Ordered, List.map_map, List.pairwise_map]
  exact List.pairwise_map.mp this

namespace TreeShape

variable {db : Db} {t : Tree} {others : List PageId}

/-- The stored keys are strictly increasing. -/
theorem keys_sorted (h : TreeShape db t others) :
    t.entries.Pairwise fun a b => a.key < b.key := by
  have := List.pairwise_map.mp (h.sorted.sublist (keys_marks_sublist t.leaves))
  exact this.imp fun hab => keyMark_lt_keyMark.mp hab

theorem ordered (h : TreeShape db t others) :
    Ordered ((t.leaves.map Leaf.child).map (·.fence)) := ordered_of_sorted h.sorted

/-- Every key belongs to a leaf. -/
theorem exists_cut (h : TreeShape db t others) (key : Key) :
    ∃ A B l lo hi, KeyCut t key A B l lo hi := by
  have hfences : t.leaves.Pairwise fun a b => fenceMark a.fence < fenceMark b.fence :=
    List.pairwise_map.mp (h.sorted.sublist (fences_marks_sublist t.leaves))
  -- the last leaf whose fence is below the key; the leftmost leaf has no fence
  obtain ⟨A', B, hcut, hA', hB⟩ := exists_sorted_cut hfences (keyMark key)
  have hne : A' ≠ [] := by
    rintro rfl
    have hupper := h.upper
    rw [hcut, List.nil_append] at hupper
    cases B with
    | nil => exact hupper.ne_nil rfl
    | cons b B =>
      have hb := hB b (List.mem_cons_self ..)
      have hnone : b.fence = none := hupper.head_fence
      rw [hnone] at hb
      exact absurd hb (by simp [fenceMark, keyMark])
  obtain ⟨A, l, rfl⟩ := eq_append_singleton hne
  rw [List.append_assoc, List.singleton_append] at hcut
  have hsorted := h.sorted
  rw [hcut] at hsorted
  obtain ⟨-, hl, -, hAl, -, hlB⟩ := marks_cut hsorted
  -- and in it the last entry below the key
  obtain ⟨lo, hi, hents, hlo, hhi⟩ := exists_sorted_cut (ents_sorted hl) (keyMark key)
  have hfl : fenceMark l.fence < keyMark key := hA' l (by simp)
  refine ⟨A, B, l, lo, hi, hcut, hents, ⟨hfl, fun b hb => ?_⟩,
    fun e he => keyMark_lt_keyMark.mp (hlo e he), fun e he => keyMark_le_keyMark.mp (hhi e he),
    fun e he => ?_, fun e he => ?_, fun e he => ?_⟩
  · obtain ⟨b', hb', rfl⟩ := List.mem_map.mp hb
    have h1 := hB b' hb'
    have h2 := fenceMark_ne_keyMark b'.fence key
    rw [Leaf.child_fence]
    omega
  · -- the entries behind the first of `hi`
    cases hi with
    | nil => exact absurd he (by simp)
    | cons e' hi =>
      have hs := ents_sorted hl
      rw [hents] at hs
      have h1 := (List.pairwise_cons.mp (List.pairwise_append.mp hs).2.1).1 e he
      have h2 := hhi e' (List.mem_cons_self ..)
      exact keyMark_lt_keyMark.mp (by omega)
  · -- a leaf on the left ends below the fence
    have := hAl _ (key_mem_flatMap he) _ l.fence_mem_marks
    exact keyMark_lt_keyMark.mp (by omega)
  · -- a leaf on the right begins above the key
    obtain ⟨b, hb, heb⟩ := List.mem_flatMap.mp he
    have h1 := hB b hb
    have h2 : fenceMark b.fence < keyMark e.key := by
      obtain ⟨B₁, B₂, rfl⟩ := List.append_of_mem hb
      have hs := hsorted
      rw [show A ++ l :: (B₁ ++ b :: B₂) = (A ++ l :: B₁) ++ b :: B₂ by simp] at hs
      exact (List.pairwise_cons.mp (marks_cut hs).2.1).1 _ (List.mem_map_of_mem heb)
    exact keyMark_lt_keyMark.mp (by omega)

/-- The levels are fewer than the pages. -/
theorem levels_lt (h : TreeShape db t others) : t.levels.length + 1 < maxPages := by
  have hlen := h.alloc.length_lt
  have hleaves : t.leaves.length ≠ 0 := fun h0 => h.upper.ne_nil (by
    rw [List.length_eq_zero_iff.mp h0]; rfl)
  have hlevels : ∀ (levels : List (List Inner)) (lower : List Child),
      Upper db.ps db.pages lower levels db.header.rootIndexPageId →
      levels.length ≤ levels.flatten.length := by
    intro levels
    induction levels with
    | nil => intro _ _; exact Nat.zero_le _
    | cons lv levels ih =>
      intro lower hup
      have h1 := ih _ hup.2.2.2
      have h2 : lv.length ≠ 0 := fun h0 => hup.2.2.2.ne_nil (by
        rw [List.length_eq_zero_iff.mp h0]; rfl)
      rw [List.flatten_cons, List.length_append, List.length_cons]
      omega
  have := hlevels _ _ h.upper
  simp only [Tree.pids, Tree.inners, List.length_append, List.length_map] at hlen
  simp only [maxPages]
  omega

end TreeShape

/-! ## Search -/

/-- The row a key is mapped to -/
def lookup (es : List LeafEntry) (key : Key) : Option RowRef :=
  (es.find? fun e => e.key = key).map (·.rowRef)

namespace KeyCut

variable {t : Tree} {key : Key} {A B : List Leaf} {l : Leaf} {lo hi : List LeafEntry}

theorem mem (h : KeyCut t key A B l lo hi) : l ∈ t.leaves := by rw [h.leaves]; simp

theorem entries (h : KeyCut t key A B l lo hi) :
    t.entries = A.flatMap (·.ents) ++ (lo ++ hi) ++ B.flatMap (·.ents) := by
  rw [Tree.entries, h.leaves, List.flatMap_append, List.flatMap_cons, h.ents]
  simp only [List.append_assoc]

/-- The key is stored exactly if it is the first one not before the cut. -/
theorem mem_keys_iff (h : KeyCut t key A B l lo hi) :
    (∃ e ∈ t.entries, e.key = key) ↔ ∃ e hi', hi = e :: hi' ∧ e.key = key := by
  have hl : ∀ e ∈ lo, e.key ≠ key := fun e he => UInt64.ne_of_lt (h.below e he)
  constructor
  · rintro ⟨e, he, hkey⟩
    rw [h.entries, List.mem_append, List.mem_append, List.mem_append] at he
    rcases he with (he | he | he) | he
    · exact absurd hkey (UInt64.ne_of_lt (h.before e he))
    · exact absurd hkey (hl e he)
    · cases hi with
      | nil => exact absurd he (by simp)
      | cons e' hi =>
        rcases List.mem_cons.mp he with rfl | he
        · exact ⟨e, hi, rfl, hkey⟩
        · exact absurd hkey.symm (UInt64.ne_of_lt (h.tail e he))
    · exact absurd hkey.symm (UInt64.ne_of_lt (h.after e he))
  · rintro ⟨e, hi', rfl, hkey⟩
    exact ⟨e, by rw [h.entries]; simp, hkey⟩

theorem lookup_eq (h : KeyCut t key A B l lo hi) :
    lookup t.entries key =
      (hi.head?.filter fun e => e.key = key).map (·.rowRef) := by
  have hnone : ∀ es : List LeafEntry, (∀ e ∈ es, e.key ≠ key) →
      es.find? (fun e => e.key = key) = none := fun es hes =>
    List.find?_eq_none.mpr fun e he => by simpa using hes e he
  have hA := hnone _ fun e he => UInt64.ne_of_lt (h.before e he)
  have hlo := hnone _ fun e he => UInt64.ne_of_lt (h.below e he)
  have hB := hnone _ fun e he => (UInt64.ne_of_lt (h.after e he)).symm
  have htail := hnone _ fun e he => (UInt64.ne_of_lt (h.tail e he)).symm
  rw [lookup, h.entries, List.find?_append, List.find?_append, List.find?_append, hA, hlo, hB]
  cases hi with
  | nil => rfl
  | cons e hi =>
    rw [List.tail_cons] at htail
    by_cases he : e.key = key
    · simp [he]
    · simp [he, htail]

end KeyCut

section TreeSearch

variable {db : Db} {t : Tree} {others : List PageId} {key : Key} {A B : List Leaf} {l : Leaf}
  {lo hi : List LeafEntry}

/-- `find_leaf` returns the leaf the key belongs to. -/
theorem findLeaf_spec (h : TreeShape db t others) (hcut : KeyCut t key A B l lo hi)
    {tol : Fault → Prop} {Q : PageId → Db → Prop} (hQ : Q l.pid db) :
    wpDb (findLeaf key) db Q tol := by
  simp only [findLeaf, wpDb_bind, wpDb_getHeader]
  have hlt := h.levels_lt
  rw [show maxPages = (maxPages - t.levels.length - 1 + 1) + t.levels.length by omega]
  have hlower : t.leaves.map Leaf.child = A.map Leaf.child ++ l.child :: B.map Leaf.child := by
    rw [hcut.leaves, List.map_append, List.map_cons]
  refine findLeafLoop_descend h.upper h.ordered hlower hcut.cut ?_ _ ?_
  · exact fun n hn => h.ne_zero (List.mem_append_right _ (List.mem_map_of_mem hn))
  · have htype := h.leaf_type hcut.mem
    have hne := h.ne_zero (List.mem_append_left _ (List.mem_map_of_mem hcut.mem))
    simp only [findLeafLoop, wpDb_bind, wpDb_getPage_of hne, wpDb_load, wpDb_ite, Leaf.child_pid,
      if_pos htype, wpDb_unpin, wpDb_pure]
    exact hQ

/-- The leaf the key belongs to, and where `leaf_find` ends in it -/
theorem leafFind_cut (h : TreeShape db t others) (hcut : KeyCut t key A B l lo hi) :
    ∃ par cnt, LeafIs db.ps (db.pages l.pid)
        ⟨PageType.leaf.code, par, cnt, firstPid B 0, lastPid A 0⟩ (lo ++ hi) ∧
      (leafFind (lo ++ hi) cnt key).toNat = lo.length := by
  have hchain := h.chain
  rw [hcut.leaves] at hchain
  obtain ⟨par, cnt, his⟩ := (LeafChain.cut_iff.mp hchain).2.1
  rw [hcut.ents] at his
  have hlt := his.count_lt db.ps_lt
  have hcount := his.count
  exact ⟨par, cnt, his, leafFind_append hcount (by dsimp only at hcount; omega) hcut.below hcut.above⟩

/-- Whether the search has hit: the test of the source in terms of the cut -/
theorem hit_iff {cnt idx : UInt32} (hcount : cnt.toNat = (lo ++ hi).length)
    (hidx : idx.toNat = lo.length) :
    (idx < cnt ∧ ((lo ++ hi).getD idx.toNat default).key = key) ↔
      ∃ e hi', hi = e :: hi' ∧ e.key = key := by
  rw [UInt32.lt_iff_toNat_lt, hcount, hidx, List.length_append, List.getD_eq_getElem?_getD,
    List.getElem?_append_right (Nat.le_refl _), Nat.sub_self]
  cases hi with
  | nil => simp
  | cons e hi => simp

/-- `bptree_search` finds exactly the stored keys and changes nothing. -/
theorem bptreeSearch_spec (h : TreeShape db t others) (key : Key) {tol : Fault → Prop} :
    wpDb (bptreeSearch key) db (fun r db' => db' = db ∧ r = lookup t.entries key) tol := by
  obtain ⟨A, B, l, lo, hi, hcut⟩ := h.exists_cut key
  obtain ⟨par, cnt, his, hidx⟩ := leafFind_cut h hcut
  have hcount := his.count
  simp only [bptreeSearch, wpDb_bind]
  refine findLeaf_spec h hcut ?_
  simp only [wpDb_getPage_of (h.ne_zero (TreeShape.leaf_mem_pids hcut.mem)), wpDb_load,
    his.header, wpDb_inBounds_some his.read, wpDb_unpin, wpDb_ite, wpDb_pure]
  rw [hcut.lookup_eq]
  split
  next hhit =>
    obtain ⟨e, hi', rfl, hkey⟩ := (hit_iff hcount hidx).mp hhit
    refine ⟨trivial, ?_⟩
    rw [hidx, List.getD_eq_getElem?_getD, List.getElem?_append_right (Nat.le_refl _),
      Nat.sub_self]
    simp [hkey]
  next hmiss =>
    refine ⟨trivial, ?_⟩
    cases hi with
    | nil => rfl
    | cons e hi =>
      have hkey : e.key ≠ key := fun hkey => hmiss ((hit_iff hcount hidx).mpr ⟨e, hi, rfl, hkey⟩)
      simp [hkey]

/-! ## Height -/

theorem bptreeHeightLoop_descend {levels : List (List Inner)} {lower : List Child} {c : Child}
    {root : PageId} (hup : Upper db.ps db.pages (c :: lower) levels root)
    (hne : ∀ n ∈ levels.flatten, n.pid ≠ 0) (n m : Nat) {Q : Nat → Db → Prop}
    {tol : Fault → Prop} (hQ : wpDb (bptreeHeightLoop n (m + levels.length) c.pid) db Q tol) :
    wpDb (bptreeHeightLoop (n + levels.length) m root) db Q tol := by
  induction levels generalizing lower c n with
  | nil =>
    obtain ⟨rfl, -⟩ := List.cons.inj hup.1
    exact hQ
  | cons lv levels ih =>
    obtain ⟨hlv, hat, -, hup⟩ := hup
    cases lv with
    | nil => exact nomatch hlv
    | cons nd lv =>
      obtain ⟨rfl, -⟩ := List.cons.inj hlv
      obtain ⟨par, cnt, his⟩ := hat nd (List.mem_cons_self ..)
      have htype : ¬ pageType (db.pages nd.pid) = PageType.leaf.code := by
        rw [his.pageType]; decide
      rw [List.length_cons, show n + (levels.length + 1) = n + 1 + levels.length by omega]
      have hnd := hne nd (List.mem_append_left _ (List.mem_cons_self ..))
      refine ih hup (fun k hk => hne k (List.mem_append_right _ hk)) (n + 1) ?_
      simp only [bptreeHeightLoop, wpDb_bind, Inner.child_pid, wpDb_getPage_of hnd, wpDb_load,
        wpDb_ite, if_neg htype, wpDb_unpin, his.header]
      rw [List.length_cons, ← Nat.add_assoc] at hQ
      exact hQ

/-- `bptree_height` returns the number of levels and changes nothing. -/
theorem bptreeHeight_spec (h : TreeShape db t others) {tol : Fault → Prop} :
    wpDb bptreeHeight db (fun r db' => db' = db ∧ r = t.levels.length + 1) tol := by
  have hlt := h.levels_lt
  have hup := h.upper
  have hne : t.leaves ≠ [] := fun hnil => hup.ne_nil (by rw [hnil]; rfl)
  obtain ⟨l, ls, hleaves⟩ := List.exists_cons_of_ne_nil hne
  have hl : l ∈ t.leaves := by rw [hleaves]; exact List.mem_cons_self ..
  have htype := h.leaf_type hl
  rw [hleaves, List.map_cons] at hup
  simp only [bptreeHeight, wpDb_bind, wpDb_getHeader]
  rw [show maxPages = (maxPages - t.levels.length - 1 + 1) + t.levels.length by omega]
  refine bptreeHeightLoop_descend hup
    (fun n hn => h.ne_zero (List.mem_append_right _ (List.mem_map_of_mem hn))) _ 0 ?_
  simp only [bptreeHeightLoop, wpDb_bind, Leaf.child_pid,
    wpDb_getPage_of (h.ne_zero (TreeShape.leaf_mem_pids hl)), wpDb_load, wpDb_ite, if_pos htype,
    wpDb_unpin, wpDb_pure]
  exact ⟨trivial, by omega⟩

end TreeSearch

end MiniDb
