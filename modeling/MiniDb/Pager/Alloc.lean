import MiniDb.Lib.Chains
import MiniDb.Pager.Logic

/-!
# The page allocator

`Alloc db used`: every page id handed out so far is either in `used` or on the free
list, once in all, and the free list is the chain that starts at `free_page_head`.
`pager_alloc_page` moves a page into `used` and `pager_free_page` moves one out of it.

## Key results

- `pagerAllocPage_spec`, `pagerFreePage_spec`
- `Alloc.congr`: the allocator does not depend on the bytes of used pages
-/

namespace MiniDb

open Bytes Chains

/-- The fields the allocator leaves alone, with its own two blanked out -/
def Db.core (db : Db) : PagerFields :=
  { db.fields with header := { db.header with nextPageId := 0, freePageHead := 0 } }

section Core

variable {db db' : Db}

theorem core_root (h : db'.core = db.core) :
    db'.header.rootIndexPageId = db.header.rootIndexPageId :=
  congrArg (fun f => f.header.rootIndexPageId) h

theorem core_pageSize (h : db'.core = db.core) : db'.fields.pageSize = db.fields.pageSize :=
  congrArg (fun f => f.pageSize) h

theorem core_ps (h : db'.core = db.core) : db'.ps = db.ps :=
  congrArg UInt32.toNat (core_pageSize h)

theorem core_lastHeap (h : db'.core = db.core) :
    db'.fields.lastHeapPageId = db.fields.lastHeapPageId :=
  congrArg (fun f => f.lastHeapPageId) h

@[simp] theorem setPage_core (db : Db) (pid : PageId) (pg : Page) :
    (db.setPage pid pg).core = db.core := rfl

end Core

/-! ## The free list -/

/-- The free pages chained from `head`, in list order -/
def FreeChain (ps : Nat) (pages : PageId → Page) : PageId → List PageId → Prop
  | head, [] => head = 0
  | head, p :: l => head = p ∧ p ≠ 0 ∧ pageType (pages p) = PageType.free.code ∧
      (pages p).length = ps ∧ FreeChain ps pages (freePageHeaderC.get (pages p) 0).nextFreePage l

theorem FreeChain.congr {ps : Nat} {pages pages' : PageId → Page} {head : PageId}
    {l : List PageId} (h : FreeChain ps pages head l) (hp : ∀ p ∈ l, pages' p = pages p) :
    FreeChain ps pages' head l := by
  induction l generalizing head with
  | nil => exact h
  | cons p l ih =>
    obtain ⟨h1, h2, h3, h4, h5⟩ := h
    have hpp := hp p (List.mem_cons_self ..)
    refine ⟨h1, h2, ?_, ?_, ?_⟩
    · rw [hpp]; exact h3
    · rw [hpp]; exact h4
    · rw [hpp]
      exact ih h5 fun q hq => hp q (List.mem_cons_of_mem _ hq)

theorem FreeChain.next_mem {ps : Nat} {pages : PageId → Page} {head : PageId}
    {l : List PageId} (h : FreeChain ps pages head l) {p : PageId} (hp : p ∈ l) :
    (freePageHeaderC.get (pages p) 0).nextFreePage = 0 ∨
      (freePageHeaderC.get (pages p) 0).nextFreePage ∈ l := by
  induction l generalizing head with
  | nil => simp at hp
  | cons q l ih =>
    have h5 := h.2.2.2.2
    rcases List.mem_cons.mp hp with rfl | hp
    · cases l with
      | nil => exact Or.inl h5
      | cons r l => exact Or.inr (List.mem_cons_of_mem _ (by rw [h5.1]; exact List.mem_cons_self ..))
    · exact (ih h5 hp).imp id (List.mem_cons_of_mem _)

theorem FreeChain.head_mem {ps : Nat} {pages : PageId → Page} {head : PageId}
    {l : List PageId} (h : FreeChain ps pages head l) (hh : head ≠ 0) : head ∈ l := by
  cases l with
  | nil => exact absurd h hh
  | cons p l => rw [h.1]; exact List.mem_cons_self ..

theorem FreeChain.types {ps : Nat} {pages : PageId → Page} {head : PageId}
    {l : List PageId} (h : FreeChain ps pages head l) {p : PageId} (hp : p ∈ l) :
    pageType (pages p) = PageType.free.code := by
  induction l generalizing head with
  | nil => simp at hp
  | cons q l ih =>
    rcases List.mem_cons.mp hp with rfl | hp
    · exact h.2.2.1
    · exact ih h.2.2.2.2 hp

/-! ## Accounting -/

/-- Different page ids other than 0 and below a bound -/
theorem length_lt_of_ids {l : List PageId} {bound : Nat} (hbound : 0 < bound) (h : l.Nodup)
    (hids : ∀ p ∈ l, p ≠ 0 ∧ p.toNat < bound) : l.length < bound := by
  have hnodup : (l.map UInt32.toNat).Nodup := h.map fun a b hab => UInt32.toNat_inj.mp hab
  have hsub : (l.map UInt32.toNat).toFinset ⊆ Finset.Ioo 0 bound := by
    intro n hn
    obtain ⟨p, hp, rfl⟩ := List.mem_map.mp (List.mem_toFinset.mp hn)
    obtain ⟨hne, hlt⟩ := hids p hp
    have hp0 : p.toNat ≠ 0 := fun hp0 => hne (UInt32.toNat_inj.mp hp0)
    exact Finset.mem_Ioo.mpr ⟨Nat.pos_of_ne_zero hp0, hlt⟩
  have hcard := Finset.card_le_card hsub
  rw [List.toFinset_card_of_nodup hnodup, List.length_map, Nat.card_Ioo] at hcard
  omega

theorem length_lt_of_nodup {l : List PageId} (h : l.Nodup) (h0 : ∀ p ∈ l, p ≠ 0) :
    l.length < 2 ^ 32 :=
  length_lt_of_ids (by decide) h fun p hp => ⟨h0 p hp, p.toNat_lt⟩

/-- One more than the largest page id handed out so far -/
def idBound (db : Db) : Nat :=
  if db.header.nextPageId = 0 then 2 ^ 32 else db.header.nextPageId.toNat

/-- `next_free_page` of a free page -/
def nextFree (db : Db) (pid : PageId) : PageId :=
  (freePageHeaderC.get (db.pages pid) 0).nextFreePage

/-- The free list -/
def freePages (db : Db) : List PageId :=
  follow (nextFree db) 0 maxPages db.header.freePageHead

theorem FreeChain.visits {db : Db} {head : PageId} {l : List PageId}
    (h : FreeChain db.ps db.pages head l) : Visits (nextFree db) 0 head l := by
  induction l generalizing head with
  | nil => exact h
  | cons p l ih =>
    obtain ⟨rfl, hne, -, -, hrest⟩ := h
    exact ⟨rfl, hne, ih hrest⟩

structure AllocWith (db : Db) (used free : List PageId) : Prop where
  chain : FreeChain db.ps db.pages db.header.freePageHead free
  nodup : (used ++ free).Nodup
  ids : ∀ p, p ∈ used ++ free ↔ p ≠ 0 ∧ p.toNat < idBound db

/-- Every page id handed out so far is used or free. -/
def Alloc (db : Db) (used : List PageId) : Prop := ∃ free, AllocWith db used free

/-- The free list is the list of the allocator. -/
theorem AllocWith.freePages_eq {db : Db} {used free : List PageId} (h : AllocWith db used free) :
    freePages db = free := by
  apply h.chain.visits.follow_eq
  apply Nat.le_of_lt
  apply length_lt_of_nodup (List.nodup_append.mp h.nodup).2.1
  exact fun p hp => ((h.ids p).mp (List.mem_append_right _ hp)).1

theorem AllocWith.freeReach_mem {db : Db} {used free : List PageId} (h : AllocWith db used free)
    {p : PageId} (hp : FreeReach db p) : p ∈ free := by
  induction hp with
  | head hh => exact h.chain.head_mem hh
  | next _ hn ih => exact (h.chain.next_mem ih).resolve_left hn

/-- The allocator looks only at its header fields and at the free pages. -/
theorem AllocWith.congr {db db' : Db} {used free : List PageId} (h : AllocWith db used free)
    (hn : db'.header.nextPageId = db.header.nextPageId)
    (hf : db'.header.freePageHead = db.header.freePageHead) (hps : db'.ps = db.ps)
    (hpages : ∀ p ∈ free, db'.pages p = db.pages p) : AllocWith db' used free := by
  refine ⟨?_, h.nodup, ?_⟩
  · rw [hf, hps]
    exact h.chain.congr hpages
  · simpa only [idBound, hn] using h.ids

theorem AllocWith.perm {db : Db} {used used' free : List PageId} (h : AllocWith db used free)
    (hp : used'.Perm used) : AllocWith db used' free := by
  have hperm : (used' ++ free).Perm (used ++ free) := hp.append_right free
  exact ⟨h.chain, hperm.nodup_iff.mpr h.nodup, fun p => by rw [hperm.mem_iff]; exact h.ids p⟩

namespace Alloc

variable {db db' : Db} {used : List PageId}

theorem nodup (h : Alloc db used) : used.Nodup := by
  obtain ⟨free, h⟩ := h
  exact (List.nodup_append.mp h.nodup).1

theorem ne_zero (h : Alloc db used) {p : PageId} (hp : p ∈ used) : p ≠ 0 := by
  obtain ⟨free, h⟩ := h
  exact ((h.ids p).mp (List.mem_append_left _ hp)).1

theorem not_freeReach (h : Alloc db used) {p : PageId} (hp : p ∈ used) : ¬ FreeReach db p := by
  obtain ⟨free, h⟩ := h
  intro hr
  exact (List.nodup_append.mp h.nodup).2.2 p hp p (h.freeReach_mem hr) rfl

/-- The allocator looks only at its header fields and at the free pages. -/
theorem congr (h : Alloc db used) (hn : db'.header.nextPageId = db.header.nextPageId)
    (hf : db'.header.freePageHead = db.header.freePageHead) (hps : db'.ps = db.ps)
    (hpages : ∀ p, p ∉ used → db'.pages p = db.pages p) : Alloc db' used := by
  obtain ⟨free, h⟩ := h
  refine ⟨free, h.congr hn hf hps fun p hp => hpages p fun hu => ?_⟩
  exact (List.nodup_append.mp h.nodup).2.2 p hu p hp rfl

theorem setPage (h : Alloc db used) {pid : PageId} (pg : Page) (hp : pid ∈ used) :
    Alloc (db.setPage pid pg) used :=
  h.congr rfl rfl rfl fun _ hp' => db.setPage_pages_ne pg fun he => hp' (he ▸ hp)

theorem setHeader (h : Alloc db used) (hdr : DbHeader)
    (hn : hdr.nextPageId = db.header.nextPageId)
    (hf : hdr.freePageHead = db.header.freePageHead) : Alloc (db.setHeader hdr) used :=
  h.congr hn hf rfl fun _ _ => rfl

/-- There are fewer pages than page ids. -/
theorem length_lt (h : Alloc db used) : used.length < 2 ^ 32 :=
  length_lt_of_nodup h.nodup fun _ hp => h.ne_zero hp

theorem perm (h : Alloc db used) {used' : List PageId} (hp : used'.Perm used) :
    Alloc db used' := by
  obtain ⟨free, h⟩ := h
  exact ⟨free, h.perm hp⟩

end Alloc

/-- The page ids suffice for `n` pages, or running out of them is tolerated. -/
structure IdsFor (tol : Fault → Prop) (n : Nat) : Prop where
  headerPage : ¬ tol .headerPage
  enough : tol .idsExhausted ∨ n < 2 ^ 32

theorem IdsFor.exhausted (n : Nat) : IdsFor (· = .idsExhausted) n := ⟨nofun, Or.inl rfl⟩

theorem IdsFor.mono {tol : Fault → Prop} {m n : Nat} (h : IdsFor tol n) (hmn : m ≤ n) :
    IdsFor tol m := ⟨h.headerPage, h.enough.imp_right fun hn => Nat.lt_of_le_of_lt hmn hn⟩

/-- A list with all page ids below a bound -/
theorem le_length_of_ids {l : List PageId} {bound : Nat} (hbound : bound ≤ 2 ^ 32)
    (h : ∀ p : PageId, p ≠ 0 → p.toNat < bound → p ∈ l) : bound ≤ l.length + 1 := by
  have hsub : Finset.Ioo 0 bound ⊆ (l.map UInt32.toNat).toFinset := by
    intro n hn
    obtain ⟨hpos, hlt⟩ := Finset.mem_Ioo.mp hn
    have hval : (UInt32.ofNat n).toNat = n :=
      UInt32.toNat_ofNat_of_lt' (Nat.lt_of_lt_of_le hlt hbound)
    rw [List.mem_toFinset, List.mem_map]
    refine ⟨UInt32.ofNat n, h _ (fun hzero => ?_) (by rwa [hval]), hval⟩
    rw [hzero] at hval
    exact absurd hval (Nat.ne_of_lt hpos)
  have hcard := (Finset.card_le_card hsub).trans (List.toFinset_card_le _)
  rw [Nat.card_Ioo, List.length_map] at hcard
  omega

/-- When all page ids are in use there are `2 ^ 32 - 1` of them. -/
theorem length_of_all_ids {l : List PageId} (h : ∀ p : PageId, p ≠ 0 → p ∈ l) :
    2 ^ 32 ≤ l.length + 1 := le_length_of_ids (Nat.le_refl _) fun p hp _ => h p hp

/-! ## Allocation and release -/

theorem length_zeroPage (pageSize : UInt32) : (zeroPage pageSize).length = pageSize.toNat :=
  List.length_replicate ..

/-- `pager_alloc_page` hands out a zeroed page that is not in use: the first one of the free list,
    or the next page id when the list is empty. -/
theorem pagerAllocPage_with {db : Db} {used free : List PageId} (h : AllocWith db used free)
    (hps : 8 ≤ db.ps) {tol : Fault → Prop} (hroom : IdsFor tol (used.length + 1)) :
    wpDb pagerAllocPage db (fun pid db' =>
      pid ∉ used ∧ pid ≠ 0 ∧ pid = free.headD db.header.nextPageId ∧
        AllocWith db' (pid :: used) free.tail ∧ db'.core = db.core ∧
        db'.header.nextPageId = db.header.nextPageId + (if free = [] then 1 else 0) ∧
        db'.pages = Function.update db.pages pid (zeroPage db.fields.pageSize)) tol := by
  obtain ⟨hchain, hnodup, hids⟩ := h
  simp only [pagerAllocPage, wpDb_bind, wpDb_getFields, wpDb_ite]
  split
  next hne =>
    -- the head of the free list is taken
    cases free with
    | nil => exact absurd hchain hne
    | cons p free =>
      obtain ⟨hhead, hp0, -, hlen, htail⟩ := hchain
      have hhead' : db.fields.header.freePageHead = p := hhead
      have hpn : p ∉ free := fun hm =>
        (List.nodup_cons.mp (List.nodup_append.mp hnodup).2.1).1 hm
      have hget : freePageHeaderC.get? (db.pages p) 0 =
          some (freePageHeaderC.get (db.pages p) 0) :=
        freePageHeaderC.get?_eq_some _ _ (by rw [hlen]; exact hps)
      have hperm : (p :: (used ++ free)).Perm (used ++ p :: free) := List.perm_middle.symm
      simp only [hhead', wpDb_getPage_iff hroom.headerPage, wpDb_load, wpDb_inBounds_some hget,
        wpDb_modifyHeader, wpDb_store, wpDb_markDirty, wpDb_unpin, wpDb_pure]
      refine ⟨hp0, fun hm => (List.nodup_append.mp hnodup).2.2 p hm p (List.mem_cons_self ..) rfl,
        hp0, rfl, ⟨?_, hperm.nodup_iff.mpr hnodup, fun q => ?_⟩, rfl, ?_, rfl⟩
      · refine htail.congr fun q hq => ?_
        exact Db.setPage_pages_ne _ _ fun he => hpn (he ▸ hq)
      · rw [List.tail_cons, List.cons_append, hperm.mem_iff]
        exact hids q
      · rw [if_neg (List.cons_ne_nil p free)]
        exact (UInt32.add_zero _).symm
  next hfree =>
    -- the next id is taken
    simp only [wpDb_modifyHeader, wpDb_throw]
    have hfree0 : db.header.freePageHead = 0 := not_not.mp hfree
    have hnil : free = [] := by
      cases free with
      | nil => rfl
      | cons p free => exact absurd (hchain.1 ▸ hfree0) hchain.2.1
    subst hnil
    split
    next hnext =>
      -- all page ids are in use
      refine hroom.enough.resolve_right fun hlt => ?_
      have hbound : idBound db = 2 ^ 32 := if_pos hnext
      have hall := length_of_all_ids (l := used) fun p hp => by
        have hp' := (hids p).mpr ⟨hp, by rw [hbound]; exact p.toNat_lt⟩
        rwa [List.append_nil] at hp'
      omega
    next hnext =>
      have hnext' : db.header.nextPageId ≠ 0 := hnext
      have hbound : idBound db = db.header.nextPageId.toNat := if_neg hnext'
      have hnotin : db.header.nextPageId ∉ used := fun hm => by
        have := ((hids _).mp (List.mem_append_left _ hm)).2
        omega
      simp only [wpDb_getPage_iff hroom.headerPage, wpDb_store, wpDb_markDirty, wpDb_unpin]
      refine ⟨hnext', hnotin, hnext', rfl, ⟨hfree0, ?_, fun q => ?_⟩, rfl, rfl, rfl⟩
      · rw [List.append_nil] at hnodup
        rw [List.tail_nil, List.append_nil]
        exact List.nodup_cons.mpr ⟨hnotin, hnodup⟩
      · have hq := hids q
        rw [List.append_nil] at hq
        rw [List.tail_nil, List.append_nil, List.mem_cons, hq, hbound]
        show q = db.header.nextPageId ∨ _ ↔ q ≠ 0 ∧
          q.toNat < if db.header.nextPageId + 1 = 0 then 2 ^ 32
            else (db.header.nextPageId + 1).toNat
        have hlt := db.header.nextPageId.toNat_lt
        have hadd : (db.header.nextPageId + 1).toNat =
            (db.header.nextPageId.toNat + 1) % 2 ^ 32 := UInt32.toNat_add _ _
        have hz : db.header.nextPageId + 1 = 0 ↔ (db.header.nextPageId + 1).toNat = 0 := by
          rw [← UInt32.toNat_inj]; rfl
        have hbnd : (if db.header.nextPageId + 1 = 0 then 2 ^ 32
            else (db.header.nextPageId + 1).toNat) = db.header.nextPageId.toNat + 1 := by
          split
          next hc => have := hz.mp hc; omega
          next hc =>
            have : ¬ (db.header.nextPageId + 1).toNat = 0 := fun h => hc (hz.mpr h)
            omega
        rw [hbnd, ← UInt32.toNat_inj]
        have hq0 : q ≠ 0 ↔ q.toNat ≠ 0 := by rw [Ne, ← UInt32.toNat_inj]; rfl
        have hn0 : db.header.nextPageId.toNat ≠ 0 := by
          rw [Ne, ← UInt32.toNat_inj] at hnext'; exact hnext'
        rw [hq0]
        omega

theorem pagerAllocPage_spec {db : Db} {used : List PageId} (h : Alloc db used)
    (hps : 8 ≤ db.ps) {tol : Fault → Prop} (hroom : IdsFor tol (used.length + 1)) :
    wpDb pagerAllocPage db (fun pid db' =>
      pid ∉ used ∧ pid ≠ 0 ∧ Alloc db' (pid :: used) ∧ db'.core = db.core ∧
        db'.pages = Function.update db.pages pid (zeroPage db.fields.pageSize)) tol := by
  obtain ⟨free, h⟩ := h
  refine wpDb_mono (pagerAllocPage_with h hps hroom) fun pid db' hq => ?_
  obtain ⟨h1, h2, -, h3, h4, -, h5⟩ := hq
  exact ⟨h1, h2, ⟨free.tail, h3⟩, h4, h5⟩

/-- The page `pager_free_page` leaves behind -/
def freedPage (pageSize : UInt32) (next : PageId) : Page :=
  freePageHeaderC.put (zeroPage pageSize) 0 ⟨PageType.free.code, next⟩

/-- `pager_free_page` puts a used page in front of the free list. -/
theorem pagerFreePage_with {db : Db} {pid : PageId} {used free : List PageId}
    (h : AllocWith db (pid :: used) free) (hps : 8 ≤ db.ps) {tol : Fault → Prop} :
    wpDb (pagerFreePage pid) db (fun _ db' =>
      AllocWith db' used (pid :: free) ∧ db'.core = db.core ∧
        db'.header.nextPageId = db.header.nextPageId ∧
        db'.pages = Function.update db.pages pid
          (freedPage db.fields.pageSize db.header.freePageHead)) tol := by
  have hnot := Alloc.not_freeReach ⟨free, h⟩ (List.mem_cons_self ..)
  obtain ⟨hchain, hnodup, hids⟩ := h
  have hb : 0 + freePageHeaderC.size ≤ (zeroPage db.fields.pageSize).length := by
    rw [length_zeroPage]; exact hps
  have hput := freePageHeaderC.put?_eq_some (zeroPage db.fields.pageSize) 0
    ⟨PageType.free.code, db.fields.header.freePageHead⟩ hb
  have hpid : pid ≠ 0 := ((hids pid).mp (by simp)).1
  have hpf : pid ∉ free := fun hm => (List.nodup_cons.mp hnodup).1 (List.mem_append_right _ hm)
  have hperm : (used ++ pid :: free).Perm (pid :: (used ++ free)) := List.perm_middle
  simp only [pagerFreePage, wpDb_bind, wpDb_note, wpDb_getPage_of hpid, wpDb_getFields,
    wpDb_inBounds_some hput, wpDb_store, wpDb_markDirty, wpDb_unpin, wpDb_modifyHeader]
  -- the page becomes the head of the list and points at the old one
  refine ⟨hnot, ⟨⟨rfl, hpid, ?_, ?_, ?_⟩, hperm.nodup_iff.mpr hnodup, fun q => ?_⟩, rfl, rfl, rfl⟩
  · rw [Db.setHeader_pages, Db.setPage_pages_same]
    have := freePageHeaderC.get_put_same (zeroPage db.fields.pageSize) 0
      ⟨PageType.free.code, db.fields.header.freePageHead⟩ hb
    rw [freePageHeaderC_get] at this
    exact congrArg FreePageHeader.pageType this
  · rw [Db.setHeader_pages, Db.setPage_pages_same, freePageHeaderC.length_put _ _ _ hb,
      length_zeroPage]
    rfl
  · rw [Db.setHeader_pages, Db.setPage_pages_same, freePageHeaderC.get_put_same _ _ _ hb]
    refine hchain.congr fun q hq => ?_
    exact Db.setPage_pages_ne _ _ fun he => hpf (he ▸ hq)
  · rw [hperm.mem_iff]
    exact hids q

theorem pagerFreePage_spec {db : Db} {pid : PageId} {used : List PageId}
    (h : Alloc db (pid :: used)) (hps : 8 ≤ db.ps) {tol : Fault → Prop} :
    wpDb (pagerFreePage pid) db (fun _ db' =>
      Alloc db' used ∧ db'.core = db.core ∧
        db'.pages = Function.update db.pages pid
          (freedPage db.fields.pageSize db.header.freePageHead)) tol := by
  obtain ⟨free, h⟩ := h
  exact wpDb_mono (pagerFreePage_with h hps) fun _ db' hq => ⟨⟨pid :: free, hq.1⟩, hq.2.1, hq.2.2.2⟩

end MiniDb
