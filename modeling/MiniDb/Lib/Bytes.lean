import Mathlib

/-!
# Packed structures over byte lists

A C program that copies packed structures in and out of a buffer with `memcpy`
reads and writes *slices* of a byte list.  This file gives the two operations
(`slice`, `splice`), their read-over-write laws, and a `Codec`: a fixed-size
byte representation of a type together with the proof that decoding undoes
encoding.  Codecs are closed under pairing, isomorphism and fixed-length
vectors, so every packed structure is built from `u8`, `u16`, `u32`, `u64`
and the laws come for free.

## Key results

- `slice_splice_same` / `slice_splice_disj`: reading back a written range, or
  a range disjoint from it
- `Codec.get_put_same` / `Codec.get_put_disj`: the same for encoded values
- `Codec.getAt_putAt`: the array form, for records at `base + i * size`
-/

namespace Bytes

/-! ## Slices -/

/-- The `n` bytes of `bs` starting at `off` (fewer when `bs` is too short). -/
def slice (bs : List UInt8) (off n : Nat) : List UInt8 := (bs.drop off).take n

/-- `bs` with the bytes from `off` on overwritten by `xs`. -/
def splice (bs : List UInt8) (off : Nat) (xs : List UInt8) : List UInt8 :=
  bs.take off ++ xs ++ bs.drop (off + xs.length)

/-- Copy bytes out of a buffer, or nothing when they lie outside it. -/
def slice? (bs : List UInt8) (off n : Nat) : Option (List UInt8) :=
  if off + n ≤ bs.length then some (slice bs off n) else none

/-- Copy bytes into a buffer, or nothing when they do not fit. -/
def splice? (bs : List UInt8) (off : Nat) (xs : List UInt8) : Option (List UInt8) :=
  if off + xs.length ≤ bs.length then some (splice bs off xs) else none

theorem length_slice (bs : List UInt8) (off n : Nat) (h : off + n ≤ bs.length) :
    (slice bs off n).length = n := by
  simp only [slice, List.length_take, List.length_drop]
  omega

theorem length_of_slice? {bs xs : List UInt8} {off n : Nat} (h : slice? bs off n = some xs) :
    xs.length = n := by
  unfold slice? at h
  split at h
  next hin => exact Option.some.inj h ▸ length_slice bs off n hin
  next => exact nomatch h

theorem length_splice (bs : List UInt8) (off : Nat) (xs : List UInt8)
    (h : off + xs.length ≤ bs.length) : (splice bs off xs).length = bs.length := by
  simp only [splice, List.length_append, List.length_take, List.length_drop]
  omega

theorem getElem?_slice (bs : List UInt8) (off n i : Nat) :
    (slice bs off n)[i]? = if i < n then bs[off + i]? else none := by
  simp only [slice, List.getElem?_take, List.getElem?_drop]

theorem getElem?_splice (bs : List UInt8) (off : Nat) (xs : List UInt8) (i : Nat)
    (h : off + xs.length ≤ bs.length) :
    (splice bs off xs)[i]? =
      if off ≤ i ∧ i < off + xs.length then xs[i - off]? else bs[i]? := by
  have hlen : (bs.take off).length = off := by rw [List.length_take]; omega
  simp only [splice, List.append_assoc]
  rcases Nat.lt_or_ge i off with hi | hi
  · rw [List.getElem?_append_left (by omega), if_neg (by omega), List.getElem?_take,
      if_pos hi]
  · rw [List.getElem?_append_right (by omega), hlen]
    rcases Nat.lt_or_ge i (off + xs.length) with hj | hj
    · rw [List.getElem?_append_left (by omega), if_pos ⟨hi, hj⟩]
    · rw [List.getElem?_append_right (by omega), if_neg (by omega), List.getElem?_drop]
      congr 1
      omega

/-- Reading back exactly the bytes just written. -/
theorem slice_splice_same (bs : List UInt8) (off : Nat) (xs : List UInt8)
    (h : off + xs.length ≤ bs.length) : slice (splice bs off xs) off xs.length = xs := by
  apply List.ext_getElem?
  intro i
  rw [getElem?_slice, getElem?_splice bs off xs _ h]
  by_cases hi : i < xs.length
  · rw [if_pos hi, if_pos (by omega)]
    congr 1
    omega
  · rw [if_neg hi, List.getElem?_eq_none (by omega)]

/-- A write leaves every range disjoint from it alone. -/
theorem slice_splice_disj (bs : List UInt8) (off : Nat) (xs : List UInt8) (off' n : Nat)
    (h : off + xs.length ≤ bs.length) (hd : off' + n ≤ off ∨ off + xs.length ≤ off') :
    slice (splice bs off xs) off' n = slice bs off' n := by
  apply List.ext_getElem?
  intro i
  rw [getElem?_slice, getElem?_slice]
  by_cases hi : i < n
  · rw [if_pos hi, if_pos hi, getElem?_splice bs off xs _ h, if_neg (by omega)]
  · rw [if_neg hi, if_neg hi]

/-- A slice of a slice is a slice. -/
theorem slice_slice (bs : List UInt8) (off n off' n' : Nat) (h : off' + n' ≤ n) :
    slice (slice bs off n) off' n' = slice bs (off + off') n' := by
  apply List.ext_getElem?
  intro i
  simp only [getElem?_slice]
  by_cases hi : i < n'
  · rw [if_pos hi, if_pos (by omega), if_pos hi, Nat.add_assoc]
  · rw [if_neg hi, if_neg hi]

theorem take_slice (bs : List UInt8) (off n m : Nat) (h : n ≤ m) :
    (slice bs off m).take n = slice bs off n := by
  simp only [slice, List.take_take, Nat.min_eq_left h]

theorem drop_slice (bs : List UInt8) (off n m : Nat) :
    (slice bs off (n + m)).drop n = slice bs (off + n) m := by
  simp only [slice, List.drop_take, List.drop_drop, Nat.add_sub_cancel_left]

theorem slice_append_left (xs ys : List UInt8) (n : Nat) (h : n = xs.length) :
    slice (xs ++ ys) 0 n = xs := by
  subst h
  simp [slice]

/-- The slices of equal length that a list is made of -/
theorem flatten_slices (bs : List UInt8) (k n : Nat) :
    ((List.range n).map fun i => slice bs (i * k) k).flatten = bs.take (n * k) := by
  induction n with
  | zero => simp
  | succ n ih =>
    rw [List.range_succ, List.map_append, List.flatten_append, ih, Nat.succ_mul, List.take_add]
    simp [slice]

/-! ## Little-endian numbers -/

/-- The `n` low bytes of `v`, least significant first. -/
def leBytes : Nat → Nat → List UInt8
  | 0, _ => []
  | n + 1, v => UInt8.ofNat v :: leBytes n (v / 256)

/-- The number a little-endian byte list denotes. -/
def ofLeBytes : List UInt8 → Nat
  | [] => 0
  | b :: bs => b.toNat + 256 * ofLeBytes bs

@[simp] theorem length_leBytes (n v : Nat) : (leBytes n v).length = n := by
  induction n generalizing v with
  | zero => rfl
  | succ n ih => simp [leBytes, ih]

theorem ofLeBytes_leBytes (n v : Nat) : ofLeBytes (leBytes n v) = v % 256 ^ n := by
  induction n generalizing v with
  | zero => simp [leBytes, ofLeBytes, Nat.mod_one]
  | succ n ih =>
    simp only [leBytes, ofLeBytes, ih, UInt8.toNat_ofNat']
    have hpow : 256 ^ (n + 1) = 256 * 256 ^ n := by rw [Nat.pow_succ, Nat.mul_comm]
    rw [hpow, Nat.mod_mul]

/-- A number below `256 ^ n` survives the trip through its `n` bytes. -/
theorem ofLeBytes_leBytes_of_lt (n v : Nat) (h : v < 256 ^ n) :
    ofLeBytes (leBytes n v) = v := by
  rw [ofLeBytes_leBytes, Nat.mod_eq_of_lt h]

theorem ofLeBytes_lt {bs : List UInt8} {n : Nat} (h : bs.length = n) : ofLeBytes bs < 256 ^ n := by
  subst h
  induction bs with
  | nil => simp [ofLeBytes]
  | cons b bs ih =>
    have hb := b.toNat_lt
    rw [ofLeBytes, List.length_cons, Nat.pow_succ]
    omega

/-- `n` bytes survive the trip through the number they denote. -/
theorem leBytes_ofLeBytes {bs : List UInt8} {n : Nat} (h : bs.length = n) :
    leBytes n (ofLeBytes bs) = bs := by
  subst h
  induction bs with
  | nil => rfl
  | cons b bs ih =>
    have hb : b.toNat < 256 := b.toNat_lt
    have hdiv : (b.toNat + 256 * ofLeBytes bs) / 256 = ofLeBytes bs := by omega
    have hlow : UInt8.ofNat (b.toNat + 256 * ofLeBytes bs) = b := by
      apply UInt8.toNat_inj.mp
      rw [UInt8.toNat_ofNat']
      omega
    rw [List.length_cons, ofLeBytes, leBytes, hdiv, hlow, ih]

/-! ## Codecs -/

/-- A fixed-size byte representation of `α` that decoding undoes. -/
structure Codec (α : Type) where
  size : Nat
  enc : α → List UInt8
  dec : List UInt8 → α
  length_enc : ∀ a, (enc a).length = size
  dec_enc : ∀ a, dec (enc a) = a

namespace Codec

variable {α β : Type}

/-- Decode the value stored at `off`. -/
def get (c : Codec α) (bs : List UInt8) (off : Nat) : α := c.dec (slice bs off c.size)

/-- Overwrite the bytes at `off` with the encoding of `a`. -/
def put (c : Codec α) (bs : List UInt8) (off : Nat) (a : α) : List UInt8 :=
  splice bs off (c.enc a)

/-- Overwrite the bytes at `off`, or nothing when they lie outside the buffer. -/
def put? (c : Codec α) (bs : List UInt8) (off : Nat) (a : α) : Option (List UInt8) :=
  if off + c.size ≤ bs.length then some (c.put bs off a) else none

/-- Decode the value at `off`, or nothing when it lies outside the buffer. -/
def get? (c : Codec α) (bs : List UInt8) (off : Nat) : Option α :=
  if off + c.size ≤ bs.length then some (c.get bs off) else none

theorem length_put (c : Codec α) (bs : List UInt8) (off : Nat) (a : α)
    (h : off + c.size ≤ bs.length) : (c.put bs off a).length = bs.length :=
  length_splice bs off _ (by rw [c.length_enc]; exact h)

theorem get_put_same (c : Codec α) (bs : List UInt8) (off : Nat) (a : α)
    (h : off + c.size ≤ bs.length) : c.get (c.put bs off a) off = a := by
  have hlen := c.length_enc a
  simp only [get, put]
  rw [← hlen, slice_splice_same bs off _ (by omega), c.dec_enc]

theorem get_put_disj (c : Codec α) (d : Codec β) (bs : List UInt8) (off off' : Nat) (b : β)
    (h : off' + d.size ≤ bs.length) (hd : off + c.size ≤ off' ∨ off' + d.size ≤ off) :
    c.get (d.put bs off' b) off = c.get bs off := by
  simp only [get, put]
  rw [slice_splice_disj bs off' _ off c.size (by rw [d.length_enc]; exact h)
    (by rw [d.length_enc]; exact hd)]

/-- A written value leaves every disjoint range of raw bytes alone. -/
theorem slice_put_disj (d : Codec β) (bs : List UInt8) (off n off' : Nat) (b : β)
    (h : off' + d.size ≤ bs.length) (hd : off + n ≤ off' ∨ off' + d.size ≤ off) :
    slice (d.put bs off' b) off n = slice bs off n :=
  slice_splice_disj bs off' _ off n (by rw [d.length_enc]; exact h)
    (by rw [d.length_enc]; exact hd)

theorem put?_eq_some (c : Codec α) (bs : List UInt8) (off : Nat) (a : α)
    (h : off + c.size ≤ bs.length) : c.put? bs off a = some (c.put bs off a) := if_pos h

theorem put?_inv {c : Codec α} {bs bs' : List UInt8} {off : Nat} {a : α}
    (h : c.put? bs off a = some bs') : off + c.size ≤ bs.length ∧ bs' = c.put bs off a := by
  unfold put? at h
  split at h
  next hb => exact ⟨hb, (Option.some.inj h).symm⟩
  next => exact nomatch h

theorem length_put? {c : Codec α} {bs bs' : List UInt8} {off : Nat} {a : α}
    (h : c.put? bs off a = some bs') : bs'.length = bs.length := by
  obtain ⟨hb, rfl⟩ := put?_inv h
  exact c.length_put bs off a hb

theorem get?_eq_some (c : Codec α) (bs : List UInt8) (off : Nat)
    (h : off + c.size ≤ bs.length) : c.get? bs off = some (c.get bs off) := if_pos h

/-! ### Arrays of records -/

/-- The `i`-th record of an array starting at `base`. -/
def getAt (c : Codec α) (base : Nat) (bs : List UInt8) (i : Nat) : α :=
  c.get bs (base + i * c.size)

/-- Overwrite the `i`-th record of an array starting at `base`. -/
def putAt (c : Codec α) (base : Nat) (bs : List UInt8) (i : Nat) (a : α) : List UInt8 :=
  c.put bs (base + i * c.size) a

/-- `putAt`, or nothing when the record lies outside the buffer. -/
def putAt? (c : Codec α) (base : Nat) (bs : List UInt8) (i : Nat) (a : α) :
    Option (List UInt8) :=
  c.put? bs (base + i * c.size) a

/-- `getAt`, or nothing when the record lies outside the buffer. -/
def getAt? (c : Codec α) (base : Nat) (bs : List UInt8) (i : Nat) : Option α :=
  c.get? bs (base + i * c.size)

/-- The first `n` records of the array. -/
def listAt (c : Codec α) (base : Nat) (bs : List UInt8) (n : Nat) : List α :=
  (List.range n).map (c.getAt base bs)

/-- Record `i` of an array of `n` records that fits the buffer is inside it. -/
theorem record_bound (c : Codec α) {base i n len : Nat} (hi : i < n)
    (h : base + n * c.size ≤ len) : base + i * c.size + c.size ≤ len := by
  have : (i + 1) * c.size ≤ n * c.size := Nat.mul_le_mul_right _ hi
  rw [Nat.add_mul] at this
  omega

theorem length_putAt (c : Codec α) {base : Nat} {bs : List UInt8} {i n : Nat} (a : α)
    (hi : i < n) (h : base + n * c.size ≤ bs.length) :
    (c.putAt base bs i a).length = bs.length :=
  c.length_put bs _ a (c.record_bound hi h)

theorem getAt_putAt (c : Codec α) {base : Nat} {bs : List UInt8} {i n : Nat} (j : Nat) (a : α)
    (hi : i < n) (h : base + n * c.size ≤ bs.length) :
    c.getAt base (c.putAt base bs i a) j = if j = i then a else c.getAt base bs j := by
  have hb := c.record_bound hi h
  by_cases hj : j = i
  · subst hj
    rw [if_pos rfl]
    exact c.get_put_same bs _ a hb
  · rw [if_neg hj]
    refine c.get_put_disj c bs _ _ a hb ?_
    rcases Nat.lt_or_gt_of_ne hj with hlt | hgt
    · left
      have : (j + 1) * c.size ≤ i * c.size := Nat.mul_le_mul_right _ hlt
      rw [Nat.add_mul] at this
      omega
    · right
      have : (i + 1) * c.size ≤ j * c.size := Nat.mul_le_mul_right _ hgt
      rw [Nat.add_mul] at this
      omega

/-- A record write does not touch a value stored before the array. -/
theorem get_putAt_before (c : Codec α) (d : Codec β) {base off : Nat} {bs : List UInt8}
    {i n : Nat} (a : α) (hi : i < n) (h : base + n * c.size ≤ bs.length)
    (hoff : off + d.size ≤ base) : d.get (c.putAt base bs i a) off = d.get bs off :=
  d.get_put_disj c bs _ _ a (c.record_bound hi h) (by left; omega)

/-- Writing a value before the array does not touch its records. -/
theorem getAt_put_before (c : Codec α) (d : Codec β) {base off : Nat} {bs : List UInt8}
    (j : Nat) (b : β) (h : base ≤ bs.length) (hoff : off + d.size ≤ base) :
    c.getAt base (d.put bs off b) j = c.getAt base bs j :=
  c.get_put_disj d bs _ _ b (by omega) (by right; omega)

@[simp] theorem length_listAt (c : Codec α) (base : Nat) (bs : List UInt8) (n : Nat) :
    (c.listAt base bs n).length = n := by
  simp [listAt]

theorem getElem?_listAt (c : Codec α) (base : Nat) (bs : List UInt8) (n i : Nat) :
    (c.listAt base bs n)[i]? = if i < n then some (c.getAt base bs i) else none := by
  simp only [listAt, List.getElem?_map]
  by_cases hi : i < n
  · rw [if_pos hi, List.getElem?_range hi]; rfl
  · rw [if_neg hi, List.getElem?_eq_none (by simpa using hi)]; rfl

/-- Two arrays with equal records are equal as lists. -/
theorem listAt_congr (c : Codec α) {base : Nat} {bs bs' : List UInt8} {n : Nat}
    (h : ∀ i < n, c.getAt base bs i = c.getAt base bs' i) :
    c.listAt base bs n = c.listAt base bs' n :=
  List.map_congr_left (fun i hi => h i (List.mem_range.mp hi))

/-! ### Building codecs -/

/-- A pair of packed values, the second right after the first. -/
def prod (c : Codec α) (d : Codec β) : Codec (α × β) where
  size := c.size + d.size
  enc p := c.enc p.1 ++ d.enc p.2
  dec bs := (c.dec (bs.take c.size), d.dec (bs.drop c.size))
  length_enc p := by simp [c.length_enc, d.length_enc]
  dec_enc p := by
    have h1 := c.length_enc p.1
    simp [← h1, c.dec_enc, d.dec_enc]

/-- The same bytes read as another type. -/
def iso (c : Codec α) (f : α → β) (g : β → α) (hfg : ∀ b, f (g b) = b) : Codec β where
  size := c.size
  enc b := c.enc (g b)
  dec bs := f (c.dec bs)
  length_enc b := c.length_enc (g b)
  dec_enc b := by rw [c.dec_enc, hfg]

theorem get_prod (c : Codec α) (d : Codec β) (bs : List UInt8) (off : Nat) :
    (c.prod d).get bs off = (c.get bs off, d.get bs (off + c.size)) := by
  simp only [get, prod, take_slice bs off _ _ (Nat.le_add_right _ _), drop_slice]

theorem get_iso (c : Codec α) (f : α → β) (g : β → α) (hfg : ∀ b, f (g b) = b)
    (bs : List UInt8) (off : Nat) : (c.iso f g hfg).get bs off = f (c.get bs off) := rfl

/-- `n` records one after the other. -/
def vector (c : Codec α) (n : Nat) : Codec (Vector α n) where
  size := n * c.size
  enc v := (v.toList.map c.enc).flatten
  dec bs := Vector.ofFn (fun i => c.getAt 0 bs i.val)
  length_enc v := by
    have h : ∀ l : List α, ((l.map c.enc).flatten).length = l.length * c.size := by
      intro l
      induction l with
      | nil => simp
      | cons a l ih => simp [ih, c.length_enc, Nat.add_mul, Nat.add_comm]
    rw [h, Vector.length_toList]
  dec_enc v := by
    -- record `i` of the flattened encodings is the encoding of element `i`
    have key : ∀ (l : List α) (i : Nat) (hi : i < l.length),
        c.getAt 0 (l.map c.enc).flatten i = l[i] := by
      intro l
      induction l with
      | nil => intro i hi; simp at hi
      | cons a l ih =>
        intro i hi
        have hlen := c.length_enc a
        cases i with
        | zero =>
          simp only [getAt, get, List.map_cons, List.flatten_cons, Nat.zero_mul, Nat.zero_add]
          rw [slice_append_left _ _ _ hlen.symm, c.dec_enc]
          rfl
        | succ i =>
          have := ih i (by simpa using hi)
          simp only [getAt, get, List.map_cons, List.flatten_cons, slice, Nat.zero_add] at this ⊢
          rw [Nat.add_mul, Nat.one_mul, Nat.add_comm, ← List.drop_drop,
            List.drop_append_of_le_length (by omega), ← hlen, List.drop_length,
            List.nil_append, hlen, this]
          rfl
    ext i hi
    rw [Vector.getElem_ofFn, key _ i (by rw [Vector.length_toList]; exact hi),
      Vector.getElem_toList]

/-! ### Exact codecs -/

/-- Every list of bytes of the right length encodes a value. -/
def Exact (c : Codec α) : Prop := ∀ bs : List UInt8, bs.length = c.size → c.enc (c.dec bs) = bs

theorem Exact.prod {c : Codec α} {d : Codec β} (hc : c.Exact) (hd : d.Exact) : (c.prod d).Exact := by
  intro bs hlen
  have hsize : bs.length = c.size + d.size := hlen
  have hleft : c.enc (c.dec (bs.take c.size)) = bs.take c.size := hc _ (by rw [List.length_take]; omega)
  have hright : d.enc (d.dec (bs.drop c.size)) = bs.drop c.size := hd _ (by rw [List.length_drop]; omega)
  show c.enc (c.dec (bs.take c.size)) ++ d.enc (d.dec (bs.drop c.size)) = bs
  rw [hleft, hright, List.take_append_drop]

theorem Exact.iso {c : Codec α} (hc : c.Exact) {f : α → β} {g : β → α} {hfg : ∀ b, f (g b) = b}
    (hgf : ∀ a, g (f a) = a) : (c.iso f g hfg).Exact := by
  intro bs hlen
  show c.enc (g (f (c.dec bs))) = bs
  rw [hgf, hc bs hlen]

theorem Exact.vector {c : Codec α} (hc : c.Exact) (n : Nat) : (c.vector n).Exact := by
  intro bs hlen
  have hsize : bs.length = n * c.size := hlen
  -- each record is written back to where it was read
  have hrecord : ∀ i ∈ List.range n, c.enc (c.getAt 0 bs i) = slice bs (i * c.size) c.size := by
    intro i hi
    have hbound := c.record_bound (List.mem_range.mp hi) (show 0 + n * c.size ≤ bs.length by omega)
    rw [getAt, get, Nat.zero_add]
    apply hc
    rw [length_slice]
    omega
  show (((Vector.ofFn fun i : Fin n => c.getAt 0 bs i.val).toList).map c.enc).flatten = bs
  rw [Vector.toList_ofFn, List.ofFn_eq_map, List.map_map]
  have hrange : (List.finRange n).map (c.enc ∘ fun i : Fin n => c.getAt 0 bs i.val) =
      (List.range n).map fun i => slice bs (i * c.size) c.size := by
    rw [← List.map_coe_finRange_eq_range, List.map_map]
    apply List.map_congr_left
    intro i _
    exact hrecord i.val (List.mem_range.mpr i.isLt)
  rw [hrange, flatten_slices, ← hsize, List.take_length]

end Codec

/-! ## The primitive codecs -/

/-- One raw byte. -/
def u8 : Codec UInt8 where
  size := 1
  enc v := leBytes 1 v.toNat
  dec bs := UInt8.ofNat (ofLeBytes bs)
  length_enc _ := length_leBytes _ _
  dec_enc v := by
    rw [ofLeBytes_leBytes_of_lt _ _ (by have := v.toNat_lt; omega), UInt8.ofNat_toNat]

/-- `uint16_t`, little-endian. -/
def u16 : Codec UInt16 where
  size := 2
  enc v := leBytes 2 v.toNat
  dec bs := UInt16.ofNat (ofLeBytes bs)
  length_enc _ := length_leBytes _ _
  dec_enc v := by
    rw [ofLeBytes_leBytes_of_lt _ _ (by have := v.toNat_lt; omega), UInt16.ofNat_toNat]

/-- `uint32_t`, little-endian. -/
def u32 : Codec UInt32 where
  size := 4
  enc v := leBytes 4 v.toNat
  dec bs := UInt32.ofNat (ofLeBytes bs)
  length_enc _ := length_leBytes _ _
  dec_enc v := by
    rw [ofLeBytes_leBytes_of_lt _ _ (by have := v.toNat_lt; omega), UInt32.ofNat_toNat]

/-- `uint64_t`, little-endian. -/
def u64 : Codec UInt64 where
  size := 8
  enc v := leBytes 8 v.toNat
  dec bs := UInt64.ofNat (ofLeBytes bs)
  length_enc _ := length_leBytes _ _
  dec_enc v := by
    rw [ofLeBytes_leBytes_of_lt _ _ (by have := v.toNat_lt; omega), UInt64.ofNat_toNat]

/-- `int32_t`, little-endian. -/
def i32 : Codec Int32 := u32.iso UInt32.toInt32 Int32.toUInt32 Int32.toInt32_toUInt32

/-- `int64_t`, little-endian. -/
def i64 : Codec Int64 := u64.iso UInt64.toInt64 Int64.toUInt64 Int64.toInt64_toUInt64

@[simp] theorem u8_size : u8.size = 1 := rfl
@[simp] theorem u16_size : u16.size = 2 := rfl
@[simp] theorem u32_size : u32.size = 4 := rfl
@[simp] theorem u64_size : u64.size = 8 := rfl
@[simp] theorem i32_size : i32.size = 4 := rfl
@[simp] theorem i64_size : i64.size = 8 := rfl

theorem u8_exact : u8.Exact := by
  intro bs hlen
  show leBytes 1 (UInt8.ofNat (ofLeBytes bs)).toNat = bs
  rw [UInt8.toNat_ofNat_of_lt' (ofLeBytes_lt hlen)]
  exact leBytes_ofLeBytes hlen

theorem u16_exact : u16.Exact := by
  intro bs hlen
  show leBytes 2 (UInt16.ofNat (ofLeBytes bs)).toNat = bs
  rw [UInt16.toNat_ofNat_of_lt' (ofLeBytes_lt hlen)]
  exact leBytes_ofLeBytes hlen

theorem u32_exact : u32.Exact := by
  intro bs hlen
  show leBytes 4 (UInt32.ofNat (ofLeBytes bs)).toNat = bs
  rw [UInt32.toNat_ofNat_of_lt' (ofLeBytes_lt hlen)]
  exact leBytes_ofLeBytes hlen

theorem u64_exact : u64.Exact := by
  intro bs hlen
  show leBytes 8 (UInt64.ofNat (ofLeBytes bs)).toNat = bs
  rw [UInt64.toNat_ofNat_of_lt' (ofLeBytes_lt hlen)]
  exact leBytes_ofLeBytes hlen

end Bytes
