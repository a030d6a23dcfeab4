import Mathlib

/-!
# Text in C

Strings that end at their first NUL, the character classes of the "C" locale, the library
functions that read numbers, and the scanning of one token from a text.  A text is the list of
its bytes; its end stands for the NUL.

## Key results

- `scan_append`: a token is read up to the character that ends it
- `numeral_digits`: the number that a run of digits stands for
-/

namespace CText

/-! ## Strings -/

/-- The string in an array of characters: what stands before its first NUL -/
def cString (bs : List UInt8) : List UInt8 := bs.takeWhile (· ≠ 0)

theorem noNul_cString (bs : List UInt8) : 0 ∉ cString bs := fun hmem => by
  simpa using List.mem_takeWhile_imp hmem

theorem cString_eq {bs : List UInt8} (h : 0 ∉ bs) : cString bs = bs := by
  unfold cString
  rw [List.takeWhile_eq_self_iff]
  intro b hb
  have : b ≠ 0 := fun h0 => h (h0 ▸ hb)
  simpa using this

/-- A string followed by zeros -/
theorem cString_zeros {s : List UInt8} (hs : 0 ∉ s) {n : Nat} (hn : 0 < n) :
    cString (s ++ List.replicate n 0) = s := by
  unfold cString
  rw [List.takeWhile_append_of_pos]
  · obtain ⟨n, rfl⟩ := Nat.exists_eq_succ_of_ne_zero (Nat.ne_of_gt hn)
    rw [List.replicate_succ, List.takeWhile_cons_of_neg (by simp), List.append_nil]
  · intro a ha
    have : a ≠ 0 := fun h0 => hs (h0 ▸ ha)
    simpa using this

/-- The string in a `char[n]` -/
structure CString (n : Nat) where
  bytes : List UInt8
  noNul : 0 ∉ bytes
  short : bytes.length < n
  deriving DecidableEq

namespace CString

variable {n : Nat}

@[ext] theorem ext {s t : CString n} (h : s.bytes = t.bytes) : s = t := by
  cases s
  cases t
  cases h
  rfl

/-- The empty string -/
def empty (n : Nat) : CString (n + 1) := ⟨[], by simp, by simp⟩

/-- The string in the first bytes of an array that has room for one more -/
def ofArray (bs : List UInt8) (h : bs.length < n) : CString n where
  bytes := cString bs
  noNul := noNul_cString bs
  short := Nat.lt_of_le_of_lt (List.takeWhile_prefix _).length_le h

/-- The first `k` bytes of a string -/
def take (s : CString n) (k : Nat) : CString n where
  bytes := s.bytes.take k
  noNul hmem := s.noNul (List.mem_of_mem_take hmem)
  short := Nat.lt_of_le_of_lt (List.length_take_le' ..) s.short

end CString

/-! ## Characters -/

/-- `isspace` -/
def isSpace (c : UInt8) : Bool := c = 0x20 || (0x09 ≤ c && c ≤ 0x0d)

/-- `tolower` -/
def toLower (c : UInt8) : UInt8 := if 0x41 ≤ c && c ≤ 0x5a then c + 0x20 else c

/-- `isdigit` -/
def isDigit (c : UInt8) : Bool := 0x30 ≤ c && c ≤ 0x39

theorem not_isSpace_of_isDigit {c : UInt8} (h : isDigit c) : isSpace c = false := by
  simp only [isDigit, isSpace, Bool.and_eq_true, Bool.or_eq_false_iff, Bool.and_eq_false_iff,
    decide_eq_true_eq, decide_eq_false_iff_not, UInt8.le_iff_toNat_le, ← UInt8.toNat_inj] at h ⊢
  have h30 : (0x30 : UInt8).toNat = 0x30 := rfl
  have h20 : (0x20 : UInt8).toNat = 0x20 := rfl
  have h0d : (0x0d : UInt8).toNat = 0x0d := rfl
  omega

/-! ## Numbers -/

/-- The value of the digits at the beginning of a text, behind a number -/
def digitsFrom : Nat → List UInt8 → Nat
  | n, [] => n
  | n, c :: cs => if isDigit c then digitsFrom (10 * n + (c.toNat - 0x30)) cs else n

/-- The number at the beginning of a text, as the `ato` functions read it -/
def numeral (s : List UInt8) : Int :=
  match s.dropWhile isSpace with
  | [] => 0
  | c :: cs =>
    if c = 0x2d then -(digitsFrom 0 cs)
    else if c = 0x2b then digitsFrom 0 cs
    else digitsFrom 0 (c :: cs)

/-- The functions of the C library that turn text into numbers.  Their results are not defined
    for numbers out of range. -/
structure CLib where
  atoi : List UInt8 → Int32
  atoll : List UInt8 → Int64
  atoi_eq : ∀ s, -2 ^ 31 ≤ numeral s → numeral s < 2 ^ 31 → (atoi s).toInt = numeral s
  atoll_eq : ∀ s, -2 ^ 63 ≤ numeral s → numeral s < 2 ^ 63 → (atoll s).toInt = numeral s

/-- A library that wraps -/
def CLib.wrapping : CLib where
  atoi s := Int32.ofInt (numeral s)
  atoll s := Int64.ofInt (numeral s)
  atoi_eq _ hlo hhi := Int32.toInt_ofInt_of_le hlo hhi
  atoll_eq _ hlo hhi := Int64.toInt_ofInt_of_le hlo hhi

theorem digitsFrom_append {ds cs : List UInt8} (hds : ∀ d ∈ ds, isDigit d)
    (hcs : ∀ c ∈ cs.head?, isDigit c = false) (n : Nat) :
    digitsFrom n (ds ++ cs) = digitsFrom n ds := by
  induction ds generalizing n with
  | nil =>
    cases cs with
    | nil => rfl
    | cons c cs =>
      have hc : isDigit c = false := hcs c rfl
      simp [digitsFrom, hc]
  | cons d ds ih =>
    have hd : isDigit d := hds d (List.mem_cons_self ..)
    simp only [List.cons_append, digitsFrom, hd, if_true]
    exact ih (fun x hx => hds x (List.mem_cons_of_mem _ hx)) _

/-- White space, a run of digits, and something else -/
theorem numeral_digits {ws ds cs : List UInt8} (hws : ∀ c ∈ ws, isSpace c)
    (hds : ∀ d ∈ ds, isDigit d) (hne : ds ≠ []) (hcs : ∀ c ∈ cs.head?, isDigit c = false) :
    numeral (ws ++ ds ++ cs) = digitsFrom 0 ds := by
  obtain ⟨d, ds, rfl⟩ := List.exists_cons_of_ne_nil hne
  have hd : isDigit d := hds d (List.mem_cons_self ..)
  have hdrop : (ws ++ (d :: ds) ++ cs).dropWhile isSpace = (d :: ds) ++ cs := by
    rw [List.append_assoc, List.dropWhile_append_of_pos hws, List.cons_append,
      List.dropWhile_cons_of_neg (by simp [not_isSpace_of_isDigit hd])]
  have hsign : d ≠ 0x2d ∧ d ≠ 0x2b := by
    constructor <;> (rintro rfl; exact absurd hd (by decide))
  rw [numeral, hdrop]
  show (if d = 0x2d then _ else _) = _
  rw [if_neg hsign.1, if_neg hsign.2]
  exact_mod_cast digitsFrom_append hds hcs 0

/-! ## Tokens -/

/-- At most `n` bytes of a text up to one that `stop` accepts, and what follows them -/
def scan (stop : UInt8 → Bool) : Nat → List UInt8 → List UInt8 × List UInt8
  | _, [] => ([], [])
  | 0, p => ([], p)
  | n + 1, c :: p =>
    if stop c then ([], c :: p) else (c :: (scan stop n p).1, (scan stop n p).2)

section Scan

variable {stop : UInt8 → Bool}

/-- A token is part of its text. -/
theorem scan_eq (n : Nat) (p : List UInt8) : (scan stop n p).1 ++ (scan stop n p).2 = p := by
  fun_induction scan stop n p with
  | case1 => rfl
  | case2 => rfl
  | case3 => rfl
  | case4 n c p hc ih => rw [List.cons_append, ih]

theorem length_scan_le (n : Nat) (p : List UInt8) : (scan stop n p).1.length ≤ n := by
  fun_induction scan stop n p with
  | case1 => exact Nat.zero_le _
  | case2 => exact Nat.zero_le _
  | case3 => exact Nat.zero_le _
  | case4 n c p hc ih => exact Nat.succ_le_succ ih

theorem scan_not_stop (n : Nat) (p : List UInt8) : ∀ c ∈ (scan stop n p).1, stop c = false := by
  fun_induction scan stop n p with
  | case1 => simp
  | case2 => simp
  | case3 => simp
  | case4 n c p hc ih =>
    intro x hx
    cases List.mem_cons.mp hx with
    | inl h => exact h ▸ Bool.eq_false_iff.mpr hc
    | inr h => exact ih x h

/-- A token that is not too long is read up to the character that ends it. -/
theorem scan_append {n : Nat} {t q : List UInt8} (ht : ∀ c ∈ t, stop c = false)
    (hlen : t.length ≤ n) (hq : ∀ c ∈ q.head?, stop c) : scan stop n (t ++ q) = (t, q) := by
  induction t generalizing n with
  | nil =>
    cases q with
    | nil => cases n <;> rfl
    | cons c q =>
      have hc : stop c := hq c rfl
      cases n with
      | zero => rfl
      | succ n => simp [scan, hc]
  | cons c t ih =>
    obtain ⟨n, rfl⟩ := Nat.exists_eq_add_of_le' (Nat.lt_of_lt_of_le (Nat.zero_lt_succ _) hlen)
    have hc : stop c = false := ht c (List.mem_cons_self ..)
    have hrest := ih (fun x hx => ht x (List.mem_cons_of_mem _ hx)) (Nat.le_of_succ_le_succ hlen)
    simp [scan, hc, hrest]

/-- A token that is too long is cut. -/
theorem scan_cut {n : Nat} {t : List UInt8} (ht : ∀ c ∈ t, stop c = false) (hlen : n ≤ t.length)
    (q : List UInt8) : scan stop n (t ++ q) = (t.take n, t.drop n ++ q) := by
  induction t generalizing n with
  | nil =>
    obtain rfl : n = 0 := Nat.le_zero.mp hlen
    cases q <;> rfl
  | cons c t ih =>
    cases n with
    | zero => rfl
    | succ n =>
      have hc : stop c = false := ht c (List.mem_cons_self ..)
      have hrest := ih (fun x hx => ht x (List.mem_cons_of_mem _ hx)) (Nat.le_of_succ_le_succ hlen)
      simp [scan, hc, hrest]

end Scan

end CText
