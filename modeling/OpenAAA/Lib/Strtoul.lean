import Mathlib.Data.List.TakeWhile
import OpenAAA.Lib.Memory

/-!
The conversions `strtoul` and `strtoull` of the C library in the "C" locale, on the
characters of a string before the one that ends it. Blanks and a sign may stand before
the number; base 16 admits the prefix `0x` before a hexadecimal digit, and base 0 takes
the base from the number's own prefix. The digits are converted without a bound on their
number, and a value that does not fit is reported.
-/

namespace OpenAAA.Strtoul

open Memory

/-- `isspace` -/
def isSpace (c : Byte) : Bool := c.toNat = 32 ∨ 9 ≤ c.toNat ∧ c.toNat ≤ 13

/-- `isdigit` -/
def isDigit (c : Byte) : Bool := 48 ≤ c.toNat ∧ c.toNat ≤ 57

/-- The value of a digit or letter; any other character is no digit in any base. -/
def digitValue (c : Byte) : Nat :=
  if 48 ≤ c.toNat ∧ c.toNat ≤ 57 then c.toNat - 48
  else if 97 ≤ c.toNat ∧ c.toNat ≤ 122 then c.toNat - 87
  else if 65 ≤ c.toNat ∧ c.toNat ≤ 90 then c.toNat - 55
  else 36

/-- The number that digits spell. -/
def number (base : Nat) (ds : List Byte) : Nat := ds.foldl (fun v d => v * base + digitValue d) 0

/-- What a conversion returns: the value, the distance from the start of the string to `endptr`
and whether `errno` is set to `ERANGE`. -/
structure Conversion where
  value : Nat
  used : Nat
  range : Bool
deriving DecidableEq

/-- `0x` before a hexadecimal digit. -/
def hexPrefix : List Byte → Bool
  | z :: x :: d :: _ => z = 48#8 ∧ x ||| 32#8 = 120#8 ∧ digitValue d < 16
  | _ => false

/-- The base of the digits, and the length of the prefix before them. -/
def readBase (base : Nat) (s : List Byte) : Nat × Nat :=
  if (base = 0 ∨ base = 16) ∧ hexPrefix s then (16, 2)
  else if base = 0 then (if s.head? = some 48#8 then 8 else 10, 0)
  else (base, 0)

/-- `strtoul(s, &end, base)` where an `unsigned long` has `width` bits. -/
def strtoul (width base : Nat) (s : List Byte) : Conversion :=
  let blanks := (s.takeWhile isSpace).length
  let t := s.drop blanks
  let signs := if t.head? = some 43#8 ∨ t.head? = some 45#8 then 1 else 0
  let u := t.drop signs
  let (b, skip) := readBase base u
  let ds := (u.drop skip).takeWhile fun d => digitValue d < b
  if ds = [] then ⟨0, 0, false⟩
  else
    let v := number b ds
    let used := blanks + signs + skip + ds.length
    if 2 ^ width ≤ v then ⟨2 ^ width - 1, used, true⟩
    else ⟨if t.head? = some 45#8 then (2 ^ width - v) % 2 ^ width else v, used, false⟩

/-- The number of characters that a conversion examines, with the one it stops at. An `x` behind a
zero is a prefix only if a digit follows, so that one is examined too. -/
def looksAt (base : Nat) (s : List Byte) : Nat :=
  let blanks := (s.takeWhile isSpace).length
  let t := s.drop blanks
  let signs := if t.head? = some 43#8 ∨ t.head? = some 45#8 then 1 else 0
  let u := t.drop signs
  let (b, skip) := readBase base u
  let ds := (u.drop skip).takeWhile fun d => digitValue d < b
  let stop := skip + ds.length + 1
  blanks + signs +
    if (base = 0 ∨ base = 16) ∧ u.head? = some 48#8 ∧ (u.getD 1 0 ||| 32#8) = 120#8 then max 3 stop
    else stop

/-! ## Digits -/

theorem digitValue_of_isDigit {c : Byte} (hc : isDigit c) : digitValue c = c.toNat - 48 := by
  have hrange : 48 ≤ c.toNat ∧ c.toNat ≤ 57 := of_decide_eq_true hc
  rw [digitValue, if_pos hrange]

/-- The decimal digits are the characters of value below ten. -/
theorem digitValue_lt_ten_iff (c : Byte) : digitValue c < 10 ↔ isDigit c = true := by
  unfold digitValue isDigit
  rw [decide_eq_true_eq]
  split
  · omega
  · split
    · omega
    · split
      · omega
      · omega

/-- Digits that do not end at the first one that is left out. -/
theorem takeWhile_digits {b : Nat} {ds rest : List Byte} (hds : ∀ d ∈ ds, digitValue d < b)
    (hrest : ∀ d ∈ rest.head?, b ≤ digitValue d) :
    ((ds ++ rest).takeWhile fun d => digitValue d < b) = ds := by
  rw [List.takeWhile_append_of_pos fun d hd => decide_eq_true (hds d hd)]
  cases rest with
  | nil => simp
  | cons d rest =>
      have hd := hrest d rfl
      rw [List.takeWhile_cons_of_neg (by simpa using hd), List.append_nil]

/-- A string that starts with a digit starts with a longest run of them. -/
theorem exists_run {b : Nat} {c : Byte} (hc : digitValue c < b) (s : List Byte) :
    ∃ ds rest, c :: s = ds ++ rest ∧ ds ≠ [] ∧ (∀ d ∈ ds, digitValue d < b) ∧
      ∀ d ∈ rest.head?, b ≤ digitValue d := by
  let more : Byte → Bool := fun d => digitValue d < b
  refine ⟨(c :: s).takeWhile more, (c :: s).dropWhile more, ?_, ?_, ?_, ?_⟩
  · exact List.takeWhile_append_dropWhile.symm
  · have hmore : more c = true := decide_eq_true hc
    rw [List.takeWhile_cons_of_pos hmore]
    simp
  · intro d hd
    exact of_decide_eq_true (List.mem_takeWhile_imp (p := more) hd)
  · intro d hd
    have hstop := List.head?_dropWhile_not more (c :: s)
    rw [hd] at hstop
    simpa [more] using hstop

/-! ## Conversions -/

theorem readBase_skip_le (base : Nat) (s : List Byte) : (readBase base s).2 ≤ s.length := by
  unfold readBase
  split
  · rename_i h
    match s, h with
    | z :: x :: d :: rest, _ => simp
  · split
    · simp
    · simp

/-- A conversion stops at the end of the string. -/
theorem looksAt_le (base : Nat) (s : List Byte) : looksAt base s ≤ s.length + 1 := by
  have hblanks : (s.takeWhile isSpace).length ≤ s.length := (List.takeWhile_sublist _).length_le
  unfold looksAt
  dsimp only
  generalize hb : (s.takeWhile isSpace).length = blanks at hblanks ⊢
  generalize ht : s.drop blanks = t
  have htlen : t.length = s.length - blanks := by
    rw [← ht, List.length_drop]
  generalize hs : (if t.head? = some 43#8 ∨ t.head? = some 45#8 then 1 else 0) = signs
  have hsigns : signs ≤ t.length := by
    rw [← hs]
    cases t with
    | nil => simp
    | cons c t =>
        split
        · simp
        · simp
  generalize hu : t.drop signs = u
  have hulen : u.length = t.length - signs := by
    rw [← hu, List.length_drop]
  have hskip := readBase_skip_le base u
  have hds : ((u.drop (readBase base u).2).takeWhile fun d =>
      digitValue d < (readBase base u).1).length ≤ u.length - (readBase base u).2 := by
    have hle := (List.takeWhile_sublist (l := u.drop (readBase base u).2)
      fun d => decide (digitValue d < (readBase base u).1)).length_le
    rwa [List.length_drop] at hle
  split
  · rename_i hx
    have htwo : 2 ≤ u.length := by
      match u, hx with
      | [], h => simp at h
      | [z], h => simp at h
      | z :: x :: rest, _ => simp
    omega
  · omega

/-- The characters of the number are examined, and one more. -/
theorem used_lt_looksAt (width base : Nat) (s : List Byte) :
    (strtoul width base s).used < looksAt base s := by
  unfold strtoul looksAt
  dsimp only
  generalize (s.takeWhile isSpace).length = blanks
  generalize s.drop blanks = t
  generalize (if t.head? = some 43#8 ∨ t.head? = some 45#8 then 1 else 0) = signs
  generalize t.drop signs = u
  generalize (u.drop (readBase base u).2).takeWhile _ = ds
  have hstop (p : Prop) [Decidable p] (n : Nat) : n < if p then max 3 (n + 1) else n + 1 := by
    split
    · omega
    · omega
  have hend := hstop ((base = 0 ∨ base = 16) ∧ u.head? = some 48#8 ∧ u.getD 1 0 ||| 32#8 = 120#8)
    ((readBase base u).2 + ds.length)
  split
  · dsimp only
    omega
  · split
    · dsimp only
      omega
    · dsimp only
      omega

theorem used_le (width base : Nat) (s : List Byte) : (strtoul width base s).used ≤ s.length := by
  have hlt := used_lt_looksAt width base s
  have hle := looksAt_le base s
  omega

/-- A string that starts with a digit has no blanks and no sign. -/
theorem strtoul_of_isDigit {c : Byte} {s : List Byte} (hc : isDigit c) (width base : Nat) :
    strtoul width base (c :: s) =
      let b := (readBase base (c :: s)).1
      let skip := (readBase base (c :: s)).2
      let ds := ((c :: s).drop skip).takeWhile fun d => digitValue d < b
      if ds = [] then ⟨0, 0, false⟩
      else if 2 ^ width ≤ number b ds then ⟨2 ^ width - 1, skip + ds.length, true⟩
      else ⟨number b ds, skip + ds.length, false⟩ := by
  have hrange : 48 ≤ c.toNat ∧ c.toNat ≤ 57 := of_decide_eq_true hc
  have hspace : isSpace c = false := by
    rw [isSpace, decide_eq_false_iff_not]
    omega
  have hplus : c ≠ 43#8 := by
    rintro rfl
    exact absurd hrange (by decide)
  have hminus : c ≠ 45#8 := by
    rintro rfl
    exact absurd hrange (by decide)
  unfold strtoul
  simp [hspace, hplus, hminus]

/-- The conversion of a string that starts with a digit, when its digits are known. -/
theorem strtoul_digits {width base b skip : Nat} {c : Byte} {s ds rest : List Byte} (hc : isDigit c)
    (hbase : readBase base (c :: s) = (b, skip)) (hsplit : (c :: s).drop skip = ds ++ rest)
    (hne : ds ≠ []) (hds : ∀ d ∈ ds, digitValue d < b)
    (hrest : ∀ d ∈ rest.head?, b ≤ digitValue d) :
    strtoul width base (c :: s) =
      if 2 ^ width ≤ number b ds then ⟨2 ^ width - 1, skip + ds.length, true⟩
      else ⟨number b ds, skip + ds.length, false⟩ := by
  rw [strtoul_of_isDigit hc, hbase]
  dsimp only
  rw [hsplit, takeWhile_digits hds hrest, if_neg hne]

end OpenAAA.Strtoul
