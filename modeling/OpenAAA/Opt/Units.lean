import OpenAAA.Lib.Strtoul
import OpenAAA.Opt.Intr

/-!
`generic/opt/units.c`: the parsers of integers and of addresses, on a machine where
`unsigned long` and `unsigned long long` have 64 bits. A parser returns its message and
what it stores in its variable, if it stores anything.
-/

namespace OpenAAA.Opt

open Memory Strtoul

/-- `struct unit` -/
structure CfUnit where
  name : Byte
  num : Nat
  den : Nat
deriving DecidableEq

def units : List CfUnit :=
  [⟨charByte 'd', 86400, 1⟩, ⟨charByte 'h', 3600, 1⟩, ⟨charByte 'k', 1000, 1⟩,
    ⟨charByte 'm', 1000000, 1⟩, ⟨charByte 'g', 1000000000, 1⟩, ⟨charByte 'K', 1024, 1⟩,
    ⟨charByte 'M', 1048576, 1⟩, ⟨charByte 'G', 1073741824, 1⟩, ⟨charByte '%', 1, 100⟩]

/-- `lookup_unit`, for the characters from `value + used` on. -/
def lookupUnit (value : CStr) (used : Nat) : Option CfUnit × Msg :=
  match value.drop used with
  | [] => (none, none)
  | c :: more =>
      if used = 0 ∨ more ≠ [] ∨ Strtoul.isDigit c then (none, some "Invalid number")
      else
        match units.find? (·.name = c) with
        | some u => (some u, none)
        | none => (none, some "Invalid unit")

def cfRngerr : String := "Number out of range"

/-- The conversion is narrowed to an `unsigned int` before the unit is applied to it. -/
def cfParseInt (str : CStr) : Msg × Option Nat :=
  if str = [] then (some "Missing number", none)
  else
    let r := strtoul 64 0 str
    let x := r.value % 2 ^ 32
    if r.range then (some cfRngerr, none)
    else
      match lookupUnit str r.used with
      | (some u, _) =>
          let y := x * u.num % 2 ^ 64
          if y % u.den ≠ 0 then (some "Number is not an integer", none)
          else
            let y := y / u.den
            (if 0xffffffff < y then some cfRngerr else none, some (y % 2 ^ 32))
      | (none, msg) => (msg, some x)

def cfParseU64 (str : CStr) : Msg × Option Nat :=
  if str = [] then (some "Missing number", none)
  else
    let r := strtoul 64 0 str
    let x := r.value
    if r.range then (some cfRngerr, none)
    else
      match lookupUnit str r.used with
      | (some u, _) =>
          if (2 ^ 64 - 1) / u.num < x then (some "Number out of range", none)
          else
            let x := x * u.num % 2 ^ 64
            if x % u.den ≠ 0 then (some "Number is not an integer", none)
            else (none, some (x / u.den))
      | (none, msg) => (msg, some x)

/-! ## Numerals with a unit -/

/-- A decimal numeral: digits, the first of which is zero only where it is alone. -/
structure Numeral (ds : List Byte) : Prop where
  nonempty : ds ≠ []
  digits : ∀ d ∈ ds, Strtoul.isDigit d
  canonical : ds.head? = some 48#8 → ds = [48#8]

/-- The letter of a unit, if there is one. -/
def unitText : Option CfUnit → List Byte
  | none => []
  | some u => [u.name]

/-- The factor of a unit. -/
def unitFactor : Option CfUnit → Nat × Nat
  | none => (1, 1)
  | some u => (u.num, u.den)

/-- A unit of the table, or none. -/
def InTable (unit : Option CfUnit) : Prop := ∀ u ∈ unit, u ∈ units

section Numerals

variable {ds : List Byte} {unit : Option CfUnit}

/-- The letter behind a numeral is no digit, also not in base 8, and no prefix. -/
theorem unit_not_digit (hunit : InTable unit) : ∀ d ∈ (unitText unit).head?, 10 ≤ digitValue d := by
  cases unit with
  | none => simp [unitText]
  | some u =>
      have hvalue : ∀ u ∈ units, 10 ≤ digitValue u.name := by decide
      intro d hd
      obtain rfl : u.name = d := by simpa [unitText] using hd
      exact hvalue u (hunit u rfl)

theorem unitText_length (unit : Option CfUnit) : (unitText unit).length ≤ 1 := by
  cases unit with
  | none => simp [unitText]
  | some u => simp [unitText]

/-- The conversion of a numeral, of whatever length. -/
theorem strtoul_numeral (h : Numeral ds) (hunit : InTable unit) :
    strtoul 64 0 (ds ++ unitText unit) =
      if 2 ^ 64 ≤ number 10 ds then ⟨2 ^ 64 - 1, ds.length, true⟩
      else ⟨number 10 ds, ds.length, false⟩ := by
  have hbehind := unit_not_digit hunit
  have hshort := unitText_length unit
  obtain ⟨d, rest, rfl⟩ := List.exists_cons_of_ne_nil h.nonempty
  have hd : Strtoul.isDigit d := h.digits d (by simp)
  by_cases hzero : d = 48#8
  · -- a zero is read in base 8
    have halone : d :: rest = [48#8] := h.canonical (by simp [hzero])
    obtain ⟨rfl, rfl⟩ : d = 48#8 ∧ rest = [] := by simpa using halone
    have hprefix : hexPrefix (48#8 :: unitText unit) = false := by
      cases hunitText : unitText unit with
      | nil => rfl
      | cons x more =>
          rw [hunitText, List.length_cons] at hshort
          have hmore : more = [] := List.eq_nil_of_length_eq_zero (by omega)
          rw [hmore]
          rfl
    have hbase : readBase 0 (48#8 :: unitText unit) = (8, 0) := by
      simp [readBase, hprefix]
    have hvalue : number 8 [48#8] = number 10 [48#8] := rfl
    have height : ∀ e ∈ (unitText unit).head?, 8 ≤ digitValue e := fun e he =>
      (by decide : 8 ≤ 10).trans (hbehind e he)
    have hsplit : (48#8 :: unitText unit).drop 0 = [48#8] ++ unitText unit := rfl
    rw [List.singleton_append, strtoul_digits hd hbase hsplit (by simp) (by decide) height, hvalue,
      Nat.zero_add]
  · have hprefix : hexPrefix (d :: (rest ++ unitText unit)) = false := by
      cases hrest : rest ++ unitText unit with
      | nil => rfl
      | cons x more =>
          cases more with
          | nil => rfl
          | cons y more => simp [hexPrefix, hzero]
    have hbase : readBase 0 (d :: (rest ++ unitText unit)) = (10, 0) := by
      simp [readBase, hprefix, hzero]
    have hten : ∀ e ∈ d :: rest, digitValue e < 10 := fun e he =>
      (digitValue_lt_ten_iff e).mpr (h.digits e he)
    have hsplit : (d :: (rest ++ unitText unit)).drop 0 = d :: rest ++ unitText unit := rfl
    rw [List.cons_append, strtoul_digits hd hbase hsplit (by simp) hten hbehind, Nat.zero_add]

theorem lookupUnit_numeral (h : Numeral ds) (hunit : InTable unit) :
    lookupUnit (ds ++ unitText unit) ds.length = (unit, none) := by
  rw [lookupUnit, List.drop_left]
  cases unit with
  | none => rfl
  | some u =>
      have hlength : ds.length ≠ 0 := by simpa using h.nonempty
      have hfound : ∀ u ∈ units, Strtoul.isDigit u.name = false ∧ units.find? (·.name = u.name) = some u := by
        decide
      obtain ⟨hdigit, hfind⟩ := hfound u (hunit u rfl)
      simp [unitText, hlength, hdigit, hfind]

theorem units_bounds {u : CfUnit} (hu : u ∈ units) :
    0 < u.num ∧ u.num < 2 ^ 32 ∧ 0 < u.den ∧ u.den ≤ 100 := by
  have hall : ∀ u ∈ units, 0 < u.num ∧ u.num < 2 ^ 32 ∧ 0 < u.den ∧ u.den ≤ 100 := by decide
  exact hall u hu

/-- `cf_parse_u64` on a numeral. -/
theorem cfParseU64_eq (h : Numeral ds) (hunit : InTable unit) :
    cfParseU64 (ds ++ unitText unit) =
      if 2 ^ 64 ≤ number 10 ds then (some cfRngerr, none)
      else if 2 ^ 64 ≤ number 10 ds * (unitFactor unit).1 then (some "Number out of range", none)
      else if number 10 ds * (unitFactor unit).1 % (unitFactor unit).2 ≠ 0 then
        (some "Number is not an integer", none)
      else (none, some (number 10 ds * (unitFactor unit).1 / (unitFactor unit).2)) := by
  have hne : ds ++ unitText unit ≠ [] := by simp [h.nonempty]
  rw [cfParseU64, if_neg hne, strtoul_numeral h hunit]
  by_cases hlarge : 2 ^ 64 ≤ number 10 ds
  · rw [if_pos hlarge, if_pos hlarge, if_pos rfl]
  rw [if_neg hlarge, if_neg hlarge]
  dsimp only
  rw [lookupUnit_numeral h hunit]
  cases unit with
  | none =>
      have hone : ¬ 2 ^ 64 ≤ number 10 ds * 1 := by omega
      rw [show unitFactor none = (1, 1) from rfl, if_neg hone]
      simp [Nat.mod_one]
  | some u =>
      obtain ⟨hnum, _, _, _⟩ := units_bounds (hunit u rfl)
      have hcheck : (2 ^ 64 - 1) / u.num < number 10 ds ↔ 2 ^ 64 ≤ number 10 ds * u.num := by
        rw [Nat.div_lt_iff_lt_mul hnum]
        omega
      rw [show unitFactor (some u) = (u.num, u.den) from rfl, if_neg Bool.false_ne_true]
      dsimp only
      by_cases hproduct : 2 ^ 64 ≤ number 10 ds * u.num
      · rw [if_pos hproduct, if_pos (hcheck.mpr hproduct)]
      · rw [if_neg hproduct, if_neg fun hover => hproduct (hcheck.mp hover),
          Nat.mod_eq_of_lt (Nat.lt_of_not_le hproduct)]

/-- `cf_parse_int` on a numeral. -/
theorem cfParseInt_eq (h : Numeral ds) (hunit : InTable unit) :
    cfParseInt (ds ++ unitText unit) =
      if 2 ^ 64 ≤ number 10 ds then (some cfRngerr, none)
      else if number 10 ds % 2 ^ 32 * (unitFactor unit).1 % (unitFactor unit).2 ≠ 0 then
        (some "Number is not an integer", none)
      else (if 0xffffffff < number 10 ds % 2 ^ 32 * (unitFactor unit).1 / (unitFactor unit).2 then
          some cfRngerr else none,
        some (number 10 ds % 2 ^ 32 * (unitFactor unit).1 / (unitFactor unit).2 % 2 ^ 32)) := by
  have hne : ds ++ unitText unit ≠ [] := by simp [h.nonempty]
  have hlow : number 10 ds % 2 ^ 32 < 2 ^ 32 := Nat.mod_lt _ (by decide)
  rw [cfParseInt, if_neg hne, strtoul_numeral h hunit]
  by_cases hlarge : 2 ^ 64 ≤ number 10 ds
  · rw [if_pos hlarge, if_pos hlarge, if_pos rfl]
  rw [if_neg hlarge, if_neg hlarge]
  dsimp only
  rw [lookupUnit_numeral h hunit]
  cases unit with
  | none =>
      have hfits : ¬ 0xffffffff < number 10 ds % 2 ^ 32 * 1 / 1 := by omega
      rw [show unitFactor none = (1, 1) from rfl, if_neg hfits]
      simp [Nat.mod_one]
  | some u =>
      obtain ⟨_, hnum, _, _⟩ := units_bounds (hunit u rfl)
      have hproduct : number 10 ds % 2 ^ 32 * u.num < 2 ^ 64 := by
        calc number 10 ds % 2 ^ 32 * u.num < 2 ^ 32 * 2 ^ 32 := Nat.mul_lt_mul'' hlow hnum
          _ = 2 ^ 64 := by norm_num
      rw [show unitFactor (some u) = (u.num, u.den) from rfl, if_neg Bool.false_ne_true]
      dsimp only
      rw [Nat.mod_eq_of_lt hproduct]

/-- For every numeral with a unit or without, `cf_parse_u64` succeeds exactly on the numbers that
fit, and it stores the number; otherwise its variable is as before. -/
theorem cfParseU64_reads_numerals (h : Numeral ds) (hunit : InTable unit) :
    ((cfParseU64 (ds ++ unitText unit)).1 = none ↔ number 10 ds < 2 ^ 64 ∧
      number 10 ds * (unitFactor unit).1 < 2 ^ 64 ∧
      (unitFactor unit).2 ∣ number 10 ds * (unitFactor unit).1) ∧
    ((cfParseU64 (ds ++ unitText unit)).1 = none → (cfParseU64 (ds ++ unitText unit)).2 =
      some (number 10 ds * (unitFactor unit).1 / (unitFactor unit).2)) ∧
    ((cfParseU64 (ds ++ unitText unit)).1 ≠ none → (cfParseU64 (ds ++ unitText unit)).2 = none) := by
  rw [cfParseU64_eq h hunit]
  by_cases hlarge : 2 ^ 64 ≤ number 10 ds
  · rw [if_pos hlarge]
    exact ⟨⟨nofun, fun hfits => absurd hfits.1 (Nat.not_lt.mpr hlarge)⟩, nofun, fun _ => rfl⟩
  rw [if_neg hlarge]
  by_cases hproduct : 2 ^ 64 ≤ number 10 ds * (unitFactor unit).1
  · rw [if_pos hproduct]
    exact ⟨⟨nofun, fun hfits => absurd hfits.2.1 (Nat.not_lt.mpr hproduct)⟩, nofun, fun _ => rfl⟩
  rw [if_neg hproduct, Nat.dvd_iff_mod_eq_zero]
  by_cases hdvd : number 10 ds * (unitFactor unit).1 % (unitFactor unit).2 = 0
  · rw [if_neg (not_not.mpr hdvd)]
    refine ⟨⟨fun _ => ⟨?_, ?_, hdvd⟩, fun _ => rfl⟩, fun _ => rfl, fun hfailed => absurd rfl hfailed⟩
    · exact Nat.lt_of_not_le hlarge
    · exact Nat.lt_of_not_le hproduct
  · rw [if_pos hdvd]
    exact ⟨⟨nofun, fun hfits => absurd hfits.2.2 hdvd⟩, nofun, fun _ => rfl⟩

/-- `16M` -/
theorem cfParseU64_reads_numerals_16M : cfParseU64 (bytesOf ['1', '6', 'M']) = (none, some 16777216) := by
  have hnumeral : Numeral (bytesOf ['1', '6']) := ⟨by decide, by decide, by decide⟩
  have hunit : InTable (some ⟨charByte 'M', 1048576, 1⟩) := by
    intro u hu
    cases hu
    decide
  obtain ⟨hiff, hvalue, _⟩ := cfParseU64_reads_numerals hnumeral hunit
  have hok := hiff.mpr ⟨by decide, by decide, by decide⟩
  exact Prod.ext hok (hvalue hok)

/-- `n` with the unit is an integer of 32 bits. -/
def FitsInt (unit : Option CfUnit) (n : Nat) : Prop :=
  (unitFactor unit).2 ∣ n * (unitFactor unit).1 ∧
    n * (unitFactor unit).1 / (unitFactor unit).2 ≤ 2 ^ 32 - 1

instance (unit : Option CfUnit) (n : Nat) : Decidable (FitsInt unit n) :=
  inferInstanceAs (Decidable (_ ∧ _))

/-- `cf_parse_int` accepts what `cf_parse_u64` reads as a number of 32 bits, as that number. -/
def IntFollowsU64 (str : CStr) : Prop :=
  ((cfParseInt str).1 = none ↔ ∃ v, cfParseU64 str = (none, some v) ∧ v ≤ 2 ^ 32 - 1) ∧
  ((cfParseInt str).1 = none → (cfParseInt str).2 = (cfParseU64 str).2)

theorem unitFactor_bounds (hunit : InTable unit) :
    0 < (unitFactor unit).1 ∧ 0 < (unitFactor unit).2 ∧ (unitFactor unit).2 ≤ 100 := by
  cases unit with
  | none => decide
  | some u =>
      obtain ⟨hnum, _, hden, hsmall⟩ := units_bounds (hunit u rfl)
      exact ⟨hnum, hden, hsmall⟩

theorem cfParseInt_ok_iff (h : Numeral ds) (hunit : InTable unit) :
    (cfParseInt (ds ++ unitText unit)).1 = none ↔
      number 10 ds < 2 ^ 64 ∧ FitsInt unit (number 10 ds % 2 ^ 32) := by
  rw [cfParseInt_eq h hunit, FitsInt, Nat.dvd_iff_mod_eq_zero]
  by_cases hlarge : 2 ^ 64 ≤ number 10 ds
  · rw [if_pos hlarge]
    exact ⟨nofun, fun hfits => absurd hfits.1 (Nat.not_lt.mpr hlarge)⟩
  rw [if_neg hlarge]
  by_cases hdvd : number 10 ds % 2 ^ 32 * (unitFactor unit).1 % (unitFactor unit).2 = 0
  · rw [if_neg (not_not.mpr hdvd)]
    dsimp only
    split
    · next hover => exact ⟨nofun, fun hfits => absurd hfits.2.2 (Nat.not_le.mpr hover)⟩
    · next hover =>
        exact ⟨fun _ => ⟨Nat.lt_of_not_le hlarge, hdvd, Nat.le_of_not_lt hover⟩, fun _ => rfl⟩
  · rw [if_pos hdvd]
    exact ⟨nofun, fun hfits => absurd hfits.2.1 hdvd⟩

/-- What `cf_parse_int` stores when it succeeds. -/
theorem cfParseInt_value (h : Numeral ds) (hunit : InTable unit)
    (hok : (cfParseInt (ds ++ unitText unit)).1 = none) : (cfParseInt (ds ++ unitText unit)).2 =
      some (number 10 ds % 2 ^ 32 * (unitFactor unit).1 / (unitFactor unit).2) := by
  obtain ⟨hsmall, hdvd, hfits⟩ := (cfParseInt_ok_iff h hunit).mp hok
  rw [cfParseInt_eq h hunit, if_neg (Nat.not_le.mpr hsmall),
    if_neg (not_not.mpr (Nat.dvd_iff_mod_eq_zero.mp hdvd))]
  dsimp only
  rw [Nat.mod_eq_of_lt]
  omega

/-- The numerals that `cf_parse_u64` reads as a number of 32 bits. -/
theorem cfParseU64_int_iff (h : Numeral ds) (hunit : InTable unit) :
    (∃ v, cfParseU64 (ds ++ unitText unit) = (none, some v) ∧ v ≤ 2 ^ 32 - 1) ↔
      number 10 ds < 2 ^ 64 ∧ FitsInt unit (number 10 ds) := by
  obtain ⟨hok, hvalue, _⟩ := cfParseU64_reads_numerals h hunit
  obtain ⟨hnum, hden, hsmall⟩ := unitFactor_bounds hunit
  constructor
  · rintro ⟨v, heq, hle⟩
    have hfst : (cfParseU64 (ds ++ unitText unit)).1 = none := by rw [heq]
    obtain ⟨hfits, _, hdvd⟩ := hok.mp hfst
    have hv := hvalue hfst
    rw [heq] at hv
    have hsame := Option.some.inj hv
    exact ⟨hfits, hdvd, by omega⟩
  · rintro ⟨hfits, hdvd, hle⟩
    have hproduct : number 10 ds * (unitFactor unit).1 < 2 ^ 64 := by
      have hsplit := Nat.div_mul_cancel hdvd
      have hbound := Nat.mul_le_mul hle hsmall
      omega
    have hfst := hok.mpr ⟨hfits, hproduct, hdvd⟩
    exact ⟨_, Prod.ext hfst (hvalue hfst), hle⟩

/-- For every numeral with a unit or without, `cf_parse_int` follows `cf_parse_u64` if and only if
the number has 32 bits, or more than 64, or neither it nor what is left of it in 32 bits fits. -/
theorem cfParseInt_follows_cfParseU64_iff (h : Numeral ds) (hunit : InTable unit) :
    IntFollowsU64 (ds ++ unitText unit) ↔
      number 10 ds < 2 ^ 32 ∨ 2 ^ 64 ≤ number 10 ds ∨
        (¬ FitsInt unit (number 10 ds % 2 ^ 32) ∧ ¬ FitsInt unit (number 10 ds)) := by
  obtain ⟨hnum, hden, _⟩ := unitFactor_bounds hunit
  rw [IntFollowsU64, cfParseU64_int_iff h hunit]
  constructor
  · rintro ⟨hiff, hsame⟩
    by_contra hcond
    simp only [not_or, Nat.not_lt, Nat.not_le] at hcond
    obtain ⟨hwide, hlt, hfits⟩ := hcond
    rw [cfParseInt_ok_iff h hunit] at hiff
    have hboth : FitsInt unit (number 10 ds % 2 ^ 32) ∧ FitsInt unit (number 10 ds) := by
      by_cases hlow : FitsInt unit (number 10 ds % 2 ^ 32)
      · exact ⟨hlow, (hiff.mp ⟨hlt, hlow⟩).2⟩
      · by_cases hall : FitsInt unit (number 10 ds)
        · exact ⟨(hiff.mpr ⟨hlt, hall⟩).2, hall⟩
        · exact absurd ⟨hlow, hall⟩ hfits
    -- both numbers are stored, so the products are the same, and the number is not narrowed
    have hok := (cfParseInt_ok_iff h hunit).mpr ⟨hlt, hboth.1⟩
    obtain ⟨v, hv, _⟩ := (cfParseU64_int_iff h hunit).mpr ⟨hlt, hboth.2⟩
    have hfst : (cfParseU64 (ds ++ unitText unit)).1 = none := by rw [hv]
    have hvalues := hsame hok
    rw [cfParseInt_value h hunit hok, (cfParseU64_reads_numerals h hunit).2.1 hfst] at hvalues
    have hproducts := Nat.div_left_inj hboth.1.1 hboth.2.1 |>.mp (Option.some.inj hvalues)
    have hnumbers := Nat.eq_of_mul_eq_mul_right hnum hproducts
    omega
  · rintro (hsmall | hlarge | ⟨hlow, hall⟩)
    · have hsame : number 10 ds % 2 ^ 32 = number 10 ds := Nat.mod_eq_of_lt hsmall
      rw [cfParseInt_ok_iff h hunit, hsame]
      refine ⟨Iff.rfl, fun hfits => ?_⟩
      have hok := (cfParseInt_ok_iff h hunit).mpr (by rw [hsame]; exact hfits)
      obtain ⟨v, hv, _⟩ := (cfParseU64_int_iff h hunit).mpr hfits
      have hfst : (cfParseU64 (ds ++ unitText unit)).1 = none := by rw [hv]
      rw [cfParseInt_value h hunit hok, (cfParseU64_reads_numerals h hunit).2.1 hfst, hsame]
    · rw [cfParseInt_ok_iff h hunit]
      refine ⟨⟨fun hfits => ?_, fun hfits => ?_⟩, fun hfits => ?_⟩
      · exact absurd hfits.1 (Nat.not_lt.mpr hlarge)
      · exact absurd hfits.1 (Nat.not_lt.mpr hlarge)
      · exact absurd hfits.1 (Nat.not_lt.mpr hlarge)
    · rw [cfParseInt_ok_iff h hunit]
      exact ⟨⟨fun hfits => absurd hfits.2 hlow, fun hfits => absurd hfits.2 hall⟩,
        fun hfits => absurd hfits.2 hlow⟩

/-- `65535k` -/
theorem cfParseInt_follows_cfParseU64_65535k :
    IntFollowsU64 (bytesOf ['6', '5', '5', '3', '5', 'k']) ∧
      cfParseInt (bytesOf ['6', '5', '5', '3', '5', 'k']) = (none, some 65535000) := by
  have hnumeral : Numeral (bytesOf ['6', '5', '5', '3', '5']) := ⟨by decide, by decide, by decide⟩
  have hunit : InTable (some ⟨charByte 'k', 1000, 1⟩) := by
    intro u hu
    cases hu
    decide
  have hiff := cfParseInt_follows_cfParseU64_iff hnumeral hunit
  exact ⟨hiff.mpr (Or.inl (by decide)), by decide⟩

/-- 2³² is read as zero, and 2³² in units of a thousand too. -/
theorem cfParseInt_narrows_first :
    cfParseInt (bytesOf ['4', '2', '9', '4', '9', '6', '7', '2', '9', '6']) = (none, some 0) ∧
      ¬ IntFollowsU64 (bytesOf ['4', '2', '9', '4', '9', '6', '7', '2', '9', '6']) ∧
      ¬ IntFollowsU64 (bytesOf ['4', '2', '9', '4', '9', '6', '7', '2', '9', '6', 'k']) := by
  refine ⟨by decide, ?_, ?_⟩
  · rintro ⟨_, hsame⟩
    revert hsame
    decide
  · rintro ⟨_, hsame⟩
    revert hsame
    decide

end Numerals

end OpenAAA.Opt
