import OpenAAA.Opt.Units

/-!
`cf_parse_ip` of `generic/opt/units.c`. An address is four decimal numbers or one
hexadecimal number. Whether it is hexadecimal is decided by a test for a decimal digit
behind `0x`, and the conversions are narrowed to 32 bits before their ranges are checked.
-/

namespace OpenAAA.Opt

open Memory Strtoul

/-- The end of `cf_parse_ip`: the address is stored also when there is more text. -/
def ipStored (x : Nat) (p : CStr) : Msg × Option Nat :=
  (if p = [] then none else some "Trailing characters", some x)

/-- `*p == '0' && (p[1] | 32) == 'x' && isdigit(p[2])` -/
def ipIsHex (p : CStr) : Bool :=
  p.getD 0 0 = 48#8 ∧ p.getD 1 0 ||| 32#8 = 120#8 ∧ Strtoul.isDigit (p.getD 2 0)

/-- One number of an address in the loop: the number and the text behind it. -/
def ipPart (p : CStr) : Option (Nat × CStr) :=
  if Strtoul.isDigit (p.headD 0) then
    let r := strtoul 64 10 p
    let y := r.value % 2 ^ 32
    if r.range ∨ r.used = 0 ∨ 255 < y then none else some (y, p.drop r.used)
  else none

/-- The turns of the loop that are left, from the `i`th on. -/
def ipPartsFrom : Nat → Nat → Nat → CStr → Option (Nat × CStr)
  | 0, _, x, p => some (x, p)
  | k + 1, i, x, p =>
      if i ≠ 0 ∧ p.headD 0 ≠ charByte '.' then none
      else
        match ipPart (if i = 0 then p else p.drop 1) with
        | none => none
        | some (y, p) => ipPartsFrom k (i + 1) ((x * 2 ^ 8 + y) % 2 ^ 32) p

def cfParseIp (p : CStr) : Msg × Option Nat :=
  if p = [] then (some "Missing IP address", none)
  else if ipIsHex p then
    let r := strtoul 64 16 p
    let x := r.value % 2 ^ 32
    if r.range ∨ 0xffffffff < x then (some "Invalid IP address", none)
    else ipStored x (p.drop r.used)
  else
    match ipPartsFrom 4 0 0 p with
    | none => (some "Invalid IP address", none)
    | some (x, p) => ipStored x p

/-! ## Addresses -/

/-- A number in decimal digits. -/
structure Digits (ds : List Byte) : Prop where
  nonempty : ds ≠ []
  digits : ∀ d ∈ ds, Strtoul.isDigit d

/-- `0x` or `0X` and hexadecimal digits. -/
structure HexText (s : CStr) (ds : List Byte) : Prop where
  text : s = 48#8 :: charByte 'x' :: ds ∨ s = 48#8 :: charByte 'X' :: ds
  nonempty : ds ≠ []
  digits : ∀ d ∈ ds, digitValue d < 16

/-- Four decimal numbers with dots between them. -/
structure DottedText (s : CStr) (a b c d : List Byte) : Prop where
  text : s = a ++ charByte '.' :: (b ++ charByte '.' :: (c ++ charByte '.' :: d))
  first : Digits a
  second : Digits b
  third : Digits c
  fourth : Digits d

/-- The text of the address `v`. -/
inductive IpText (s : CStr) (v : Nat) : Prop where
  | hex {ds : List Byte} (htext : HexText s ds) (hrange : number 16 ds ≤ 0xffffffff)
      (hvalue : v = number 16 ds) : IpText s v
  | dotted {a b c d : List Byte} (htext : DottedText s a b c d)
      (hranges : ∀ ds ∈ [a, b, c, d], number 10 ds ≤ 255)
      (hvalue : v = number 10 a * 2 ^ 24 + number 10 b * 2 ^ 16 + number 10 c * 2 ^ 8 +
        number 10 d) : IpText s v

/-- `cf_parse_ip` succeeds on the texts of addresses, and stores the address. -/
def ReadsIp (s : CStr) : Prop :=
  ((cfParseIp s).1 = none ↔ ∃ v, IpText s v) ∧
  ((cfParseIp s).1 = none → ∃ v, IpText s v ∧ (cfParseIp s).2 = some v)

/-! ## Dotted addresses -/

section Dotted

variable {s rest ds : List Byte}

/-- A number that is not more than 255 in its last 32 bits. -/
def WrapsToByte (ds : List Byte) : Prop := number 10 ds < 2 ^ 64 ∧ number 10 ds % 2 ^ 32 ≤ 255

instance (ds : List Byte) : Decidable (WrapsToByte ds) := inferInstanceAs (Decidable (_ ∧ _))

theorem ipPart_eq (h : Digits ds) (hrest : ∀ d ∈ rest.head?, Strtoul.isDigit d = false) :
    ipPart (ds ++ rest) =
      if WrapsToByte ds then some (number 10 ds % 2 ^ 32, rest) else none := by
  obtain ⟨d, more, rfl⟩ := List.exists_cons_of_ne_nil h.nonempty
  have hd : Strtoul.isDigit d := h.digits d (by simp)
  have hten : ∀ e ∈ d :: more, digitValue e < 10 := fun e he =>
    (digitValue_lt_ten_iff e).mpr (h.digits e he)
  have hbehind : ∀ e ∈ rest.head?, 10 ≤ digitValue e := by
    intro e he
    have hno := hrest e he
    rw [← Nat.not_lt, digitValue_lt_ten_iff, hno]
    exact Bool.false_ne_true
  have hbase : readBase 10 (d :: (more ++ rest)) = (10, 0) := by simp [readBase]
  have hsplit : (d :: (more ++ rest)).drop 0 = d :: more ++ rest := rfl
  rw [ipPart, List.cons_append, List.headD_cons, if_pos hd,
    strtoul_digits hd hbase hsplit (by simp) hten hbehind, Nat.zero_add]
  by_cases hlarge : 2 ^ 64 ≤ number 10 (d :: more)
  · have hwraps : ¬ WrapsToByte (d :: more) := fun hw => absurd hw.1 (Nat.not_lt.mpr hlarge)
    rw [if_pos hlarge, if_neg hwraps]
    dsimp only
    rw [if_pos (Or.inl rfl)]
  · rw [if_neg hlarge]
    dsimp only
    by_cases hbyte : 255 < number 10 (d :: more) % 2 ^ 32
    · have hwraps : ¬ WrapsToByte (d :: more) := fun hw => absurd hw.2 (Nat.not_le.mpr hbyte)
      rw [if_pos (Or.inr (Or.inr hbyte)), if_neg hwraps]
    · have hwraps : WrapsToByte (d :: more) := ⟨Nat.lt_of_not_le hlarge, Nat.le_of_not_lt hbyte⟩
      have hok : ¬ (false = true ∨ (d :: more).length = 0 ∨ 255 < number 10 (d :: more) % 2 ^ 32) := by
        rintro (hrange | hused | hover)
        · exact Bool.false_ne_true hrange
        · exact absurd hused (by simp)
        · exact hbyte hover
      rw [if_neg hok, if_pos hwraps, ← List.cons_append, List.drop_left]

/-- The turn for a number behind a dot. -/
theorem ipPartsFrom_dot (h : Digits ds) (hrest : ∀ d ∈ rest.head?, Strtoul.isDigit d = false)
    (k i x : Nat) : ipPartsFrom (k + 1) (i + 1) x (charByte '.' :: (ds ++ rest)) =
      if WrapsToByte ds then
        ipPartsFrom k (i + 2) ((x * 2 ^ 8 + number 10 ds % 2 ^ 32) % 2 ^ 32) rest
      else none := by
  rw [ipPartsFrom, List.headD_cons, if_neg (by simp), if_neg (Nat.succ_ne_zero i), List.drop_one,
    List.tail_cons, ipPart_eq h hrest]
  by_cases hwraps : WrapsToByte ds
  · rw [if_pos hwraps, if_pos hwraps]
  · rw [if_neg hwraps, if_neg hwraps]

theorem ipPartsFrom_first (h : Digits ds) (hrest : ∀ d ∈ rest.head?, Strtoul.isDigit d = false)
    (k x : Nat) : ipPartsFrom (k + 1) 0 x (ds ++ rest) =
      if WrapsToByte ds then
        ipPartsFrom k 1 ((x * 2 ^ 8 + number 10 ds % 2 ^ 32) % 2 ^ 32) rest
      else none := by
  rw [ipPartsFrom, if_neg (by simp), if_pos rfl, ipPart_eq h hrest]
  by_cases hwraps : WrapsToByte ds
  · rw [if_pos hwraps, if_pos hwraps]
  · rw [if_neg hwraps, if_neg hwraps]

theorem dot_not_digit (rest : List Byte) :
    ∀ d ∈ (charByte '.' :: rest).head?, Strtoul.isDigit d = false := by
  intro d hd
  obtain rfl : charByte '.' = d := by simpa using hd
  decide

/-- A letter that the test for `x` accepts. -/
theorem hexLetter {x : Byte} (hx : x ||| 32#8 = 120#8) : x = charByte 'x' ∨ x = charByte 'X' := by
  have hall : ∀ x : Byte, x ||| 32#8 = 120#8 → x = charByte 'x' ∨ x = charByte 'X' := by decide +kernel
  exact hall x hx

variable {a b c d : List Byte}

/-- The second character of a dotted address is a digit or a dot. -/
theorem DottedText.not_hex (h : DottedText s a b c d) : ¬ s.getD 1 0 ||| 32#8 = 120#8 := by
  obtain ⟨e, more, rfl⟩ := List.exists_cons_of_ne_nil h.first.nonempty
  rw [h.text]
  cases more with
  | nil =>
      change ¬ charByte '.' ||| 32#8 = 120#8
      decide
  | cons f more =>
      have hf : Strtoul.isDigit f := h.first.digits f (by simp)
      intro hx
      rcases hexLetter hx with heq | heq
      · rw [show f = charByte 'x' from heq] at hf
        exact absurd hf (by decide)
      · rw [show f = charByte 'X' from heq] at hf
        exact absurd hf (by decide)

/-- What `cf_parse_ip` does with a dotted address. -/
theorem cfParseIp_dotted (h : DottedText s a b c d) :
    cfParseIp s = if ∀ ds ∈ [a, b, c, d], WrapsToByte ds then
        (none, some (number 10 a % 2 ^ 32 * 2 ^ 24 + number 10 b % 2 ^ 32 * 2 ^ 16 +
          number 10 c % 2 ^ 32 * 2 ^ 8 + number 10 d % 2 ^ 32))
      else (some "Invalid IP address", none) := by
  have hne : s ≠ [] := by
    rw [h.text]
    simp
  have hhex : ipIsHex s = false := by
    rw [ipIsHex, decide_eq_false_iff_not]
    exact fun hx => h.not_hex hx.2.1
  have hlast : ipPartsFrom 4 0 0 s = if ∀ ds ∈ [a, b, c, d], WrapsToByte ds then
      some (number 10 a % 2 ^ 32 * 2 ^ 24 + number 10 b % 2 ^ 32 * 2 ^ 16 +
          number 10 c % 2 ^ 32 * 2 ^ 8 + number 10 d % 2 ^ 32, []) else none := by
    have hd : charByte '.' :: d = charByte '.' :: (d ++ []) := by rw [List.append_nil]
    rw [h.text, ipPartsFrom_first h.first (dot_not_digit _),
      ipPartsFrom_dot h.second (dot_not_digit _), ipPartsFrom_dot h.third (dot_not_digit _), hd,
      ipPartsFrom_dot h.fourth (by simp), ipPartsFrom]
    by_cases hall : ∀ ds ∈ [a, b, c, d], WrapsToByte ds
    · have ha := hall a (by simp)
      have hb := hall b (by simp)
      have hc := hall c (by simp)
      have hd := hall d (by simp)
      rw [if_pos hall, if_pos ha, if_pos hb, if_pos hc, if_pos hd]
      have ha' := ha.2
      have hb' := hb.2
      have hc' := hc.2
      have hd' := hd.2
      congr 2
      omega
    · rw [if_neg hall]
      simp only [List.forall_mem_cons, List.not_mem_nil, false_implies, implies_true, and_true,
        not_and] at hall
      split
      · next ha =>
          split
          · next hb =>
              split
              · next hc => rw [if_neg (hall ha hb hc)]
              · rfl
          · rfl
      · rfl
  rw [cfParseIp, if_neg hne, hhex, if_neg Bool.false_ne_true, hlast]
  by_cases hall : ∀ ds ∈ [a, b, c, d], WrapsToByte ds
  · rw [if_pos hall, if_pos hall]
    rfl
  · rw [if_neg hall, if_neg hall]

/-- A number that the loop has read. -/
theorem exists_digits_of_ipPart {p : CStr} {y : Nat} (h : ipPart p = some (y, rest)) :
    ∃ ds, Digits ds ∧ p = ds ++ rest ∧ ∀ d ∈ rest.head?, Strtoul.isDigit d = false := by
  have hstart : Strtoul.isDigit (p.headD 0) = true := by
    by_contra hno
    rw [ipPart, if_neg hno] at h
    cases h
  cases p with
  | nil => exact absurd hstart (by decide)
  | cons c p =>
      rw [List.headD_cons] at hstart
      obtain ⟨ds, rest', hp, hne, hds, hbehind⟩ := exists_run ((digitValue_lt_ten_iff c).mpr hstart) p
      have hdigits : Digits ds := ⟨hne, fun d hd => (digitValue_lt_ten_iff d).mp (hds d hd)⟩
      have hrest : ∀ d ∈ rest'.head?, Strtoul.isDigit d = false := by
        intro d hd
        rw [← Bool.not_eq_true, ← digitValue_lt_ten_iff]
        exact Nat.not_lt.mpr (hbehind d hd)
      rw [hp, ipPart_eq hdigits hrest] at h
      split at h
      · obtain ⟨_, rfl⟩ := Prod.mk.inj (Option.some.inj h)
        exact ⟨ds, hdigits, hp, hrest⟩
      · cases h

theorem exists_digits_of_ipPartsFrom {k i x : Nat} {p : CStr} {r : Nat × CStr}
    (h : ipPartsFrom (k + 1) i x p = some r) :
    ∃ ds rest x', Digits ds ∧ (∀ d ∈ rest.head?, Strtoul.isDigit d = false) ∧
      p = (if i = 0 then ds ++ rest else charByte '.' :: (ds ++ rest)) ∧
      ipPartsFrom k (i + 1) x' rest = some r := by
  rw [ipPartsFrom] at h
  split at h
  · cases h
  · next hdot =>
      cases hpart : ipPart (if i = 0 then p else p.drop 1) with
      | none =>
          rw [hpart] at h
          cases h
      | some part =>
          obtain ⟨y, rest⟩ := part
          rw [hpart] at h
          obtain ⟨ds, hds, hp, hrest⟩ := exists_digits_of_ipPart hpart
          refine ⟨ds, rest, _, hds, hrest, ?_, h⟩
          by_cases hi : i = 0
          · rw [if_pos hi] at hp ⊢
            exact hp
          · rw [if_neg hi] at hp ⊢
            have hhead : p.headD 0 = charByte '.' := by
              by_contra hno
              exact hdot ⟨hi, hno⟩
            cases p with
            | nil => exact absurd hhead (by decide)
            | cons e more =>
                rw [List.headD_cons] at hhead
                rw [List.drop_one, List.tail_cons] at hp
                rw [hhead, hp]

/-- The loop succeeds with nothing behind the last number on dotted addresses only. -/
theorem exists_dotted_of_ipPartsFrom {x : Nat} (h : ipPartsFrom 4 0 0 s = some (x, [])) :
    ∃ a b c d, DottedText s a b c d := by
  obtain ⟨a, s₁, _, ha, _, hs, h⟩ := exists_digits_of_ipPartsFrom h
  obtain ⟨b, s₂, _, hb, _, hs₁, h⟩ := exists_digits_of_ipPartsFrom h
  obtain ⟨c, s₃, _, hc, _, hs₂, h⟩ := exists_digits_of_ipPartsFrom h
  obtain ⟨d, s₄, _, hd, _, hs₃, h⟩ := exists_digits_of_ipPartsFrom h
  rw [ipPartsFrom] at h
  obtain ⟨_, hs₄⟩ := Prod.mk.inj (Option.some.inj h)
  refine ⟨a, b, c, d, ⟨?_, ha, hb, hc, hd⟩⟩
  rw [if_pos rfl] at hs
  rw [if_neg (Nat.succ_ne_zero _)] at hs₁ hs₂ hs₃
  rw [hs, hs₁, hs₂, hs₃, hs₄, List.append_nil]

/-- The digits before a dot are determined by the text. -/
theorem digits_before_dot {a' r r' : List Byte} (ha : Digits a) (ha' : Digits a')
    (heq : a ++ charByte '.' :: r = a' ++ charByte '.' :: r') : a = a' ∧ r = r' := by
  have htake : ∀ {e t : List Byte}, Digits e → (e ++ charByte '.' :: t).takeWhile Strtoul.isDigit = e := by
    intro e t he
    rw [List.takeWhile_append_of_pos he.digits, List.takeWhile_cons_of_neg (by decide),
      List.append_nil]
  have hsame : a = a' := by
    rw [← htake ha (t := r), heq, htake ha']
  subst hsame
  exact ⟨rfl, (List.cons.inj (List.append_cancel_left heq)).2⟩

theorem DottedText.unique {a' b' c' d' : List Byte} (h : DottedText s a b c d)
    (h' : DottedText s a' b' c' d') : a = a' ∧ b = b' ∧ c = c' ∧ d = d' := by
  have htext := h.text.symm.trans h'.text
  obtain ⟨ha, htext⟩ := digits_before_dot h.first h'.first htext
  obtain ⟨hb, htext⟩ := digits_before_dot h.second h'.second htext
  obtain ⟨hc, htext⟩ := digits_before_dot h.third h'.third htext
  exact ⟨ha, hb, hc, htext⟩

end Dotted

/-! ## Hexadecimal addresses -/

section Hex

variable {s ds : List Byte}

theorem HexText.second (h : HexText s ds) : ∃ x, s = 48#8 :: x :: ds ∧ x ||| 32#8 = 120#8 := by
  rcases h.text with htext | htext
  · exact ⟨_, htext, by decide⟩
  · exact ⟨_, htext, by decide⟩

theorem HexText.unique {ds' : List Byte} (h : HexText s ds) (h' : HexText s ds') : ds = ds' := by
  obtain ⟨x, hx, _⟩ := h.second
  obtain ⟨x', hx', _⟩ := h'.second
  have heq := hx.symm.trans hx'
  simp only [List.cons.injEq, true_and] at heq
  exact heq.2

theorem HexText.not_dotted {a b c d : List Byte} (h : HexText s ds) : ¬ DottedText s a b c d := by
  intro hdotted
  obtain ⟨x, rfl, hx⟩ := h.second
  exact hdotted.not_hex hx

/-- What `cf_parse_ip` does with a hexadecimal address. -/
theorem cfParseIp_hex (h : HexText s ds) :
    cfParseIp s = if Strtoul.isDigit (ds.headD 0) ∧ number 16 ds < 2 ^ 64 then
        (none, some (number 16 ds % 2 ^ 32))
      else (some "Invalid IP address", none) := by
  obtain ⟨x, rfl, hx⟩ := h.second
  obtain ⟨d, more, rfl⟩ := List.exists_cons_of_ne_nil h.nonempty
  have hd := h.digits d (by simp)
  rw [cfParseIp, if_neg (by simp), List.headD_cons]
  by_cases hdigit : Strtoul.isDigit d
  · have hhex : ipIsHex (48#8 :: x :: d :: more) = true := by
      simp [ipIsHex, hx, hdigit]
    have hbase : readBase 16 (48#8 :: x :: d :: more) = (16, 2) := by
      simp [readBase, hexPrefix, hx, hd]
    have hsplit : (48#8 :: x :: d :: more).drop 2 = d :: more ++ [] := by simp
    rw [if_pos hhex, strtoul_digits (by decide) hbase hsplit (by simp) h.digits (by simp)]
    by_cases hlarge : 2 ^ 64 ≤ number 16 (d :: more)
    · have hover : ¬ (Strtoul.isDigit d = true ∧ number 16 (d :: more) < 2 ^ 64) :=
        fun hfits => absurd hfits.2 (Nat.not_lt.mpr hlarge)
      rw [if_pos hlarge, if_neg hover]
      dsimp only
      rw [if_pos (Or.inl rfl)]
    · have hnarrow : ¬ (false = true ∨ 0xffffffff < number 16 (d :: more) % 2 ^ 32) := by
        rintro (hrange | hover)
        · exact Bool.false_ne_true hrange
        · omega
      have hall : (48#8 :: x :: d :: more).drop (2 + (d :: more).length) = [] := by
        apply List.drop_of_length_le
        simp only [List.length_cons]
        omega
      have hfits : Strtoul.isDigit d = true ∧ number 16 (d :: more) < 2 ^ 64 :=
        ⟨hdigit, Nat.lt_of_not_le hlarge⟩
      rw [if_neg hlarge, if_pos hfits]
      dsimp only
      rw [if_neg hnarrow, hall, ipStored, if_pos rfl]
  · have hhex : ¬ ipIsHex (48#8 :: x :: d :: more) = true := by
      simp [ipIsHex, hdigit]
    have hzero : Digits [48#8] := ⟨by simp, by decide⟩
    have hletter : x ≠ charByte '.' := by
      rintro rfl
      exact absurd hx (by decide)
    have hbehind : ∀ e ∈ (x :: d :: more).head?, Strtoul.isDigit e = false := by
      intro e he
      obtain rfl : x = e := by simpa using he
      rcases hexLetter hx with rfl | rfl
      · decide
      · decide
    have hparts : ipPartsFrom 4 0 0 (48#8 :: x :: d :: more) = none := by
      have hfirst := ipPartsFrom_first hzero hbehind 3 0
      rw [List.singleton_append] at hfirst
      rw [hfirst, if_pos (by decide), ipPartsFrom, List.headD_cons, if_pos ⟨by decide, hletter⟩]
    rw [if_neg hhex, hparts, if_neg fun hfits => hdigit hfits.1]

/-- The hexadecimal branch succeeds when its digits end the text. -/
theorem exists_hex_of_strtoul {z x d : Byte} {more : List Byte} (hz : z = 48#8)
    (hx : x ||| 32#8 = 120#8) (hd : Strtoul.isDigit d)
    (h : (let r := strtoul 64 16 (z :: x :: d :: more)
      let x' := r.value % 2 ^ 32
      if r.range ∨ 0xffffffff < x' then ((some "Invalid IP address", none) : Msg × Option Nat)
      else ipStored x' ((z :: x :: d :: more).drop r.used)).1 = none) :
    ∃ ds, HexText (z :: x :: d :: more) ds := by
  have hvalue : digitValue d < 16 := by
    have hten := (digitValue_lt_ten_iff d).mpr hd
    omega
  have hbase : readBase 16 (z :: x :: d :: more) = (16, 2) := by
    simp [readBase, hexPrefix, hz, hx, hvalue]
  obtain ⟨ds, rest, hsplit, hstart, hdigits, hbehind⟩ := exists_run hvalue more
  have hdrop : (z :: x :: d :: more).drop 2 = ds ++ rest := hsplit
  have hused : (z :: x :: d :: more).drop (2 + ds.length) = rest := by
    rw [← List.drop_drop, hdrop, List.drop_left]
  have hend : rest = [] := by
    rw [strtoul_digits (by rw [hz]; decide) hbase hdrop hstart hdigits hbehind] at h
    by_contra hrest
    by_cases hlarge : 2 ^ 64 ≤ number 16 ds
    · rw [if_pos hlarge] at h
      dsimp only at h
      rw [if_pos (Or.inl rfl)] at h
      cases h
    · rw [if_neg hlarge] at h
      dsimp only at h
      split at h
      · cases h
      · rw [hused, ipStored, if_neg hrest] at h
        cases h
  rw [hend, List.append_nil] at hsplit
  subst hsplit
  rcases hexLetter hx with rfl | rfl
  · exact ⟨d :: more, Or.inl (by rw [hz]), hstart, hdigits⟩
  · exact ⟨d :: more, Or.inr (by rw [hz]), hstart, hdigits⟩

/-- A success is on a hexadecimal or on a dotted address. -/
theorem exists_text_of_cfParseIp (h : (cfParseIp s).1 = none) :
    (∃ ds, HexText s ds) ∨ ∃ a b c d, DottedText s a b c d := by
  rw [cfParseIp] at h
  split at h
  · cases h
  · split at h
    · next hhex =>
        left
        have htest : s.getD 0 0 = 48#8 ∧ s.getD 1 0 ||| 32#8 = 120#8 ∧ Strtoul.isDigit (s.getD 2 0) :=
          of_decide_eq_true hhex
        match s with
        | [] => exact absurd htest.1 (by decide)
        | [z] => exact absurd (show (0#8 ||| 32#8) = 120#8 from htest.2.1) (by decide)
        | [z, x] => exact absurd (show Strtoul.isDigit 0#8 = true from htest.2.2) (by decide)
        | z :: x :: d :: more =>
            obtain ⟨hz, hx, hd⟩ : z = 48#8 ∧ x ||| 32#8 = 120#8 ∧ Strtoul.isDigit d = true := htest
            exact exists_hex_of_strtoul hz hx hd h
    · right
      cases hparts : ipPartsFrom 4 0 0 s with
      | none =>
          rw [hparts] at h
          cases h
      | some r =>
          obtain ⟨x, p⟩ := r
          rw [hparts] at h
          have hend : p = [] := by
            by_contra hp
            dsimp only [ipStored] at h
            rw [if_neg hp] at h
            cases h
          rw [hend] at hparts
          exact exists_dotted_of_ipPartsFrom hparts

/-- A text on which neither the test for a decimal digit nor the narrowing shows: a hexadecimal
number of 32 bits starts with a decimal digit, one that starts with a decimal digit and is wider
does not fit into 64 bits, and four decimal numbers that end in bytes are bytes. -/
structure IpPlain (s : CStr) : Prop where
  starts : ∀ ds, HexText s ds → number 16 ds ≤ 0xffffffff → Strtoul.isDigit (ds.headD 0)
  fits : ∀ ds, HexText s ds → Strtoul.isDigit (ds.headD 0) → number 16 ds < 2 ^ 64 →
    number 16 ds ≤ 0xffffffff
  bytes : ∀ a b c d, DottedText s a b c d → (∀ ds ∈ [a, b, c, d], WrapsToByte ds) →
    ∀ ds ∈ [a, b, c, d], number 10 ds ≤ 255

theorem readsIp_hex_iff (h : HexText s ds) : ReadsIp s ↔ IpPlain s := by
  have htext : ∀ v, IpText s v → number 16 ds ≤ 0xffffffff ∧ v = number 16 ds := by
    intro v hv
    cases hv with
    | hex h' hrange hvalue =>
        rw [h.unique h']
        exact ⟨hrange, hvalue⟩
    | dotted h' => exact absurd h' h.not_dotted
  rw [ReadsIp, cfParseIp_hex h]
  constructor
  · rintro ⟨hiff, _⟩
    refine ⟨fun ds' h' hrange => ?_, fun ds' h' hdigit hlt => ?_, fun a b c d h' => ?_⟩
    · obtain rfl := h.unique h'
      have hok := hiff.mpr ⟨_, .hex h hrange rfl⟩
      by_contra hno
      rw [if_neg fun hfits => hno hfits.1] at hok
      cases hok
    · obtain rfl := h.unique h'
      rw [if_pos ⟨hdigit, hlt⟩] at hiff
      obtain ⟨v, hv⟩ := hiff.mp rfl
      exact (htext v hv).1
    · exact absurd h' h.not_dotted
  · intro hplain
    by_cases hfits : Strtoul.isDigit (ds.headD 0) ∧ number 16 ds < 2 ^ 64
    · have hrange := hplain.fits ds h hfits.1 hfits.2
      have hsame : number 16 ds % 2 ^ 32 = number 16 ds := Nat.mod_eq_of_lt (by omega)
      rw [if_pos hfits, hsame]
      have hv : IpText s (number 16 ds) := .hex h hrange rfl
      exact ⟨⟨fun _ => ⟨_, hv⟩, fun _ => rfl⟩, fun _ => ⟨_, hv, rfl⟩⟩
    · rw [if_neg hfits]
      refine ⟨⟨nofun, ?_⟩, nofun⟩
      rintro ⟨v, hv⟩
      have hrange := (htext v hv).1
      exact absurd ⟨hplain.starts ds h hrange, by omega⟩ hfits

theorem readsIp_dotted_iff {a b c d : List Byte} (h : DottedText s a b c d) :
    ReadsIp s ↔ IpPlain s := by
  have htext : ∀ v, IpText s v → (∀ ds ∈ [a, b, c, d], number 10 ds ≤ 255) ∧
      v = number 10 a * 2 ^ 24 + number 10 b * 2 ^ 16 + number 10 c * 2 ^ 8 + number 10 d := by
    intro v hv
    cases hv with
    | hex h' => exact absurd h h'.not_dotted
    | dotted h' hranges hvalue =>
        obtain ⟨rfl, rfl, rfl, rfl⟩ := h.unique h'
        exact ⟨hranges, hvalue⟩
  have hmod : ∀ ds : List Byte, number 10 ds ≤ 255 → number 10 ds % 2 ^ 32 = number 10 ds :=
    fun ds hds => Nat.mod_eq_of_lt (by omega)
  rw [ReadsIp, cfParseIp_dotted h]
  constructor
  · rintro ⟨hiff, _⟩
    refine ⟨fun ds h' => absurd h h'.not_dotted, fun ds h' => absurd h h'.not_dotted, ?_⟩
    intro a' b' c' d' h' hwraps
    obtain ⟨rfl, rfl, rfl, rfl⟩ := h.unique h'
    rw [if_pos hwraps] at hiff
    obtain ⟨v, hv⟩ := hiff.mp rfl
    exact (htext v hv).1
  · intro hplain
    by_cases hwraps : ∀ ds ∈ [a, b, c, d], WrapsToByte ds
    · have hbytes := hplain.bytes a b c d h hwraps
      have hv : IpText s (number 10 a * 2 ^ 24 + number 10 b * 2 ^ 16 + number 10 c * 2 ^ 8 +
          number 10 d) := .dotted h hbytes rfl
      rw [if_pos hwraps, hmod a (hbytes a (by simp)), hmod b (hbytes b (by simp)),
        hmod c (hbytes c (by simp)), hmod d (hbytes d (by simp))]
      exact ⟨⟨fun _ => ⟨_, hv⟩, fun _ => rfl⟩, fun _ => ⟨_, hv, rfl⟩⟩
    · rw [if_neg hwraps]
      refine ⟨⟨nofun, ?_⟩, nofun⟩
      rintro ⟨v, hv⟩
      have hbytes := (htext v hv).1
      have hall : ∀ ds ∈ [a, b, c, d], WrapsToByte ds := by
        intro ds hds
        have hbyte := hbytes ds hds
        exact ⟨by omega, by omega⟩
      exact absurd hall hwraps

/-- For every string, `cf_parse_ip` reads exactly the texts of addresses, as these addresses, if
and only if the string is plain. -/
theorem cfParseIp_reads_addresses_iff (s : CStr) : ReadsIp s ↔ IpPlain s := by
  by_cases hhex : ∃ ds, HexText s ds
  · obtain ⟨ds, h⟩ := hhex
    exact readsIp_hex_iff h
  by_cases hdotted : ∃ a b c d, DottedText s a b c d
  · obtain ⟨a, b, c, d, h⟩ := hdotted
    exact readsIp_dotted_iff h
  have hfails : (cfParseIp s).1 ≠ none := by
    intro hok
    rcases exists_text_of_cfParseIp hok with h | h
    · exact hhex h
    · exact hdotted h
  have htext : ¬ ∃ v, IpText s v := by
    rintro ⟨v, hv⟩
    cases hv with
    | hex h => exact hhex ⟨_, h⟩
    | dotted h => exact hdotted ⟨_, _, _, _, h⟩
  constructor
  · intro _
    exact ⟨fun ds h => absurd ⟨ds, h⟩ hhex, fun ds h => absurd ⟨ds, h⟩ hhex,
      fun a b c d h => absurd ⟨a, b, c, d, h⟩ hdotted⟩
  · intro _
    exact ⟨⟨fun hok => absurd hok hfails, fun hv => absurd hv htext⟩, fun hok => absurd hok hfails⟩

/-- `0xa000001` is rejected, and `0x100000001` is accepted. -/
theorem cfParseIp_misreads :
    ¬ ReadsIp (bytesOf ['0', 'x', 'a', '0', '0', '0', '0', '0', '1']) ∧
    ¬ ReadsIp (bytesOf ['0', 'x', '1', '0', '0', '0', '0', '0', '0', '0', '1']) := by
  constructor
  · intro hreads
    have hhex : HexText (bytesOf ['0', 'x', 'a', '0', '0', '0', '0', '0', '1'])
        (bytesOf ['a', '0', '0', '0', '0', '0', '1']) := ⟨Or.inl rfl, by decide, by decide⟩
    have hok := hreads.1.mpr ⟨_, .hex hhex (by decide) rfl⟩
    exact absurd hok (by decide)
  · intro hreads
    have hhex : HexText (bytesOf ['0', 'x', '1', '0', '0', '0', '0', '0', '0', '0', '1'])
        (bytesOf ['1', '0', '0', '0', '0', '0', '0', '0', '1']) := ⟨Or.inl rfl, by decide, by decide⟩
    obtain ⟨v, hv⟩ := hreads.1.mp (by decide)
    cases hv with
    | hex h hrange =>
        rw [← hhex.unique h] at hrange
        exact absurd hrange (by decide)
    | dotted h => exact hhex.not_dotted h

end Hex

end OpenAAA.Opt
