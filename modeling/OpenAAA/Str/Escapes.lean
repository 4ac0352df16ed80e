import OpenAAA.Str.Unesc

/-!
What the escapes of a string mean in C, and when `str_unesc` reads them so. A string is cut
into pieces, each with the bytes that it stands for. An escape of hexadecimal digits takes
all of them; `str_unesc` leaves them to `strtoul` if the first is a decimal digit, and copies
them if it is not.
-/

namespace OpenAAA.Unesc

open Memory Traces Opt Strtoul

/-- The letters behind a backslash, and the characters they stand for. -/
def letterEscapes : List (Byte × Byte) :=
  [(charByte 'a', 7), (charByte 'b', 8), (charByte 'f', 12), (charByte 'n', 10),
    (charByte 'r', 13), (charByte 't', 9), (charByte 'v', 11), (charByte '?', charByte '?'),
    (charByte '\'', charByte '\''), (charByte '"', charByte '"'), (charByte '\\', charByte '\\')]

/-- The pieces of a string. -/
inductive Piece where
  | plain (c : Byte)
  | letter (x : Byte)
  | octal (ds : List Byte)
  | hex (ds : List Byte)
deriving DecidableEq

/-- The byte of a value, if it is one. -/
def byteOf (v : Nat) : List Byte := if v ≤ 255 then [BitVec.ofNat 8 v] else []

/-- The bytes that a piece stands for. -/
def Piece.reading : Piece → List Byte
  | .plain c => [c]
  | .letter x => [x]
  | .octal ds => byteOf (number 8 ds)
  | .hex ds => byteOf (number 16 ds)

def reading (ps : List Piece) : List Byte := ps.flatMap Piece.reading

def isHexDigit (c : Byte) : Bool := digitValue c < 16

def isOctalDigit (c : Byte) : Bool := digitValue c < 8

/-- The pieces of a string, if every `\x` has a digit behind it. -/
def pieces : List Byte → Option (List Piece)
  | [] => some []
  | c :: s =>
      if c ≠ charByte '\\' then (pieces s).map (.plain c :: ·)
      else
        match s with
        | [] => some [.plain c]
        | e :: t =>
            match letterEscapes.lookup e with
            | some x => (pieces t).map (.letter x :: ·)
            | none =>
                if e = charByte 'x' then
                  if t.takeWhile isHexDigit = [] then none
                  else (pieces (t.dropWhile isHexDigit)).map (.hex (t.takeWhile isHexDigit) :: ·)
                else if isOctalDigit e then
                  let ds := ((e :: t).take 3).takeWhile isOctalDigit
                  (pieces (t.drop (ds.length - 1))).map (.octal ds :: ·)
                else (pieces (e :: t)).map (.plain c :: ·)
termination_by s => s.length
decreasing_by
  all_goals simp_wf
  · have hle := (List.dropWhile_sublist (l := t) isHexDigit).length_le
    omega
  · omega

/-- `str_unesc` writes the bytes that the pieces stand for and the byte that ends them, and returns
where that byte is. -/
def Reads (s : List Byte) (ps : List Piece) : Prop :=
  ∀ m d, value (strUnesc m d s) = some (d + (reading ps).length, write m d (reading ps ++ [0#8]))

/-- An escape of hexadecimal digits that start with a letter, or whose value is no byte but becomes
one in 32 bits. -/
def Piece.expands : Piece → Bool
  | .hex ds => ¬ Strtoul.isDigit (ds.getD 0 0#8) ∨
      255 < number 16 ds ∧ number 16 ds < 2 ^ 64 ∧ number 16 ds % 2 ^ 32 ≤ 255
  | _ => false

/-- `\x0` before an `x` and a digit, which `strtoul` takes for a prefix. -/
def swallowed : List Piece → Bool
  | .hex ds :: .plain x :: .plain d :: _ =>
      ds = [charByte '0'] ∧ x ||| 32#8 = charByte 'x' ∧ isHexDigit d
  | _ => false

def Expands (ps : List Piece) : Prop := ∃ p ∈ ps, p.expands

def Swallows (ps : List Piece) : Prop := ∃ rest ∈ ps.tails, swallowed rest

instance (ps : List Piece) : Decidable (Expands ps) := inferInstanceAs (Decidable (∃ p ∈ ps, _))

instance (ps : List Piece) : Decidable (Swallows ps) :=
  inferInstanceAs (Decidable (∃ rest ∈ ps.tails, _))

/-! ## What is written for the pieces -/

/-- What `str_unesc` can write for pieces: what they stand for, more for an escape that expands,
and at most one byte for digits that are swallowed with their prefix. -/
inductive Emits : List Piece → List Byte → Prop where
  | nil : Emits [] []
  | same {p : Piece} {ps : List Piece} {out : List Byte} (hp : ¬ p.expands)
      (hs : ¬ swallowed (p :: ps)) (h : Emits ps out) : Emits (p :: ps) (p.reading ++ out)
  | more {p : Piece} {ps : List Piece} {w out : List Byte} (hp : p.expands)
      (hs : ¬ swallowed (p :: ps)) (hw : p.reading.length < w.length) (h : Emits ps out) :
      Emits (p :: ps) (w ++ out)
  | fewer {ds run w out : List Byte} {x : Byte} {ps : List Piece}
      (hs : swallowed (.hex ds :: .plain x :: (run.map .plain ++ ps))) (hw : w.length ≤ 1)
      (h : Emits ps out) : Emits (.hex ds :: .plain x :: (run.map .plain ++ ps)) (w ++ out)

section Emitted

variable {ps : List Piece} {out : List Byte}

theorem length_reading_cons (p : Piece) :
    (reading (p :: ps)).length = p.reading.length + (reading ps).length :=
  List.length_append

theorem length_reading_plain (run : List Byte) :
    (reading (run.map .plain ++ ps)).length = run.length + (reading ps).length := by
  induction run with
  | nil => simp
  | cons c run ih =>
      rw [List.map_cons, List.cons_append, length_reading_cons, ih, List.length_cons]
      change 1 + _ = _
      omega

theorem not_expands_of_cons {p : Piece} (h : ¬ Expands (p :: ps)) : ¬ p.expands ∧ ¬ Expands ps :=
  ⟨fun hp => h ⟨p, by simp, hp⟩, fun ⟨q, hq, he⟩ => h ⟨q, by simp [hq], he⟩⟩

theorem swallows_cons_iff (p : Piece) :
    Swallows (p :: ps) ↔ swallowed (p :: ps) = true ∨ Swallows ps := by
  simp [Swallows]

theorem swallowed_zero {ds : List Byte} (h : swallowed (.hex ds :: ps)) : ds = [charByte '0'] := by
  unfold swallowed at h
  split at h
  · rename_i heq
    cases heq
    exact (of_decide_eq_true h).1
  · cases h

/-- Without such escapes it is what the pieces stand for. -/
theorem Emits.eq_reading (h : Emits ps out) (hmore : ¬ Expands ps) (hfewer : ¬ Swallows ps) :
    out = reading ps := by
  induction h with
  | nil => rfl
  | same hp hs h ih =>
      rw [swallows_cons_iff] at hfewer
      rw [ih (not_expands_of_cons hmore).2 (fun hlate => hfewer (Or.inr hlate))]
      rfl
  | more hp => exact absurd hp (not_expands_of_cons hmore).1
  | fewer hs => exact absurd ((swallows_cons_iff _).mpr (Or.inl hs)) hfewer

/-- Where nothing is swallowed nothing gets shorter. -/
theorem Emits.length_ge (h : Emits ps out) (hfewer : ¬ Swallows ps) :
    (reading ps).length ≤ out.length ∧ (Expands ps → (reading ps).length < out.length) := by
  induction h with
  | nil => exact ⟨le_rfl, fun ⟨p, hp, _⟩ => by simp at hp⟩
  | @same p ps out hp hs h ih =>
      rw [swallows_cons_iff] at hfewer
      obtain ⟨hle, hlt⟩ := ih (fun hlate => hfewer (Or.inr hlate))
      rw [length_reading_cons, List.length_append]
      refine ⟨by omega, ?_⟩
      rintro ⟨q, hq, he⟩
      rcases List.mem_cons.mp hq with rfl | hq
      · exact absurd he hp
      · have hlate := hlt ⟨q, hq, he⟩
        omega
  | @more p ps w out hp hs hw h ih =>
      rw [swallows_cons_iff] at hfewer
      obtain ⟨hle, _⟩ := ih (fun hlate => hfewer (Or.inr hlate))
      rw [length_reading_cons, List.length_append]
      omega
  | fewer hs => exact absurd ((swallows_cons_iff _).mpr (Or.inl hs)) hfewer

/-- Where nothing expands nothing gets longer. -/
theorem Emits.length_le (h : Emits ps out) (hmore : ¬ Expands ps) :
    out.length ≤ (reading ps).length ∧ (Swallows ps → out.length < (reading ps).length) := by
  induction h with
  | nil =>
      refine ⟨le_rfl, ?_⟩
      exact fun hnone => absurd hnone (by decide)
  | @same p ps out hp hs h ih =>
      obtain ⟨hle, hlt⟩ := ih (not_expands_of_cons hmore).2
      rw [length_reading_cons, List.length_append]
      refine ⟨by omega, ?_⟩
      intro hswallows
      rcases (swallows_cons_iff p).mp hswallows with hhere | hlate
      · exact absurd hhere hs
      · have hshort := hlt hlate
        omega
  | more hp => exact absurd hp (not_expands_of_cons hmore).1
  | @fewer ds run w out x ps hs hw h ih =>
      have hrest : ¬ Expands ps := by
        rintro ⟨q, hq, he⟩
        exact hmore ⟨q, by simp [hq], he⟩
      obtain ⟨hle, _⟩ := ih hrest
      have hone : (Piece.hex ds).reading.length = 1 := by
        rw [swallowed_zero hs]
        decide
      have htwo : (Piece.plain x).reading.length = 1 := rfl
      rw [length_reading_cons, length_reading_cons, length_reading_plain, List.length_append, hone,
        htwo]
      omega

end Emitted

/-! ## Cutting a string -/

section Cutting

variable {s rest : List Byte} {ps : List Piece}

theorem simpleEscape_eq_lookup (c : Byte) : simpleEscape c = letterEscapes.lookup c := by
  revert c
  decide +kernel

theorem isOctal_eq (c : Byte) : isOctal c = isOctalDigit c := by
  revert c
  decide +kernel

theorem ne_slash_of_isHexDigit {c : Byte} (hc : isHexDigit c) : c ≠ charByte '\\' := by
  rintro rfl
  exact absurd hc (by decide)

theorem octalValue_eq_number {ds : List Byte} (hds : ∀ d ∈ ds, isOctalDigit d) :
    octalValue ds = number 8 ds := by
  have hgen (v : Nat) : ds.foldl (fun v b => 8 * v + (b.toNat - 48)) v =
      ds.foldl (fun v d => v * 8 + digitValue d) v := by
    induction ds generalizing v with
    | nil => rfl
    | cons d ds ih =>
        have hlt : digitValue d < 8 := of_decide_eq_true (hds d (by simp))
        have hdigit : Strtoul.isDigit d = true := (digitValue_lt_ten_iff d).mp (by omega)
        rw [List.foldl_cons, List.foldl_cons, digitValue_of_isDigit hdigit, Nat.mul_comm v,
          ih fun e he => hds e (by simp [he])]
  exact hgen 0

theorem pieces_plain {c : Byte} (hc : c ≠ charByte '\\') :
    pieces (c :: s) = (pieces s).map (.plain c :: ·) := by
  rw [pieces.eq_def]
  dsimp only
  rw [if_pos hc]

theorem pieces_run {run : List Byte} (hrun : ∀ c ∈ run, c ≠ charByte '\\') :
    pieces (run ++ rest) = (pieces rest).map (run.map .plain ++ ·) := by
  induction run with
  | nil => simp
  | cons c run ih =>
      rw [List.cons_append, pieces_plain (hrun c (by simp)), ih fun e he => hrun e (by simp [he]),
        Option.map_map]
      rfl

/-- A piece of one character is that character, unless it is a backslash. -/
theorem exists_of_pieces_plain {x : Byte} (hx : x ≠ charByte '\\')
    (h : pieces s = some (.plain x :: ps)) : ∃ t, s = x :: t ∧ pieces t = some ps := by
  cases s with
  | nil =>
      rw [pieces] at h
      cases h
  | cons c s =>
      by_cases hc : c ≠ charByte '\\'
      · rw [pieces_plain hc] at h
        obtain ⟨qs, hqs, heq⟩ := Option.map_eq_some_iff.mp h
        cases heq
        exact ⟨s, rfl, hqs⟩
      · exfalso
        rw [not_not] at hc
        rw [pieces.eq_def] at h
        dsimp only at h
        rw [if_neg (not_not.mpr hc)] at h
        have hother {q : Piece} {t : Option (List Piece)} (hq : q ≠ .plain x) :
            t.map (q :: ·) ≠ some (.plain x :: ps) := by
          intro heq
          obtain ⟨qs, _, hcons⟩ := Option.map_eq_some_iff.mp heq
          exact hq (List.cons.inj hcons).1
        have hslash : Piece.plain c ≠ .plain x := by
          rw [hc]
          intro heq
          exact hx (Piece.plain.inj heq).symm
        split at h
        · exact hslash (List.cons.inj (Option.some.inj h)).1
        · split at h
          · exact hother (by simp) h
          · split at h
            · split at h
              · cases h
              · exact hother (by simp) h
            · split at h
              · exact hother (by simp) h
              · exact hother hslash h

/-- What is written from a turn on. -/
theorem strUnesc_length_turn (hne : s ≠ []) : Opt.strUnesc s.length s =
    (turn s).1 ++ Opt.strUnesc (s.drop (turn s).2).length (s.drop (turn s).2) := by
  obtain ⟨hpos, hle, _⟩ := turn_bounds hne
  obtain ⟨n, hn⟩ : ∃ n, s.length = n + 1 := ⟨s.length - 1, by omega⟩
  rw [hn, strUnesc_turn n hne, strUnesc_fuel]
  rw [List.length_drop]
  omega

theorem turn_plain {c : Byte} (hc : c ≠ charByte '\\') : turn (c :: s) = ([c], 1) := by
  rw [turn, if_pos (by simpa using hc)]
  rfl

theorem strUnesc_run {run : List Byte} (hrun : ∀ c ∈ run, c ≠ charByte '\\') :
    Opt.strUnesc (run ++ rest).length (run ++ rest) = run ++ Opt.strUnesc rest.length rest := by
  induction run with
  | nil => rfl
  | cons c run ih =>
      have hc := hrun c (by simp)
      rw [List.cons_append, strUnesc_length_turn (by simp), turn_plain hc]
      change c :: Opt.strUnesc (run ++ rest).length (run ++ rest) = _
      rw [ih fun e he => hrun e (by simp [he]), List.cons_append]

theorem turn_hex (e : Byte) (t : List Byte) : turn (charByte '\\' :: charByte 'x' :: e :: t) =
    if ¬ Strtoul.isDigit e then ([], 1)
    else (escapedByte ((strtoul 64 16 (e :: t)).value % 2 ^ 32), 2 + (strtoul 64 16 (e :: t)).used) := by
  rfl

section Slash

variable {e : Byte} {t : List Byte}

theorem turn_letter {x : Byte} (hletter : letterEscapes.lookup e = some x) :
    turn (charByte '\\' :: e :: t) = ([x], 2) := by
  rw [turn, if_neg (by simp)]
  rw [← simpleEscape_eq_lookup] at hletter
  simp only [List.getD_cons_succ, List.getD_cons_zero, hletter]

theorem turn_octal (hletter : letterEscapes.lookup e = none) (hx : e ≠ charByte 'x')
    (hoctal : isOctalDigit e) : turn (charByte '\\' :: e :: t) =
      (byteOf (number 8 (((e :: t).take 3).takeWhile isOctalDigit)),
        1 + (((e :: t).take 3).takeWhile isOctalDigit).length) := by
  have hsame : isOctal = isOctalDigit := funext isOctal_eq
  have hdigits : ∀ d ∈ ((e :: t).take 3).takeWhile isOctalDigit, isOctalDigit d :=
    fun d hd => List.mem_takeWhile_imp hd
  rw [turn, if_neg (by simp)]
  rw [← simpleEscape_eq_lookup] at hletter
  simp only [List.getD_cons_succ, List.getD_cons_zero, hletter, hx, hsame, hoctal, ↓reduceIte,
    List.drop_one, List.tail_cons]
  rw [octalValue_eq_number hdigits]
  rfl

theorem turn_other (hletter : letterEscapes.lookup e = none) (hx : e ≠ charByte 'x')
    (hoctal : ¬ isOctalDigit e) : turn (charByte '\\' :: e :: t) = ([charByte '\\'], 1) := by
  rw [turn, if_neg (by simp)]
  rw [← simpleEscape_eq_lookup] at hletter
  rw [← isOctal_eq] at hoctal
  simp only [List.getD_cons_succ, List.getD_cons_zero, hletter, hx, hoctal, ↓reduceIte,
    Bool.false_eq_true]

end Slash

/-- Digits that start with a letter are copied with the `x`. -/
theorem emits_letter {d : Byte} {ds : List Byte} (hd : ¬ Strtoul.isDigit d)
    (hds : ∀ e ∈ d :: ds, isHexDigit e) (h : Emits ps (Opt.strUnesc rest.length rest)) :
    Emits (.hex (d :: ds) :: ps)
      (Opt.strUnesc (charByte '\\' :: charByte 'x' :: (d :: ds ++ rest)).length
        (charByte '\\' :: charByte 'x' :: (d :: ds ++ rest))) := by
  have hrun : ∀ c ∈ charByte 'x' :: d :: ds, c ≠ charByte '\\' := by
    intro c hc
    rcases List.mem_cons.mp hc with rfl | hc
    · decide
    · exact ne_slash_of_isHexDigit (hds c hc)
  rw [strUnesc_length_turn (by simp), List.cons_append, turn_hex, if_pos hd]
  change Emits _ (Opt.strUnesc ((charByte 'x' :: d :: ds) ++ rest).length
    ((charByte 'x' :: d :: ds) ++ rest))
  rw [strUnesc_run hrun]
  refine Emits.more ?_ ?_ ?_ h
  · exact decide_eq_true (Or.inl hd)
  · intro hs
    have hzero := swallowed_zero hs
    rw [List.cons.injEq] at hzero
    rw [hzero.1] at hd
    exact hd (by decide)
  · have hone : (byteOf (number 16 (d :: ds))).length ≤ 1 := by
      unfold byteOf
      split
      · simp
      · simp
    change (byteOf (number 16 (d :: ds))).length < _
    simp only [List.length_cons]
    omega

/-- The byte of a number is that of its low 32 bits, unless it expands. -/
theorem escapedByte_of_not_expands {ds : List Byte} (h : ¬ (Piece.hex ds).expands) :
    escapedByte ((if 2 ^ 64 ≤ number 16 ds then 2 ^ 64 - 1 else number 16 ds) % 2 ^ 32) =
      byteOf (number 16 ds) := by
  have hkeep : ¬ (255 < number 16 ds ∧ number 16 ds < 2 ^ 64 ∧ number 16 ds % 2 ^ 32 ≤ 255) :=
    fun hb => h (decide_eq_true (Or.inr hb))
  unfold escapedByte byteOf
  by_cases hsmall : number 16 ds ≤ 255
  · rw [if_neg (by omega : ¬ 2 ^ 64 ≤ number 16 ds), Nat.mod_eq_of_lt (by omega), if_pos hsmall]
  · rw [if_neg hsmall]
    by_cases hrange : 2 ^ 64 ≤ number 16 ds
    · rw [if_pos hrange]
      rfl
    · rw [if_neg hrange, if_neg (by omega)]

/-- Digits that start with a decimal digit are left to `strtoul`. -/
theorem emits_number {d : Byte} {ds : List Byte} (hd : Strtoul.isDigit d)
    (hds : ∀ e ∈ d :: ds, digitValue e < 16) (hrest : ∀ e ∈ rest.head?, 16 ≤ digitValue e)
    (hmarked : ¬ hexPrefix (d :: ds ++ rest)) (hs : ¬ swallowed (.hex (d :: ds) :: ps))
    (h : Emits ps (Opt.strUnesc rest.length rest)) :
    Emits (.hex (d :: ds) :: ps)
      (Opt.strUnesc (charByte '\\' :: charByte 'x' :: (d :: ds ++ rest)).length
        (charByte '\\' :: charByte 'x' :: (d :: ds ++ rest))) := by
  have hbase : readBase 16 (d :: (ds ++ rest)) = (16, 0) := by
    rw [readBase, if_neg (fun hhex => hmarked hhex.2)]
    rfl
  have hnumber := @strtoul_digits 64 16 16 0 d (ds ++ rest) (d :: ds) rest hd hbase rfl (by simp)
    hds hrest
  rw [Nat.zero_add] at hnumber
  have hvalue : (strtoul 64 16 (d :: (ds ++ rest))).value =
      if 2 ^ 64 ≤ number 16 (d :: ds) then 2 ^ 64 - 1 else number 16 (d :: ds) := by
    rw [hnumber]
    split
    · rfl
    · rfl
  have hused : (strtoul 64 16 (d :: (ds ++ rest))).used = (d :: ds).length := by
    rw [hnumber]
    split
    · rfl
    · rfl
  have hbehind : (charByte '\\' :: charByte 'x' :: (d :: ds ++ rest)).drop (2 + (d :: ds).length) =
      rest := by
    rw [← List.drop_drop]
    exact List.drop_left
  rw [strUnesc_length_turn (by simp), List.cons_append, turn_hex, if_neg (not_not.mpr hd), hvalue,
    hused]
  rw [← List.cons_append]
  dsimp only
  rw [hbehind]
  by_cases hexpands : (Piece.hex (d :: ds)).expands
  · have hwraps : ¬ Strtoul.isDigit d ∨ 255 < number 16 (d :: ds) ∧ number 16 (d :: ds) < 2 ^ 64 ∧
        number 16 (d :: ds) % 2 ^ 32 ≤ 255 := of_decide_eq_true hexpands
    obtain ⟨hlarge, hrange, hlow⟩ := hwraps.resolve_left (not_not.mpr hd)
    rw [if_neg (by omega)]
    refine Emits.more hexpands hs ?_ h
    change (byteOf (number 16 (d :: ds))).length < _
    rw [byteOf, if_neg (by omega), escapedByte, if_pos hlow]
    exact Nat.zero_lt_one
  · rw [escapedByte_of_not_expands hexpands]
    exact Emits.same hexpands hs h

/-- A prefix is left out, and the digits behind it are taken. -/
theorem emits_prefixed {x : Byte} {run : List Byte} (hx : x ||| 32#8 = charByte 'x') (hne : run ≠ [])
    (hrun : ∀ e ∈ run, digitValue e < 16) (hrest : ∀ e ∈ rest.head?, 16 ≤ digitValue e)
    (h : Emits ps (Opt.strUnesc rest.length rest)) :
    Emits (.hex [charByte '0'] :: .plain x :: (run.map .plain ++ ps))
      (Opt.strUnesc (charByte '\\' :: charByte 'x' :: charByte '0' :: x :: (run ++ rest)).length
        (charByte '\\' :: charByte 'x' :: charByte '0' :: x :: (run ++ rest))) := by
  obtain ⟨e, es, rfl⟩ := List.exists_cons_of_ne_nil hne
  have he : digitValue e < 16 := hrun e (by simp)
  have hd : Strtoul.isDigit (charByte '0') := by decide
  have hmarked : hexPrefix (charByte '0' :: x :: (e :: es ++ rest)) = true :=
    decide_eq_true ⟨rfl, hx, he⟩
  have hbase : readBase 16 (charByte '0' :: x :: (e :: es ++ rest)) = (16, 2) := by
    rw [readBase, if_pos ⟨Or.inr rfl, hmarked⟩]
  have hnumber := @strtoul_digits 64 16 16 2 (charByte '0') (x :: (e :: es ++ rest)) (e :: es) rest hd
    hbase rfl (by simp) hrun hrest
  have hused : (strtoul 64 16 (charByte '0' :: x :: (e :: es ++ rest))).used =
      2 + (e :: es).length := by
    rw [hnumber]
    split
    · rfl
    · rfl
  have hbehind : (charByte '\\' :: charByte 'x' :: charByte '0' :: x :: (e :: es ++ rest)).drop
      (2 + (2 + (e :: es).length)) = rest := by
    rw [← List.drop_drop, ← List.drop_drop]
    exact List.drop_left
  rw [strUnesc_length_turn (by simp), turn_hex, if_neg (not_not.mpr hd), hused]
  dsimp only
  rw [hbehind]
  refine @Emits.fewer _ (e :: es) _ _ _ _ ?_ ?_ h
  · exact decide_eq_true ⟨rfl, hx, decide_eq_true he⟩
  · unfold escapedByte
    split
    · simp
    · simp

/-- A prefix is a zero by itself with an `x` and a digit behind it. -/
theorem exists_of_hexPrefix {ds : List Byte} (hds : ∀ e ∈ ds, digitValue e < 16)
    (hrest : ∀ e ∈ rest.head?, 16 ≤ digitValue e) (h : hexPrefix (ds ++ rest)) :
    ∃ x e t, ds = [charByte '0'] ∧ rest = x :: e :: t ∧ x ||| 32#8 = charByte 'x' ∧
      digitValue e < 16 := by
  have hx : ∀ x : Byte, x ||| 32#8 = 120#8 → 16 ≤ digitValue x := by decide +kernel
  match hs : ds ++ rest, h with
  | z :: x :: e :: t, h =>
      obtain ⟨hz, hletter, he⟩ := of_decide_eq_true h
      match ds, hs with
      | [], hs =>
          rw [List.nil_append] at hs
          have hzero := hrest z (by rw [hs]; rfl)
          rw [hz] at hzero
          exact absurd hzero (by decide)
      | [d], hs =>
          obtain ⟨rfl, rfl⟩ := List.cons.inj hs
          exact ⟨x, e, t, by rw [hz]; rfl, rfl, hletter, he⟩
      | d :: d' :: ds, hs =>
          have hsecond : d' = x := (List.cons.inj (List.cons.inj hs).2).1
          have hlt := hds d' (by simp)
          have hge := hx x hletter
          rw [hsecond] at hlt
          omega

/-- Digits are swallowed where there is a prefix. -/
theorem hexPrefix_of_swallowed {ds : List Byte} (h : pieces rest = some ps)
    (hs : swallowed (.hex ds :: ps)) : hexPrefix (ds ++ rest) := by
  unfold swallowed at hs
  split at hs
  · rename_i heq
    cases heq
    obtain ⟨hzero, hx, he⟩ := of_decide_eq_true hs
    have hslash : ∀ x : Byte, x ||| 32#8 = charByte 'x' → x ≠ charByte '\\' := by decide +kernel
    obtain ⟨t, rfl, ht⟩ := exists_of_pieces_plain (hslash _ hx) h
    obtain ⟨t, rfl, _⟩ := exists_of_pieces_plain (ne_slash_of_isHexDigit he) ht
    rw [hzero]
    exact decide_eq_true ⟨rfl, hx, of_decide_eq_true he⟩
  · cases hs

/-- An escape of hexadecimal digits, when what is written for shorter strings is known. -/
theorem emits_hex {d : Byte} {ds : List Byte} (hds : ∀ e ∈ d :: ds, digitValue e < 16)
    (hrest : ∀ e ∈ rest.head?, 16 ≤ digitValue e) (h : pieces rest = some ps)
    (ih : ∀ t qs, t.length ≤ rest.length → pieces t = some qs →
      Emits qs (Opt.strUnesc t.length t)) :
    Emits (.hex (d :: ds) :: ps)
      (Opt.strUnesc (charByte '\\' :: charByte 'x' :: (d :: ds ++ rest)).length
        (charByte '\\' :: charByte 'x' :: (d :: ds ++ rest))) := by
  have hlate := ih rest ps le_rfl h
  by_cases hd : Strtoul.isDigit d
  · by_cases hmarked : hexPrefix (d :: ds ++ rest)
    · obtain ⟨x, e, t, hzero, rfl, hx, he⟩ := exists_of_hexPrefix hds hrest hmarked
      obtain ⟨run, t', hsplit, hne, hrun, ht'⟩ := exists_run he t
      have hslash : ∀ x : Byte, x ||| 32#8 = charByte 'x' → x ≠ charByte '\\' := by decide +kernel
      have hcopied : ∀ c ∈ x :: run, c ≠ charByte '\\' := by
        intro c hc
        rcases List.mem_cons.mp hc with rfl | hc
        · exact hslash c hx
        · exact ne_slash_of_isHexDigit (decide_eq_true (hrun c hc))
      rw [hsplit] at h ih ⊢
      rw [hzero]
      rw [← List.cons_append, pieces_run hcopied] at h
      obtain ⟨qs, hqs, rfl⟩ := Option.map_eq_some_iff.mp h
      exact emits_prefixed hx hne hrun ht'
        (ih t' qs (by rw [List.length_cons, List.length_append]; omega) hqs)
    · exact emits_number hd hds hrest hmarked (fun hs => hmarked (hexPrefix_of_swallowed h hs)) hlate
  · exact emits_letter hd (fun e he => decide_eq_true (hds e he)) hlate

/-- Pieces other than escapes of hexadecimal digits are written as what they stand for. -/
theorem emits_turn {p : Piece} (hne : s ≠ []) (hp : ∀ ds, p ≠ .hex ds)
    (hturn : (turn s).1 = p.reading) (hrest : s.drop (turn s).2 = rest)
    (h : Emits ps (Opt.strUnesc rest.length rest)) : Emits (p :: ps) (Opt.strUnesc s.length s) := by
  rw [strUnesc_length_turn hne, hturn, hrest]
  refine Emits.same ?_ ?_ h
  · cases p with
    | hex ds => exact absurd rfl (hp ds)
    | _ => exact Bool.false_ne_true
  · cases p with
    | hex ds => exact absurd rfl (hp ds)
    | _ => exact Bool.false_ne_true

/-- What `str_unesc` writes for a string is one of the things it can write for its pieces. -/
theorem emits_of_pieces (h : pieces s = some ps) : Emits ps (Opt.strUnesc s.length s) := by
  -- The induction is on the length of what is left: a piece may take any number of characters.
  induction hlen : s.length using Nat.strong_induction_on generalizing s ps with
  | _ n ih =>
      subst hlen
      have ih' : ∀ t qs, t.length < s.length → pieces t = some qs →
          Emits qs (Opt.strUnesc t.length t) := fun t qs ht hqs => ih t.length ht hqs rfl
      rw [pieces.eq_def] at h
      cases s with
      | nil =>
          cases h
          exact Emits.nil
      | cons c s =>
          dsimp only at h
          by_cases hc : c ≠ charByte '\\'
          · rw [if_pos hc] at h
            obtain ⟨qs, hqs, rfl⟩ := Option.map_eq_some_iff.mp h
            refine emits_turn (by simp) (by simp) ?_ ?_ (ih' s qs (by simp) hqs)
            · rw [turn_plain hc]
              rfl
            · rw [turn_plain hc]
              rfl
          rw [if_neg hc] at h
          rw [not_not] at hc
          subst hc
          cases s with
          | nil =>
              cases h
              exact @emits_turn _ [] _ _ (by simp) (by simp) rfl rfl Emits.nil
          | cons e t =>
              dsimp only at h
              cases hletter : letterEscapes.lookup e with
              | some x =>
                  rw [hletter] at h
                  obtain ⟨qs, hqs, rfl⟩ := Option.map_eq_some_iff.mp h
                  have hturn := turn_letter (t := t) hletter
                  exact emits_turn (by simp) (by simp) (congrArg Prod.fst hturn)
                    (by rw [hturn]; rfl) (ih' t qs (by simp) hqs)
              | none =>
                  rw [hletter] at h
                  dsimp only at h
                  by_cases hx : e = charByte 'x'
                  · subst hx
                    rw [if_pos rfl] at h
                    by_cases hempty : t.takeWhile isHexDigit = []
                    · rw [if_pos hempty] at h
                      cases h
                    rw [if_neg hempty] at h
                    obtain ⟨qs, hqs, rfl⟩ := Option.map_eq_some_iff.mp h
                    obtain ⟨d, ds, hdigits⟩ := List.exists_cons_of_ne_nil hempty
                    have hds : ∀ a ∈ d :: ds, digitValue a < 16 := by
                      intro a ha
                      rw [← hdigits] at ha
                      exact of_decide_eq_true (List.mem_takeWhile_imp (p := isHexDigit) ha)
                    have hrest : ∀ a ∈ (t.dropWhile isHexDigit).head?, 16 ≤ digitValue a := by
                      intro a ha
                      have hstop := List.head?_dropWhile_not isHexDigit t
                      rw [ha] at hstop
                      simpa [isHexDigit] using hstop
                    have hsplit : t = d :: ds ++ t.dropWhile isHexDigit := by
                      rw [← hdigits]
                      exact List.takeWhile_append_dropWhile.symm
                    have hshort := (List.dropWhile_sublist (l := t) isHexDigit).length_le
                    have hemits := emits_hex hds hrest hqs fun u rs hu hrs => ih' u rs
                      (by simp only [List.length_cons]; omega) hrs
                    rwa [← hsplit, ← hdigits] at hemits
                  · rw [if_neg hx] at h
                    by_cases hoctal : isOctalDigit e
                    · rw [if_pos hoctal] at h
                      obtain ⟨qs, hqs, rfl⟩ := Option.map_eq_some_iff.mp h
                      have hturn := turn_octal (t := t) hletter hx hoctal
                      refine emits_turn (by simp) (by simp) (congrArg Prod.fst hturn) ?_
                        (ih' _ qs ?_ hqs)
                      · rw [hturn, List.take_succ_cons, List.takeWhile_cons_of_pos hoctal,
                          List.length_cons, ← List.drop_drop]
                        rfl
                      · rw [List.length_drop, List.length_cons, List.length_cons]
                        omega
                    · rw [if_neg hoctal] at h
                      obtain ⟨qs, hqs, rfl⟩ := Option.map_eq_some_iff.mp h
                      have hturn := turn_other (t := t) hletter hx hoctal
                      exact emits_turn (by simp) (by simp) (congrArg Prod.fst hturn)
                        (by rw [hturn]; rfl) (ih' (e :: t) qs (by simp) hqs)

end Cutting

/-! ## Readings -/

theorem reads_iff {s : List Byte} (hs : 0#8 ∉ s) (ps : List Piece) :
    Reads s ps ↔ Opt.strUnesc s.length s = reading ps := by
  constructor
  · intro h
    have hvalue := (strUnesc_spec (fun _ => 0#8) 0 hs).1
    rw [h (fun _ => 0#8) 0, Option.some.injEq, Prod.mk.injEq] at hvalue
    obtain ⟨hlen, hwrite⟩ := hvalue
    have hread := congrArg (fun m => read m 0 (reading ps ++ [0#8]).length) hwrite
    have hsame : (reading ps ++ [0#8]).length = (Opt.strUnesc s.length s ++ [0#8]).length := by
      simp only [List.length_append, List.length_singleton]
      omega
    rw [read_write_self, hsame, read_write_self] at hread
    exact (List.append_cancel_right hread).symm
  · intro h m d
    rw [(strUnesc_spec m d hs).1, h]

/-- For every string in which each `\x` has a digit behind it, `str_unesc` writes what its pieces
stand for if none of them expands or is swallowed; if it writes that, some expand if and only if
some are swallowed. -/
theorem strUnesc_reads_escapes (s : List Byte) (ps : List Piece) (hs : 0#8 ∉ s)
    (hps : pieces s = some ps) :
    (¬ Expands ps ∧ ¬ Swallows ps → Reads s ps) ∧ (Reads s ps → (Expands ps ↔ Swallows ps)) := by
  have hemits := emits_of_pieces hps
  rw [reads_iff hs]
  constructor
  · rintro ⟨hmore, hfewer⟩
    exact hemits.eq_reading hmore hfewer
  · intro hreads
    rw [hreads] at hemits
    constructor
    · intro hmore
      by_contra hfewer
      have hlt := (hemits.length_ge hfewer).2 hmore
      omega
    · intro hfewer
      by_contra hmore
      have hlt := (hemits.length_le hmore).2 hfewer
      omega

/-- `\x41\n` -/
theorem strUnesc_reads_escapes_x41n :
    pieces (bytesOf ['\\', 'x', '4', '1', '\\', 'n']) =
        some [.hex (bytesOf ['4', '1']), .letter 10#8] ∧
      Reads (bytesOf ['\\', 'x', '4', '1', '\\', 'n'])
        [.hex (bytesOf ['4', '1']), .letter 10#8] := by
  have hpieces : pieces (bytesOf ['\\', 'x', '4', '1', '\\', 'n']) =
      some [.hex (bytesOf ['4', '1']), .letter 10#8] := by decide +kernel
  exact ⟨hpieces, (strUnesc_reads_escapes _ _ (by decide) hpieces).1 ⟨by decide, by decide⟩⟩

/-- The digit of a newline is copied with its `x`, a value above 2³² becomes a byte, and `\x0` takes
the text behind it for its digits. -/
theorem strUnesc_misreads :
    (pieces (bytesOf ['\\', 'x', 'A']) = some [.hex (bytesOf ['A'])] ∧
      ¬ Reads (bytesOf ['\\', 'x', 'A']) [.hex (bytesOf ['A'])]) ∧
    (pieces (bytesOf ['\\', 'x', '1', '0', '0', '0', '0', '0', '0', '4', '1']) =
        some [.hex (bytesOf ['1', '0', '0', '0', '0', '0', '0', '4', '1'])] ∧
      ¬ Reads (bytesOf ['\\', 'x', '1', '0', '0', '0', '0', '0', '0', '4', '1'])
        [.hex (bytesOf ['1', '0', '0', '0', '0', '0', '0', '4', '1'])]) ∧
    (pieces (bytesOf ['\\', 'x', '0', 'x', '4', '1']) =
        some [.hex (bytesOf ['0']), .plain (charByte 'x'), .plain (charByte '4'),
          .plain (charByte '1')] ∧
      ¬ Reads (bytesOf ['\\', 'x', '0', 'x', '4', '1'])
        [.hex (bytesOf ['0']), .plain (charByte 'x'), .plain (charByte '4'),
          .plain (charByte '1')]) := by
  refine ⟨⟨by decide +kernel, ?_⟩, ⟨by decide +kernel, ?_⟩, ⟨by decide +kernel, ?_⟩⟩
  · rw [reads_iff (by decide)]
    decide +kernel
  · rw [reads_iff (by decide)]
    decide +kernel
  · rw [reads_iff (by decide)]
    decide +kernel

end OpenAAA.Unesc
