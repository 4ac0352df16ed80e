import OpenAAA.Lib.Strtoul
import OpenAAA.Lib.Traced
import OpenAAA.Opt.Input
import Mathlib.Data.List.GetD

/-!
`generic/string/unesc.c`: `str_unesc` with its accesses. The string at `s` is a list of
characters that are read by their offsets, the destination is written in memory, and both
kinds of accesses are recorded. The text that it writes is the one `strUnesc` reads.
-/

namespace OpenAAA.Unesc

open Memory Traces Opt

/-- `s[k]`; the character behind the last one ends the string. -/
def readSrc (src : List Byte) (s k : Nat) : Traced ByteEvent Byte :=
  record (.read (s + k)) (src.getD (s + k) 0#8)

/-- `*d = x` -/
def put (m : Mem) (d : Nat) (x : Byte) : Traced ByteEvent Mem := record (.write d) (write m d [x])

/-- `*d++ = v` for a value of at most 255, and no byte for another. -/
def putValue (m : Mem) (d v : Nat) : Traced ByteEvent (Nat × Mem) :=
  if v ≤ 255 then do
    let m ← put m d (BitVec.ofNat 8 v)
    pure (d + 1, m)
  else pure (d, m)

/-- `strtoul(s, &p, 16)`: the value, and `p`. -/
def readNumber (src : List Byte) (s : Nat) : Traced ByteEvent (Nat × Nat) := do
  tell ((List.range' s (Strtoul.looksAt 16 (src.drop s))).map .read)
  let number := Strtoul.strtoul 64 16 (src.drop s)
  pure (number.value, s + number.used)

/-- The loop over the second and third octal digit. -/
def readOctal (src : List Byte) : Nat → Nat → Nat → Traced ByteEvent (Nat × Nat)
  | 0, v, s => pure (v, s)
  | left + 1, v, s => do
      let c ← readSrc src s 0
      if isOctal c then readOctal src left (v <<< 3 + c.toNat - 48) (s + 1)
      else pure (v, s)

/-- `str_unesc` from its loop on; the turns of the loop are bounded by `fuel`. -/
def strUnescFrom (src : List Byte) : Nat → Nat → Nat → Mem → Traced ByteEvent (Option (Nat × Mem))
  | 0, _, _, _ => pure none
  | fuel + 1, d, s, m => do
      let c ← readSrc src s 0
      if c = 0#8 then do
        let m ← put m d 0#8
        pure (some (d, m))
      else do
        let c ← readSrc src s 0
        if c = charByte '\\' then do
          let e ← readSrc src s 1
          match simpleEscape e with
          | some x => do
              let m ← put m d x
              strUnescFrom src fuel (d + 1) (s + 2) m
          | none =>
              if e = charByte 'x' then do
                let h ← readSrc src s 2
                if ¬ Strtoul.isDigit h then strUnescFrom src fuel d (s + 1) m
                else do
                  let (v, p) ← readNumber src (s + 2)
                  let (d, m) ← putValue m d (v % 2 ^ 32)
                  strUnescFrom src fuel d p m
              else do
                let e ← readSrc src s 1
                if isOctal e then do
                  let e ← readSrc src s 1
                  let (v, s) ← readOctal src 2 (e.toNat - 48) (s + 2)
                  let (d, m) ← putValue m d v
                  strUnescFrom src fuel d s m
                else do
                  let c ← readSrc src s 0
                  let m ← put m d c
                  strUnescFrom src fuel (d + 1) (s + 1) m
        else do
          let c ← readSrc src s 0
          let m ← put m d c
          strUnescFrom src fuel (d + 1) (s + 1) m

/-- `str_unesc(d, s)`; a turn for every character and one for the end are enough. -/
def strUnesc (m : Mem) (d : Nat) (src : List Byte) : Traced ByteEvent (Option (Nat × Mem)) :=
  strUnescFrom src (src.length + 1) d 0 m

/-! ## One turn -/

/-- What a turn writes on the rest of a string, and how many characters it leaves behind. -/
def turn (rest : List Byte) : List Byte × Nat :=
  if rest.getD 0 0#8 ≠ charByte '\\' then ([rest.getD 0 0#8], 1)
  else
    match simpleEscape (rest.getD 1 0#8) with
    | some x => ([x], 2)
    | none =>
        if rest.getD 1 0#8 = charByte 'x' then
          if ¬ Strtoul.isDigit (rest.getD 2 0#8) then ([], 1)
          else
            let number := Strtoul.strtoul 64 16 (rest.drop 2)
            (escapedByte (number.value % 2 ^ 32), 2 + number.used)
        else if isOctal (rest.getD 1 0#8) then
          let digits := ((rest.drop 1).take 3).takeWhile isOctal
          (escapedByte (octalValue digits), 1 + digits.length)
        else ([rest.getD 0 0#8], 1)

section Turns

variable {src : List Byte} {d s v fuel : Nat} {m : Mem}

theorem getD_drop (src : List Byte) (s k : Nat) : (src.drop s).getD k 0#8 = src.getD (s + k) 0#8 := by
  rw [List.getD_eq_getElem?_getD, List.getD_eq_getElem?_getD, List.getElem?_drop]

theorem drop_eq_cons (hs : s < src.length) : src.drop s = src.getD s 0#8 :: src.drop (s + 1) := by
  rw [List.drop_eq_getElem_cons hs, List.getD_eq_getElem src 0#8 hs]

/-- The loop takes at most as many digits as it is given, and looks at one more character. -/
theorem readOctal_spec (left : Nat) (hs : s ≤ src.length) :
    value (readOctal src left v s) =
        ((((src.drop s).take left).takeWhile isOctal).foldl (fun v b => 8 * v + (b.toNat - 48)) v,
          s + (((src.drop s).take left).takeWhile isOctal).length) ∧
      (∀ a ∈ reads (trace (readOctal src left v s)), a ≤ src.length) ∧
      writes (trace (readOctal src left v s)) = [] := by
  induction left generalizing v s with
  | zero => simp [readOctal, reads, writes]
  | succ left ih =>
      rw [readOctal, value_bind, trace_bind]
      simp only [readSrc, value_record, trace_record, Nat.add_zero]
      by_cases hc : isOctal (src.getD s 0#8)
      · have hlt : s < src.length := by
          by_contra hend
          rw [List.getD_eq_default _ _ (by omega)] at hc
          exact absurd hc (by decide)
        have hdrop := drop_eq_cons hlt
        obtain ⟨hvalue, hreads, hwrites⟩ := ih
          (v := v <<< 3 + (src.getD s 0#8).toNat - 48) (s := s + 1) (by omega)
        have hrange : 48 ≤ (src.getD s 0#8).toNat ∧ (src.getD s 0#8).toNat ≤ 55 := of_decide_eq_true hc
        have hdigit : v <<< 3 + (src.getD s 0#8).toNat - 48 = 8 * v + ((src.getD s 0#8).toNat - 48) := by
          rw [Nat.shiftLeft_eq]
          omega
        simp only [hc, ↓reduceIte]
        refine ⟨?_, ?_, ?_⟩
        · rw [hvalue, hdrop, List.take_succ_cons, List.takeWhile_cons_of_pos hc, List.foldl_cons,
            List.length_cons, hdigit]
          congr 1
          omega
        · intro a ha
          rw [List.singleton_append, reads, List.mem_cons] at ha
          rcases ha with rfl | ha
          · exact hs
          · exact hreads a ha
        · rw [List.singleton_append, writes, hwrites]
      · have htake : ((src.drop s).take (left + 1)).takeWhile isOctal = [] := by
          cases hdrop : src.drop s with
          | nil => rfl
          | cons c rest =>
              have hhead : src.getD s 0#8 = c := by
                have hget := getD_drop src s 0
                rw [hdrop] at hget
                exact hget.symm
              rw [List.take_succ_cons, List.takeWhile_cons_of_neg (by rwa [← hhead])]
        rw [Bool.not_eq_true] at hc
        simp only [hc, htake, Bool.false_eq_true, ↓reduceIte]
        refine ⟨rfl, ?_, rfl⟩
        intro a ha
        have hread : a = s := by simpa [reads] using ha
        omega

/-- The characters that `strtoul` examines belong to the string or end it. -/
theorem readNumber_spec (hs : s ≤ src.length) :
    value (readNumber src s) = ((Strtoul.strtoul 64 16 (src.drop s)).value,
        s + (Strtoul.strtoul 64 16 (src.drop s)).used) ∧
      (∀ a ∈ reads (trace (readNumber src s)), a ≤ src.length) ∧
      writes (trace (readNumber src s)) = [] := by
  have htrace : trace (readNumber src s) =
      (List.range' s (Strtoul.looksAt 16 (src.drop s))).map .read :=
    List.append_nil _
  rw [htrace, reads_map_read, writes_map_read]
  refine ⟨rfl, ?_, rfl⟩
  intro a ha
  have hlooks := Strtoul.looksAt_le 16 (src.drop s)
  rw [List.length_drop] at hlooks
  rw [List.mem_range'_1] at ha
  omega

/-- `x` reads characters of the string or its end, writes `n` bytes from `d` on, and goes on as
`next`. -/
structure GoesOn {α : Type} (src : List Byte) (x next : Traced ByteEvent α) (d n : Nat) : Prop where
  value_eq : value x = value next
  trace_eq : ∃ events, trace x = events ++ trace next ∧ (∀ a ∈ reads events, a ≤ src.length) ∧
    writes events = List.range' d n

theorem GoesOn.refl {α : Type} (x : Traced ByteEvent α) (d : Nat) : GoesOn src x x d 0 :=
  ⟨rfl, [], rfl, by simp [reads], rfl⟩

/-- A part that writes nothing. -/
theorem GoesOn.reading {α β : Type} {x : Traced ByteEvent β} {f : β → Traced ByteEvent α}
    {next : Traced ByteEvent α} {n : Nat} (hreads : ∀ a ∈ reads (trace x), a ≤ src.length)
    (hwrites : writes (trace x) = []) (h : GoesOn src (f (value x)) next d n) :
    GoesOn src (x >>= f) next d n := by
  obtain ⟨hvalue, events, htrace, hmore, hlate⟩ := h
  refine ⟨hvalue, trace x ++ events, ?_, ?_, ?_⟩
  · rw [trace_bind, htrace, List.append_assoc]
  · intro a ha
    rw [reads_append, List.mem_append] at ha
    rcases ha with ha | ha
    · exact hreads a ha
    · exact hmore a ha
  · rw [writes_append, hwrites, hlate, List.nil_append]

theorem GoesOn.readSrc {α : Type} {k n : Nat} {f : Byte → Traced ByteEvent α}
    {next : Traced ByteEvent α} (hk : s + k ≤ src.length)
    (h : GoesOn src (f (src.getD (s + k) 0#8)) next d n) :
    GoesOn src (readSrc src s k >>= f) next d n := by
  refine GoesOn.reading ?_ rfl h
  intro a ha
  have hread : a = s + k := by simpa [Unesc.readSrc, reads] using ha
  omega

theorem GoesOn.put {α : Type} {x : Byte} {n : Nat} {f : Mem → Traced ByteEvent α}
    {next : Traced ByteEvent α} (h : GoesOn src (f (write m d [x])) next (d + 1) n) :
    GoesOn src (put m d x >>= f) next d (n + 1) := by
  obtain ⟨hvalue, events, htrace, hreads, hwrites⟩ := h
  refine ⟨hvalue, .write d :: events, ?_, hreads, ?_⟩
  · rw [trace_bind]
    exact congrArg (ByteEvent.write d :: ·) htrace
  · rw [writes, hwrites, List.range'_succ]

theorem GoesOn.putValue {α : Type} {f : Nat × Mem → Traced ByteEvent α}
    {next : Traced ByteEvent α}
    (h : GoesOn src (f (d + (escapedByte v).length, write m d (escapedByte v))) next
      (d + (escapedByte v).length) 0) :
    GoesOn src (putValue m d v >>= f) next d (escapedByte v).length := by
  unfold Unesc.putValue
  unfold escapedByte at *
  by_cases hv : v ≤ 255
  · simp only [hv, ↓reduceIte, List.length_singleton] at h ⊢
    obtain ⟨hvalue, events, htrace, hreads, hwrites⟩ := h
    refine ⟨hvalue, .write d :: events, ?_, hreads, ?_⟩
    · rw [trace_bind]
      exact congrArg (ByteEvent.write d :: ·) htrace
    · rw [writes, hwrites]
      rfl
  · simp only [hv, ↓reduceIte, List.length_nil, Nat.add_zero, write_nil] at h ⊢
    exact h

/-- A turn writes the text of `turn` and goes on behind the characters it took. -/
theorem strUnescFrom_turn (hs : s < src.length) (hc : src.getD s 0#8 ≠ 0#8) :
    GoesOn src (strUnescFrom src (fuel + 1) d s m)
      (strUnescFrom src fuel (d + (turn (src.drop s)).1.length) (s + (turn (src.drop s)).2)
        (write m d (turn (src.drop s)).1)) d (turn (src.drop s)).1.length := by
  rw [strUnescFrom]
  refine GoesOn.readSrc (by omega) ?_
  rw [Nat.add_zero, if_neg hc]
  refine GoesOn.readSrc (by omega) ?_
  unfold turn
  simp only [getD_drop, List.drop_drop, Nat.add_zero]
  by_cases hslash : src.getD s 0#8 = charByte '\\'
  · have hnext : s + 1 ≤ src.length := by omega
    rw [if_pos hslash, if_neg (not_not.mpr hslash)]
    refine GoesOn.readSrc hnext ?_
    cases hletter : simpleEscape (src.getD (s + 1) 0#8) with
    | some x => exact GoesOn.put (GoesOn.refl _ _)
    | none =>
        dsimp only
        have hinside (h : src.getD (s + 1) 0#8 ≠ 0#8) : s + 2 ≤ src.length := by
          by_contra hend
          exact h (List.getD_eq_default _ _ (by omega))
        by_cases hx : src.getD (s + 1) 0#8 = charByte 'x'
        · have htwo : s + 2 ≤ src.length := hinside (by rw [hx]; decide)
          rw [if_pos hx, if_pos hx]
          refine GoesOn.readSrc htwo ?_
          by_cases hdigit : ¬ Strtoul.isDigit (src.getD (s + 2) 0#8)
          · rw [if_pos hdigit, if_pos hdigit, write_nil]
            exact GoesOn.refl _ _
          · rw [if_neg hdigit, if_neg hdigit]
            obtain ⟨hvalue, hreads, hwrites⟩ := readNumber_spec htwo
            refine GoesOn.reading hreads hwrites ?_
            rw [hvalue]
            refine GoesOn.putValue ?_
            dsimp only
            rw [Nat.add_assoc s 2]
            exact GoesOn.refl _ _
        · rw [if_neg hx, if_neg hx]
          refine GoesOn.readSrc hnext ?_
          by_cases hoctal : isOctal (src.getD (s + 1) 0#8)
          · have htwo : s + 2 ≤ src.length := by
              refine hinside fun hzero => ?_
              rw [hzero] at hoctal
              exact absurd hoctal (by decide)
            have hdigits : ((src.drop (s + 1)).take 3).takeWhile isOctal =
                src.getD (s + 1) 0#8 :: ((src.drop (s + 2)).take 2).takeWhile isOctal := by
              rw [drop_eq_cons (by omega), List.take_succ_cons, List.takeWhile_cons_of_pos hoctal]
            have hoctalValue (c : Byte) (ds : List Byte) : octalValue (c :: ds) =
                ds.foldl (fun v b => 8 * v + (b.toNat - 48)) (c.toNat - 48) := by
              rw [octalValue, List.foldl_cons, Nat.mul_zero, Nat.zero_add]
            rw [hdigits, hoctalValue]
            rw [if_pos hoctal, if_pos hoctal]
            refine GoesOn.readSrc hnext ?_
            obtain ⟨hvalue, hreads, hwrites⟩ := readOctal_spec
              (v := (src.getD (s + 1) 0#8).toNat - 48) 2 htwo
            refine GoesOn.reading hreads hwrites ?_
            rw [hvalue]
            refine GoesOn.putValue ?_
            dsimp only
            have hend (n : Nat) : s + (1 + (n + 1)) = s + 2 + n := by omega
            rw [List.length_cons, hend]
            exact GoesOn.refl _ _
          · rw [if_neg hoctal, if_neg hoctal]
            refine GoesOn.readSrc (by omega) ?_
            exact GoesOn.put (GoesOn.refl _ _)
  · rw [if_neg hslash, if_pos hslash]
    refine GoesOn.readSrc (by omega) ?_
    exact GoesOn.put (GoesOn.refl _ _)

end Turns

/-! ## The text -/

section Text

theorem hexDigit?_eq (b : Byte) :
    hexDigit? b = if Strtoul.digitValue b < 16 then some (Strtoul.digitValue b) else none := by
  revert b
  decide +kernel

theorem toLower_eq_x_iff (x : Byte) : toLower x = charByte 'x' ↔ x ||| 32#8 = 120#8 := by
  revert x
  decide +kernel

/-- The digits are the longest run of them. -/
theorem hexDigits_run (v : Nat) {ds rest : List Byte} (hds : ∀ d ∈ ds, Strtoul.digitValue d < 16)
    (hrest : ∀ d ∈ rest.head?, 16 ≤ Strtoul.digitValue d) :
    hexDigits v (ds ++ rest) = (ds.foldl (fun v d => v * 16 + Strtoul.digitValue d) v, rest) := by
  induction ds generalizing v with
  | nil =>
      cases rest with
      | nil => rfl
      | cons d rest =>
          have hd := hrest d rfl
          rw [List.nil_append, hexDigits, hexDigit?_eq, if_neg (by omega)]
          rfl
  | cons d ds ih =>
      have hd := hds d (by simp)
      rw [List.cons_append, hexDigits, hexDigit?_eq, if_pos hd, List.foldl_cons, Nat.mul_comm v]
      exact ih _ fun e he => hds e (by simp [he])

/-- The prefix that `strtoul` leaves out. -/
theorem strtoul16_eq (s : List Byte) : strtoul16 s =
    let scan := hexDigits 0 (s.drop (Strtoul.readBase 16 s).2)
    (min scan.1 (2 ^ 64 - 1) % 2 ^ 32, scan.2) := by
  match s with
  | [] => rfl
  | [z] => rfl
  | [z, x] => rfl
  | z :: x :: d :: rest =>
      have hsome : (hexDigit? d).isSome = true ↔ Strtoul.digitValue d < 16 := by
        rw [hexDigit?_eq]
        split
        · simpa
        · rename_i hd
          simpa using hd
      have hiff : (z = charByte '0' ∧ toLower x = charByte 'x' ∧ (hexDigit? d).isSome) ↔
          (16 = 0 ∨ 16 = 16) ∧ Strtoul.hexPrefix (z :: x :: d :: rest) = true := by
        rw [Strtoul.hexPrefix, decide_eq_true_eq, toLower_eq_x_iff, hsome]
        exact ⟨fun h => ⟨Or.inr rfl, h⟩, fun h => h.2⟩
      unfold strtoul16 Strtoul.readBase
      by_cases hhex : z = charByte '0' ∧ toLower x = charByte 'x' ∧ (hexDigit? d).isSome
      · rw [if_pos (hiff.mp hhex)]
        dsimp only
        rw [if_pos hhex]
        rfl
      · rw [if_neg (fun h => hhex (hiff.mpr h))]
        dsimp only
        rw [if_neg hhex]
        rfl

/-- A text that starts with a digit, behind its prefix. -/
theorem readBase_sixteen {c : Byte} {s : List Byte} (hc : Strtoul.isDigit c) :
    ∃ skip e t, Strtoul.readBase 16 (c :: s) = (16, skip) ∧ (c :: s).drop skip = e :: t ∧
      Strtoul.digitValue e < 16 := by
  have hlt := (Strtoul.digitValue_lt_ten_iff c).mpr hc
  unfold Strtoul.readBase
  by_cases hhex : (16 = 0 ∨ 16 = 16) ∧ Strtoul.hexPrefix (c :: s) = true
  · rw [if_pos hhex]
    match s, hhex.2 with
    | x :: d :: rest, h =>
        rw [Strtoul.hexPrefix, decide_eq_true_eq] at h
        exact ⟨2, d, rest, rfl, rfl, h.2.2⟩
  · rw [if_neg hhex]
    exact ⟨0, c, s, rfl, rfl, by omega⟩

theorem strtoul16_of_isDigit {c : Byte} {s : List Byte} (hc : Strtoul.isDigit c) :
    strtoul16 (c :: s) = ((Strtoul.strtoul 64 16 (c :: s)).value % 2 ^ 32,
      (c :: s).drop (Strtoul.strtoul 64 16 (c :: s)).used) := by
  obtain ⟨skip, e, t, hbase, hdrop, he⟩ := readBase_sixteen (s := s) hc
  obtain ⟨ds, rest, hsplit, hne, hds, hrest⟩ := Strtoul.exists_run he t
  have hbehind : (c :: s).drop (skip + ds.length) = rest := by
    rw [← List.drop_drop, hdrop, hsplit, List.drop_left]
  rw [strtoul16_eq, hbase, Strtoul.strtoul_digits hc hbase (hdrop.trans hsplit) hne hds hrest]
  dsimp only
  rw [hdrop, hsplit, hexDigits_run 0 hds hrest]
  change (min (Strtoul.number 16 ds) _ % _, rest) = _
  by_cases hrange : 2 ^ 64 ≤ Strtoul.number 16 ds
  · rw [if_pos hrange, min_eq_right (by omega)]
    dsimp only
    rw [hbehind]
  · rw [if_neg hrange, min_eq_left (by omega)]
    dsimp only
    rw [hbehind]

/-- A turn takes at least one character and writes at most one. -/
theorem turn_bounds {rest : List Byte} (hne : rest ≠ []) :
    0 < (turn rest).2 ∧ (turn rest).2 ≤ rest.length ∧ (turn rest).1.length ≤ 1 := by
  have hbyte (v : Nat) : (escapedByte v).length ≤ 1 := by
    unfold escapedByte
    split
    · simp
    · simp
  have hlen : 0 < rest.length := List.length_pos_iff.mpr hne
  have hinside {k : Nat} (h : rest.getD k 0#8 ≠ 0#8) : k < rest.length := by
    by_contra hend
    exact h (List.getD_eq_default _ _ (by omega))
  unfold turn
  split
  · simp only [List.length_singleton]
    omega
  · split
    · rename_i x hletter
      have htwo : 1 < rest.length := by
        apply hinside
        intro hzero
        have hend : simpleEscape 0#8 = none := by decide
        rw [hzero, hend] at hletter
        cases hletter
      simp only [List.length_singleton]
      omega
    · split
      · rename_i hx
        have htwo : 1 < rest.length := by
          apply hinside
          rw [hx]
          decide
        split
        · simp only [List.length_nil]
          omega
        · have hused := Strtoul.used_le 64 16 (rest.drop 2)
          rw [List.length_drop] at hused
          have hone := hbyte ((Strtoul.strtoul 64 16 (rest.drop 2)).value % 2 ^ 32)
          dsimp only
          omega
      · split
        · have hdigits := (List.takeWhile_sublist (l := (rest.drop 1).take 3) isOctal).length_le
          rw [List.length_take, List.length_drop] at hdigits
          have hone := hbyte (octalValue (((rest.drop 1).take 3).takeWhile isOctal))
          dsimp only
          omega
        · simp only [List.length_singleton]
          omega

theorem strUnesc_nil (fuel : Nat) : Opt.strUnesc fuel [] = [] := by
  cases fuel with
  | zero => rfl
  | succ fuel => rfl

/-- The text of a turn stands before that of the rest. -/
theorem strUnesc_turn (fuel : Nat) {rest : List Byte} (hne : rest ≠ []) :
    Opt.strUnesc (fuel + 1) rest =
      (turn rest).1 ++ Opt.strUnesc fuel (rest.drop (turn rest).2) := by
  obtain ⟨b, bs, rfl⟩ := List.exists_cons_of_ne_nil hne
  rw [Opt.strUnesc.eq_def, turn]
  dsimp only
  by_cases hslash : b ≠ charByte '\\'
  · rw [if_pos hslash, if_pos (by simpa using hslash)]
    rfl
  rw [if_neg hslash, if_neg (by simpa using hslash)]
  cases bs with
  | nil =>
      have hend : simpleEscape 0#8 = none := by decide
      have hx : (0#8 : Byte) ≠ charByte 'x' := by decide
      have hoctal : ¬ isOctal 0#8 = true := by decide
      simp only [List.getD_cons_succ, List.getD_nil, hend, if_neg hx, if_neg hoctal,
        List.getD_cons_zero, List.drop_one, List.tail_cons, strUnesc_nil, List.append_nil]
  | cons c cs =>
      simp only [List.getD_cons_succ, List.getD_cons_zero]
      cases hletter : simpleEscape c with
      | some x => rfl
      | none =>
          dsimp only
          by_cases hx : c = charByte 'x'
          · rw [if_pos hx, if_pos hx]
            cases cs with
            | nil => rfl
            | cons e cs =>
                by_cases hdigit : Strtoul.isDigit ((e :: cs).getD 0 0#8) = true
                · have hsame : ((e :: cs).head?.map Opt.isDigit).getD false = true := hdigit
                  rw [if_pos hsame, if_neg (not_not.mpr hdigit), strtoul16_of_isDigit (c := e) hdigit]
                  dsimp only
                  rw [← List.drop_drop]
                  rfl
                · have hsame : ¬ ((e :: cs).head?.map Opt.isDigit).getD false = true := hdigit
                  rw [if_neg hsame, if_pos hdigit]
                  rfl
          · rw [if_neg hx, if_neg hx]
            by_cases hoctal : isOctal c
            · have hdigits : (((b :: c :: cs).drop 1).take 3).takeWhile isOctal =
                  c :: (cs.take 2).takeWhile isOctal := by
                rw [List.drop_one, List.tail_cons, List.take_succ_cons,
                  List.takeWhile_cons_of_pos hoctal]
              rw [if_pos hoctal, if_pos hoctal, hdigits]
              dsimp only
              rw [← List.drop_drop]
              rfl
            · rw [if_neg hoctal, if_neg hoctal]
              rfl

/-- As many turns as there are characters are enough, and more change nothing. -/
theorem strUnesc_fuel {fuel : Nat} {rest : List Byte} (hfuel : rest.length ≤ fuel) :
    Opt.strUnesc fuel rest = Opt.strUnesc rest.length rest := by
  induction fuel using Nat.strong_induction_on generalizing rest with
  | _ fuel ih =>
      by_cases hne : rest = []
      · rw [hne, strUnesc_nil, strUnesc_nil]
      · obtain ⟨hpos, hle, _⟩ := turn_bounds hne
        obtain ⟨n, hn⟩ : ∃ n, rest.length = n + 1 := ⟨rest.length - 1, by omega⟩
        obtain ⟨k, rfl⟩ : ∃ k, fuel = k + 1 := ⟨fuel - 1, by omega⟩
        have hshort : (rest.drop (turn rest).2).length ≤ n := by
          rw [List.length_drop]
          omega
        rw [strUnesc_turn k hne, hn, strUnesc_turn n hne, ih k (by omega) (by omega)]
        by_cases hsame : n = k
        · rw [hsame, ih k (by omega) (by omega)]
        · rw [ih n (by omega) hshort]

theorem length_strUnesc_le (fuel : Nat) (rest : List Byte) :
    (Opt.strUnesc fuel rest).length ≤ rest.length := by
  induction fuel generalizing rest with
  | zero => simp [Opt.strUnesc]
  | succ fuel ih =>
      by_cases hne : rest = []
      · rw [hne, strUnesc_nil]
      · obtain ⟨hpos, hle, hone⟩ := turn_bounds hne
        have hrest := ih (rest.drop (turn rest).2)
        rw [List.length_drop] at hrest
        rw [strUnesc_turn fuel hne, List.length_append]
        omega

end Text

/-! ## The loop -/

section Loop

variable {src : List Byte} {d s fuel : Nat} {m : Mem}

/-- From `s` on the loop writes the text of the rest and the byte that ends it, each byte once and
in order, and returns where that byte is. -/
theorem strUnescFrom_spec (hsrc : 0#8 ∉ src) (hs : s ≤ src.length) (hfuel : src.length - s < fuel) :
    value (strUnescFrom src fuel d s m) =
        some (d + (Opt.strUnesc fuel (src.drop s)).length,
          write m d (Opt.strUnesc fuel (src.drop s) ++ [0#8])) ∧
      (∀ a ∈ reads (trace (strUnescFrom src fuel d s m)), a ≤ src.length) ∧
      writes (trace (strUnescFrom src fuel d s m)) =
        List.range' d ((Opt.strUnesc fuel (src.drop s)).length + 1) := by
  induction fuel generalizing d s m with
  | zero => omega
  | succ fuel ih =>
      by_cases hend : s = src.length
      · have hzero : src.getD s 0#8 = 0#8 := List.getD_eq_default _ _ (by omega)
        have hdrop : src.drop s = [] := List.drop_eq_nil_of_le (by omega)
        rw [strUnescFrom, hdrop, strUnesc_nil]
        simp only [readSrc, put, value_bind, trace_bind, value_record, trace_record, Nat.add_zero,
          hzero, ↓reduceIte]
        refine ⟨rfl, ?_, rfl⟩
        intro a ha
        have hread : a = s := by simpa [reads] using ha
        omega
      · have hlt : s < src.length := by omega
        have hne : src.drop s ≠ [] := by
          rw [Ne, List.drop_eq_nil_iff]
          omega
        have hc : src.getD s 0#8 ≠ 0#8 := by
          intro hzero
          rw [List.getD_eq_getElem src 0#8 hlt] at hzero
          exact hsrc (hzero ▸ List.getElem_mem hlt)
        obtain ⟨hpos, hle, hone⟩ := turn_bounds hne
        rw [List.length_drop] at hle
        obtain ⟨hvalue, events, htrace, hevents, hearly⟩ :=
          @strUnescFrom_turn src d s fuel m hlt hc
        rw [strUnesc_turn fuel hne, List.drop_drop]
        generalize turn (src.drop s) = t at *
        obtain ⟨hrest, hreads, hwrites⟩ := ih (d := d + t.1.length) (s := s + t.2)
          (m := write m d t.1) (by omega) (by omega)
        refine ⟨?_, ?_, ?_⟩
        · rw [hvalue, hrest, write_write_append, List.length_append, Nat.add_assoc,
            List.append_assoc]
        · intro a ha
          rw [htrace, reads_append, List.mem_append] at ha
          rcases ha with ha | ha
          · exact hevents a ha
          · exact hreads a ha
        · rw [htrace, writes_append, hearly, hwrites, List.range'_append_1, List.length_append,
            Nat.add_assoc]

end Loop

/-- The text that `str_unesc` writes is the one that is read of a quoted word. -/
theorem strUnesc_spec (m : Mem) (d : Nat) {src : List Byte} (hsrc : 0#8 ∉ src) :
    value (strUnesc m d src) = some (d + (Opt.strUnesc src.length src).length,
        write m d (Opt.strUnesc src.length src ++ [0#8])) ∧
      (∀ a ∈ reads (trace (strUnesc m d src)), a ≤ src.length) ∧
      writes (trace (strUnesc m d src)) =
        List.range' d ((Opt.strUnesc src.length src).length + 1) := by
  have hspec := @strUnescFrom_spec src d 0 (src.length + 1) m hsrc (by omega) (by omega)
  rwa [List.drop_zero, strUnesc_fuel (Nat.le_succ _)] at hspec

/-- For every string, `str_unesc` returns, reads nothing behind the byte that ends the string,
writes at most as many bytes as the string has with that byte, each once and in order, and returns
where the byte is that ends the text. -/
theorem strUnesc_stays_in_bounds (m : Mem) (d : Nat) (src : List Byte) (hsrc : 0#8 ∉ src) :
    ∃ n m', value (strUnesc m d src) = some (d + n, m') ∧ n ≤ src.length ∧ m' (d + n) = 0#8 ∧
      (∀ a ∈ reads (trace (strUnesc m d src)), a ≤ src.length) ∧
      writes (trace (strUnesc m d src)) = List.range' d (n + 1) ∧
      ChangesOnly m m' d (src.length + 1) := by
  obtain ⟨hvalue, hreads, hwrites⟩ := strUnesc_spec m d hsrc
  have hlen := length_strUnesc_le src.length src
  generalize Opt.strUnesc src.length src = text at *
  refine ⟨text.length, _, hvalue, hlen, ?_, hreads, hwrites, ?_⟩
  · rw [← write_write_append, write, if_pos (le_refl _), Nat.sub_self]
    rfl
  · refine (write_changesOnly m d (text ++ [0#8])).mono ⟨le_rfl, ?_⟩
    rw [List.length_append, List.length_singleton]
    omega

/-- A backslash, an `x` and a digit at the end. -/
theorem strUnesc_stays_in_bounds_x4 :
    ∃ m', value (strUnesc (fun _ => 255#8) 16 [92#8, 120#8, 52#8]) = some (17, m') ∧
      m' 17 = 0#8 ∧ ChangesOnly (fun _ => 255#8) m' 16 4 := by
  obtain ⟨n, m', hvalue, _, hend, _, hwrites, hchanges⟩ :=
    strUnesc_stays_in_bounds (fun _ => 255#8) 16 [92#8, 120#8, 52#8] (by decide)
  have htrace : writes (trace (strUnesc (fun _ => 255#8) 16 [92#8, 120#8, 52#8])) = [16, 17] := by
    decide +kernel
  have hn : n = 1 := by
    have hlen := congrArg List.length (hwrites.symm.trans htrace)
    simpa using hlen
  subst hn
  exact ⟨m', hvalue, hend, hchanges⟩

end OpenAAA.Unesc
