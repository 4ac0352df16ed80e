import OpenAAA.Opt.Input
import Mathlib.Data.List.TakeWhile

/-!
What apostrophes protect. A line of a command name and arguments in apostrophes is read
back by `split_command`: blanks, comments, semicolons, backslashes and equals signs are
looked for on the line and are not seen inside of a quoted word. An opening brace is
looked for at the start of the word after its apostrophes are gone, so it is the one
character that quoting does not protect.
-/

namespace OpenAAA.Opt

open Memory

/-- The characters of a command name. -/
def isNameByte (b : Byte) : Bool :=
  isDigit b ∨ 97 ≤ (toLower b).toNat ∧ (toLower b).toNat ≤ 122 ∨ b = charByte '.'

/-- A command name. -/
structure Name where
  chars : CStr
  nonempty : chars ≠ []
  nameBytes : ∀ b ∈ chars, isNameByte b = true

/-- An argument that fits between apostrophes on one line. -/
structure Argument where
  chars : CStr
  no_nul : 0 ∉ chars
  no_newline : 10 ∉ chars
  no_apostrophe : charByte '\'' ∉ chars

/-- A blank and the argument in apostrophes. -/
def Argument.quoted (a : Argument) : List Byte :=
  [32, charByte '\''] ++ a.chars ++ [charByte '\'']

/-- The arguments of a line, each behind a blank. -/
def quotedArguments (args : List Argument) : List Byte := args.flatMap Argument.quoted

/-- The line of a name and its arguments. -/
def quotedLine (name : Name) (args : List Argument) : List Byte :=
  name.chars ++ quotedArguments args

/-- An argument that `split_command` takes for an opening brace. -/
def Argument.IsBrace (a : Argument) : Prop := a.chars.head? = some (charByte '\x7b')

instance (a : Argument) : Decidable a.IsBrace := inferInstanceAs (Decidable (_ = _))

@[simp]
theorem quotedArguments_nil : quotedArguments [] = [] := rfl

@[simp]
theorem quotedArguments_cons (a : Argument) (args : List Argument) :
    quotedArguments (a :: args) = a.quoted ++ quotedArguments args :=
  List.flatMap_cons

theorem two_mul_length_le (args : List Argument) :
    2 * args.length ≤ (quotedArguments args).length := by
  induction args with
  | nil => simp
  | cons a args ih =>
      rw [quotedArguments_cons, List.length_append, List.length_cons]
      simp only [Argument.quoted, List.length_append, List.length_cons, List.length_nil]
      omega

/-- The line without the blank in front of its first argument. -/
theorem skipSpace_quotedArguments (args : List Argument) :
    skipSpace (quotedArguments args) = (quotedArguments args).tail := by
  cases args with
  | nil => rfl
  | cons a args =>
      have hblank : isSpace 32 = true := by decide
      have hquote : isSpace (charByte '\'') = false := by decide
      rw [quotedArguments_cons, Argument.quoted, skipSpace, List.append_assoc, List.append_assoc,
        List.cons_append, List.cons_append, List.dropWhile_cons_of_pos hblank,
        List.dropWhile_cons_of_neg (by simp [hquote]), List.tail_cons]

/-- An argument is read up to its closing apostrophe. -/
theorem apostropheWord_quoted (fuel : Nat) (a : Argument) (rest input : List Byte) :
    apostropheWord (fuel + 1) ⟨input, a.chars ++ charByte '\'' :: rest⟩ [] =
      .ok (a.chars, ⟨input, skipSpace rest⟩) := by
  have hbytes : ∀ b ∈ a.chars, decide (b ≠ charByte '\'') = true := by
    intro b hb
    rw [decide_eq_true_iff]
    exact fun heq => a.no_apostrophe (heq ▸ hb)
  have hword : (a.chars ++ charByte '\'' :: rest).takeWhile (· ≠ charByte '\'') = a.chars := by
    rw [List.takeWhile_append_of_pos hbytes]
    simp
  have hbehind : (a.chars ++ charByte '\'' :: rest).dropWhile (· ≠ charByte '\'') =
      charByte '\'' :: rest := by
    rw [List.dropWhile_append_of_pos hbytes]
    simp
  rw [apostropheWord]
  dsimp only
  rw [hword, hbehind]
  rfl

/-- The next token of a line of arguments is the first argument, whatever it holds. -/
theorem getToken_quoted (a : Argument) (args : List Argument) (input : List Byte) (fuel : Nat) :
    getToken false (fuel + 1) ⟨input, (quotedArguments (a :: args)).tail⟩ =
      .ok (some a.chars, ⟨input, (quotedArguments args).tail⟩) := by
  have hline : (quotedArguments (a :: args)).tail =
      charByte '\'' :: (a.chars ++ charByte '\'' :: quotedArguments args) := by
    simp [Argument.quoted]
  have hword := apostropheWord_quoted input.length a (quotedArguments args) input
  rw [skipSpace_quotedArguments] at hword
  have hcomment : ¬ (charByte '\'' = charByte '#') := by decide
  have hsemicolon : ¬ (charByte '\'' = charByte ';') := by decide
  have hbackslash : ¬ (charByte '\'' = charByte '\\') := by decide
  rw [hline, getToken]
  simp [getWord, hword, hcomment, hsemicolon, hbackslash]

/-- The words behind the name: all arguments, or those before the first that looks like a brace. -/
theorem moreWords_quoted (args : List Argument) (input : List Byte) {fuel : Nat}
    (hfuel : args.length < fuel) :
    ∃ p, moreWords fuel ⟨input, (quotedArguments args).tail⟩ =
      .ok ((args.takeWhile (fun a => ¬ a.IsBrace)).map (·.chars),
        args.any (fun a => a.IsBrace), p) := by
  induction args generalizing fuel with
  | nil =>
      obtain ⟨fuel, rfl⟩ : ∃ k, fuel = k + 1 := ⟨fuel - 1, by simp at hfuel; omega⟩
      refine ⟨⟨input, []⟩, ?_⟩
      simp [moreWords, getToken, ParserState.size]
  | cons a args ih =>
      obtain ⟨fuel, rfl⟩ : ∃ k, fuel = k + 1 := ⟨fuel - 1, by simp at hfuel; omega⟩
      have hclose : (quotedArguments (a :: args)).tail.head? ≠ some (charByte '\x7d') := by
        simp [Argument.quoted]
        decide
      rw [moreWords, if_neg hclose, ParserState.size, getToken_quoted]
      dsimp only
      by_cases hbrace : a.chars.head? = some (charByte '\x7b')
      · rw [if_pos hbrace]
        refine ⟨⟨input, (quotedArguments args).tail⟩, ?_⟩
        simp [Argument.IsBrace, hbrace]
      · obtain ⟨p, hmore⟩ := ih (by simpa using hfuel)
        rw [if_neg hbrace, hmore]
        refine ⟨p, ?_⟩
        simp [Argument.IsBrace, hbrace]

theorem endsWord_nameByte {b : Byte} (hb : isNameByte b = true) : endsWord true b = false := by
  revert hb
  revert b
  decide +kernel

/-- A name starts no comment, no quoted word and nothing else that `get_token` knows. -/
theorem nameByte_plain {b : Byte} (hb : isNameByte b = true) :
    b ≠ charByte '#' ∧ b ≠ charByte ';' ∧ b ≠ charByte '\\' ∧ b ≠ charByte '\'' ∧
      b ≠ charByte '"' ∧ b ≠ charByte '\x7b' ∧ b ≠ 0 ∧ b ≠ 10 ∧ isSpace b = false := by
  revert hb
  revert b
  decide +kernel

/-- The name is the first token, and the arguments are what is left of the line. -/
theorem getToken_name (name : Name) (args : List Argument) (input : List Byte) (fuel : Nat) :
    getToken true (fuel + 1) ⟨input, quotedLine name args⟩ =
      .ok (some name.chars, ⟨input, (quotedArguments args).tail⟩) := by
  have hname : ∀ b ∈ name.chars, (!endsWord true b) = true := by
    intro b hb
    rw [endsWord_nameByte (name.nameBytes b hb)]
    rfl
  obtain ⟨c, cs, hchars⟩ := List.exists_cons_of_ne_nil name.nonempty
  have hfirst := nameByte_plain (name.nameBytes c (hchars ▸ List.mem_cons_self))
  obtain ⟨hcomment, hsemicolon, hbackslash, hquote, hquotes, _⟩ := hfirst
  have hplain : getWord ⟨input, quotedLine name args⟩ true =
      plainWord ⟨input, quotedLine name args⟩ true := by
    simp [getWord, quotedLine, hchars, hquote, hquotes]
  have hword : plainWord ⟨input, quotedLine name args⟩ true =
      .ok (name.chars, ⟨input, (quotedArguments args).tail⟩) := by
    cases args with
    | nil =>
        have htake : name.chars.takeWhile (fun b => !endsWord true b) = name.chars :=
          List.takeWhile_eq_self_iff.mpr hname
        have hdrop : name.chars.dropWhile (fun b => !endsWord true b) = [] :=
          List.dropWhile_eq_nil_iff.mpr hname
        simp [plainWord, quotedLine, htake, hdrop]
    | cons a args =>
        have hrest : quotedArguments (a :: args) = 32 :: (quotedArguments (a :: args)).tail := rfl
        have hends : ¬ (!endsWord true 32) = true := by decide
        have hassign : ¬ ((32 : Byte) = charByte '=') := by decide
        have htake : (name.chars ++ 32 :: (quotedArguments (a :: args)).tail).takeWhile
            (fun b => !endsWord true b) = name.chars := by
          rw [List.takeWhile_append_of_pos hname, List.takeWhile_cons_of_neg (by simpa using hends),
            List.append_nil]
        have hdrop : (name.chars ++ 32 :: (quotedArguments (a :: args)).tail).dropWhile
            (fun b => !endsWord true b) = 32 :: (quotedArguments (a :: args)).tail := by
          rw [List.dropWhile_append_of_pos hname, List.dropWhile_cons_of_neg (by simpa using hends)]
        have hskip := skipSpace_quotedArguments (a :: args)
        rw [hrest] at hskip
        rw [plainWord, quotedLine, hrest]
        dsimp only
        rw [htake, hdrop, hchars]
        dsimp only
        rw [if_neg hassign, hskip]
  have hline : quotedLine name args = c :: (cs ++ quotedArguments args) := by simp [quotedLine, hchars]
  rw [hline] at hplain hword ⊢
  rw [getToken]
  simp [hcomment, hsemicolon, hbackslash, hplain, hword]

/-- Neither a name nor a quoted argument ends the line. -/
theorem quotedLine_bytes (name : Name) (args : List Argument) :
    ∀ b ∈ quotedLine name args, b ≠ 0 ∧ b ≠ 10 := by
  intro b hb
  rcases List.mem_append.mp hb with hname | hargs
  · obtain ⟨_, _, _, _, _, _, hnul, hnewline, _⟩ := nameByte_plain (name.nameBytes b hname)
    exact ⟨hnul, hnewline⟩
  · obtain ⟨a, _, ha⟩ := List.mem_flatMap.mp hargs
    rcases List.mem_append.mp ha with hopen | hclose
    · rcases List.mem_append.mp hopen with hblank | hchars
      · have hfixed : ∀ c ∈ [32, charByte '\''], c ≠ 0 ∧ c ≠ 10 := by decide
        exact hfixed b hblank
      · exact ⟨fun heq => a.no_nul (heq ▸ hchars), fun heq => a.no_newline (heq ▸ hchars)⟩
    · rw [List.mem_singleton.mp hclose]
      decide

/-- The line as `get_line` returns it. -/
theorem getLine_quotedLine (name : Name) (args : List Argument) {tail : List Byte}
    (htail : tail = [] ∨ tail.head? = some 10) (hlong : (quotedLine name args).length < maxLine) :
    getLine ⟨quotedLine name args ++ tail, []⟩ =
      (⟨tail.drop 1, quotedLine name args⟩, true, none) := by
  have hbytes := quotedLine_bytes name args
  have hline : (quotedLine name args ++ tail).takeWhile (· ≠ 10) = quotedLine name args := by
    rw [List.takeWhile_append_of_pos (fun b hb => by simpa using (hbytes b hb).2)]
    rcases htail with rfl | hnewline
    · simp
    · cases tail with
      | nil => simp
      | cons c tail =>
          obtain rfl : c = 10 := by simpa using hnewline
          simp
  have hnul : (quotedLine name args).takeWhile (· ≠ 0) = quotedLine name args :=
    List.takeWhile_eq_self_iff.mpr (fun b hb => by simpa using (hbytes b hb).1)
  obtain ⟨c, cs, hchars⟩ := List.exists_cons_of_ne_nil name.nonempty
  have hcons : quotedLine name args = c :: (cs ++ quotedArguments args) := by
    simp [quotedLine, hchars]
  have hblank : ¬ isSpace c = true := by
    obtain ⟨_, _, _, _, _, _, _, _, hspace⟩ :=
      nameByte_plain (name.nameBytes c (hchars ▸ List.mem_cons_self))
    simp [hspace]
  have hskip : skipSpace (quotedLine name args) = quotedLine name args := by
    rw [hcons, skipSpace, List.dropWhile_cons_of_neg hblank]
  have hsome : quotedLine name args ++ tail ≠ [] := by simp [hcons]
  have hshort : ¬ maxLine ≤ (quotedLine name args).length := by omega
  rw [getLine]
  dsimp only
  rw [if_neg hsome, hline, if_neg hshort, hnul, hskip, ← List.drop_drop, List.drop_left]

/-- What `split_command` makes of a line of quoted arguments: the words up to the first argument
that starts with a brace, and whether there is one. -/
theorem splitCommand_quotedLine (name : Name) (args : List Argument) {tail : List Byte}
    (htail : tail = [] ∨ tail.head? = some 10) (hlong : (quotedLine name args).length < maxLine) :
    ∃ p, splitCommand ⟨quotedLine name args ++ tail, []⟩ =
      .ok (name.chars :: (args.takeWhile (fun a => ¬ a.IsBrace)).map (·.chars),
        args.any (fun a => a.IsBrace), p) := by
  obtain ⟨c, cs, hchars⟩ := List.exists_cons_of_ne_nil name.nonempty
  have hbrace : name.chars.head? ≠ some (charByte '\x7b') := by
    obtain ⟨_, _, _, _, _, hfirst, _⟩ :=
      nameByte_plain (name.nameBytes c (hchars ▸ List.mem_cons_self))
    simpa [hchars] using hfirst
  have hsize : ParserState.size ⟨quotedLine name args ++ tail, []⟩ =
      (cs ++ quotedArguments args ++ tail).length + 1 + 1 := by
    simp [ParserState.size, quotedLine, hchars]
  have htoken : getToken true (ParserState.size ⟨quotedLine name args ++ tail, []⟩)
      ⟨quotedLine name args ++ tail, []⟩ =
      .ok (some name.chars, ⟨tail.drop 1, (quotedArguments args).tail⟩) := by
    rw [hsize, getToken]
    simp only [true_or, if_true, getLine_quotedLine name args htail hlong]
    exact getToken_name name args _ _
  have hfuel : args.length < ParserState.size ⟨tail.drop 1, (quotedArguments args).tail⟩ := by
    have hcount := two_mul_length_le args
    simp only [ParserState.size, List.length_tail]
    omega
  obtain ⟨p, hmore⟩ := moreWords_quoted args (tail.drop 1) hfuel
  refine ⟨p, ?_⟩
  rw [splitCommand, htoken]
  dsimp only
  rw [if_neg hbrace, hmore]

/-- The line is split into the name and the arguments, and no brace is seen. -/
def SplitsBack (name : Name) (args : List Argument) (tail : List Byte) : Prop :=
  ∃ p, splitCommand ⟨quotedLine name args ++ tail, []⟩ =
    .ok (name.chars :: args.map (·.chars), false, p)

theorem splitsBack_iff (name : Name) (args : List Argument) {tail : List Byte}
    (htail : tail = [] ∨ tail.head? = some 10) (hlong : (quotedLine name args).length < maxLine) :
    SplitsBack name args tail ↔ ∀ a ∈ args, ¬ a.IsBrace := by
  obtain ⟨p, hsplit⟩ := splitCommand_quotedLine name args htail hlong
  constructor
  · rintro ⟨p', hback⟩ a ha hbrace
    rw [hsplit, Except.ok.injEq, Prod.mk.injEq, Prod.mk.injEq] at hback
    have hnone := List.any_eq_false.mp hback.2.1 a ha
    exact hnone (by simpa using hbrace)
  · intro hargs
    refine ⟨p, ?_⟩
    have hall : args.takeWhile (fun a => ¬ a.IsBrace) = args :=
      List.takeWhile_eq_self_iff.mpr (fun a ha => by simpa using hargs a ha)
    have hany : args.any (fun a => a.IsBrace) = false :=
      List.any_eq_false.mpr (fun a ha => by simpa using hargs a ha)
    rw [hsplit, hall, hany]

/-- For every name and every list of arguments whose line is not too long, quoting protects the
arguments exactly when none of them starts with an opening brace. -/
theorem quoted_arguments_split_back_iff (name : Name) (args : List Argument) (tail : List Byte)
    (htail : tail = [] ∨ tail.head? = some 10) (hlong : (quotedLine name args).length < maxLine) :
    SplitsBack name args tail ↔ ∀ a ∈ args, ¬ a.IsBrace :=
  splitsBack_iff name args htail hlong

/-- The command name `set`. -/
def nameSet : Name := ⟨bytesOf ['s', 'e', 't'], by decide, by decide⟩

/-- An argument full of syntax. -/
def syntaxArgument : Argument :=
  ⟨bytesOf ['#', ';', '=', '\\', '"', ' ', '\x7b', '\x7d'], by decide, by decide, by decide⟩

/-- An argument that starts with a brace. -/
def braceArgument : Argument := ⟨bytesOf ['\x7b', 'x'], by decide, by decide, by decide⟩

theorem quoted_arguments_split_back_syntax :
    (quotedLine nameSet [syntaxArgument]).length < maxLine ∧
      SplitsBack nameSet [syntaxArgument] [10] :=
  ⟨by decide, (quoted_arguments_split_back_iff nameSet [syntaxArgument] [10] (by decide)
    (by decide)).mpr (by decide)⟩

theorem not_splitsBack_brace : ¬ SplitsBack nameSet [braceArgument] [10] := by
  rw [splitsBack_iff nameSet [braceArgument] (by decide) (by decide)]
  decide

end OpenAAA.Opt
