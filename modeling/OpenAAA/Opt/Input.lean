import OpenAAA.Opt.Intr

/-!
`generic/opt/input.c`: from texts to lines, and the calls that load them. A text is read
line by line and split into commands; included files are read in place of the line that
names them. The calls wrap a text into a transaction of the journal.
-/

namespace OpenAAA.Opt

open Memory Alloc

/-! ## Words of a line -/

/-- The fields of `struct cf_parser_state` that outlive a command: what is left of the stream and of
the current line. -/
structure ParserState where
  input : List Byte
  line : List Byte

/-- `MAX_LINE` -/
def maxLine : Nat := 4096

def isSpace (b : Byte) : Bool := b = 32 ∨ 9 ≤ b.toNat ∧ b.toNat ≤ 13

def skipSpace (s : List Byte) : List Byte := s.dropWhile isSpace

/-- `get_line`, with `bgets_nodie`: whether there is a next line, or a message. -/
def getLine (p : ParserState) : ParserState × Bool × Msg :=
  let line := p.input.takeWhile (· ≠ 10)
  if p.input = [] then (p, false, none)
  else if maxLine ≤ line.length then (p, false, some "Line too long")
  else (⟨p.input.drop (line.length + 1), skipSpace (line.takeWhile (· ≠ 0))⟩, true, none)

/-- A word between apostrophes, which may go over the end of a line. -/
def apostropheWord : Nat → ParserState → CStr → Except String (CStr × ParserState)
  | 0, _, _ => .error "Unterminated apostrophe word at the end"
  | fuel + 1, p, word =>
      let part := p.line.takeWhile (· ≠ charByte '\'')
      match p.line.dropWhile (· ≠ charByte '\'') with
      | _ :: rest => .ok (word ++ part, { p with line := skipSpace rest })
      | [] =>
          match getLine p with
          | (p, true, _) => apostropheWord fuel p (word ++ part ++ [10])
          | (_, false, msg) => .error (msg.getD "Unterminated apostrophe word at the end")

/-- The characters up to a quote that no backslash escapes, the rest, and whether the last
character is such a backslash. -/
def scanQuoted : Bool → List Byte → List Byte × List Byte × Bool
  | escape, [] => ([], [], escape)
  | escape, b :: bs =>
      if b = charByte '"' ∧ ¬ escape then ([], b :: bs, escape)
      else
        let scan := scanQuoted (if b = charByte '\\' then !escape else false) bs
        (b :: scan.1, scan.2)

/-- A word between quotes, before its escapes are read. A backslash at the end of a line joins the
line with the next. -/
def quotedWord : Nat → ParserState → CStr → Except String (CStr × ParserState)
  | 0, _, _ => .error "Unterminated quoted word at the end"
  | fuel + 1, p, word =>
      let scan := scanQuoted false p.line
      match scan.2.1 with
      | _ :: rest => .ok (word ++ scan.1, { p with line := skipSpace rest })
      | [] =>
          match getLine p with
          | (p, true, _) =>
              quotedWord fuel p (word ++ if scan.2.2 then scan.1.dropLast else scan.1 ++ [10])
          | (_, false, msg) => .error (msg.getD "Unterminated quoted word at the end")

def isDigit (b : Byte) : Bool := 48 ≤ b.toNat ∧ b.toNat ≤ 57

/-- The value of a hexadecimal digit. -/
def hexDigit? (b : Byte) : Option Nat :=
  if isDigit b then some (b.toNat - 48)
  else if 97 ≤ (toLower b).toNat ∧ (toLower b).toNat ≤ 102 then some ((toLower b).toNat - 87)
  else none

def hexDigits : Nat → List Byte → Nat × List Byte
  | value, [] => (value, [])
  | value, b :: bs =>
      match hexDigit? b with
      | some d => hexDigits (16 * value + d) bs
      | none => (value, b :: bs)

/-- `strtoul(s, &p, 16)` on a text that starts with a digit, as an unsigned integer. -/
def strtoul16 (s : List Byte) : Nat × List Byte :=
  let digits :=
    match s with
    | z :: x :: d :: rest =>
        if z = charByte '0' ∧ toLower x = charByte 'x' ∧ (hexDigit? d).isSome then d :: rest else s
    | s => s
  let scan := hexDigits 0 digits
  (min scan.1 (2 ^ 64 - 1) % 2 ^ 32, scan.2)

/-- The characters of one-letter escapes. -/
def simpleEscape (b : Byte) : Option Byte :=
  if b = charByte 'a' then some 7
  else if b = charByte 'b' then some 8
  else if b = charByte 'f' then some 12
  else if b = charByte 'n' then some 10
  else if b = charByte 'r' then some 13
  else if b = charByte 't' then some 9
  else if b = charByte 'v' then some 11
  else if b = charByte '?' ∨ b = charByte '\'' ∨ b = charByte '"' ∨ b = charByte '\\' then some b
  else none

def isOctal (b : Byte) : Bool := 48 ≤ b.toNat ∧ b.toNat ≤ 55

def octalValue (digits : List Byte) : Nat :=
  digits.foldl (fun v b => 8 * v + (b.toNat - 48)) 0

/-- The byte of an escaped value, if it is one. -/
def escapedByte (v : Nat) : List Byte := if v ≤ 255 then [BitVec.ofNat 8 v] else []

/-- `str_unesc`. Each turn reads at least one character. -/
def strUnesc : Nat → List Byte → List Byte
  | 0, _ => []
  | _ + 1, [] => []
  | fuel + 1, b :: bs =>
      if b ≠ charByte '\\' then b :: strUnesc fuel bs
      else
        match bs with
        | [] => [b]
        | c :: cs =>
            match simpleEscape c with
            | some e => e :: strUnesc fuel cs
            | none =>
                if c = charByte 'x' then
                  if (cs.head?.map isDigit).getD false then
                    escapedByte (strtoul16 cs).1 ++ strUnesc fuel (strtoul16 cs).2
                  else strUnesc fuel bs
                else if isOctal c then
                  let digits := c :: (cs.take 2).takeWhile isOctal
                  escapedByte (octalValue digits) ++ strUnesc fuel (bs.drop digits.length)
                else b :: strUnesc fuel bs

/-- The characters that end a word without quotes. -/
def endsWord (isCommandName : Bool) (b : Byte) : Bool :=
  isSpace b ∨ b = charByte '\x7b' ∨ b = charByte '\x7d' ∨ b = charByte ';' ∨
    b = charByte '=' ∧ isCommandName

def plainWord (p : ParserState) (isCommandName : Bool) : Except String (CStr × ParserState) :=
  let word := p.line.takeWhile (fun b => !endsWord isCommandName b)
  match word, p.line.dropWhile (fun b => !endsWord isCommandName b) with
  | [], b :: rest =>
      if b = charByte '=' then .error "Assignment without a variable"
      else .ok ([b], { p with line := skipSpace rest })
  | word, b :: rest =>
      if b = charByte '=' then .ok (word, { p with line := skipSpace rest })
      else .ok (word, { p with line := skipSpace (b :: rest) })
  | word, [] => .ok (word, { p with line := [] })

def getWord (p : ParserState) (isCommandName : Bool) : Except String (CStr × ParserState) :=
  match p.line with
  | [] => plainWord p isCommandName
  | b :: rest =>
      if b = charByte '\'' then apostropheWord (p.input.length + 1) { p with line := rest } []
      else if b = charByte '"' then
        match quotedWord (p.input.length + 1) { p with line := rest } [] with
        | .error msg => .error msg
        | .ok (word, p) => .ok ((strUnesc word.length word).takeWhile (· ≠ 0), p)
      else plainWord p isCommandName

/-- `get_token`: a word, or none where the command or the text ends. -/
def getToken (isCommandName : Bool) : Nat → ParserState → Except String (Option CStr × ParserState)
  | 0, p => .ok (none, p)
  | fuel + 1, p =>
      if p.line = [] ∨ p.line.head? = some (charByte '#') then
        if isCommandName then
          match getLine p with
          | (p, true, _) => getToken isCommandName fuel p
          | (p, false, none) => .ok (none, p)
          | (_, false, some msg) => .error msg
        else .ok (none, p)
      else if p.line.head? = some (charByte ';') then
        match getWord p false with
        | .error msg => .error msg
        | .ok (_, p) => if isCommandName then getToken isCommandName fuel p else .ok (none, p)
      else if p.line = [charByte '\\'] then
        match getLine p with
        | (p, true, _) => getToken isCommandName fuel p
        | (_, false, msg) => .error (msg.getD "Last line ends by a backslash")
      else
        match getWord p isCommandName with
        | .error msg => .error msg
        | .ok (word, p) => .ok (some word, p)

/-- A bound on the tokens that are left. -/
def ParserState.size (p : ParserState) : Nat := p.input.length + p.line.length + 1

/-- The loop of `split_command`: the words after the first, and whether a brace follows them. -/
def moreWords : Nat → ParserState → Except String (List CStr × Bool × ParserState)
  | 0, p => .ok ([], false, p)
  | fuel + 1, p =>
      if p.line.head? = some (charByte '\x7d') then .ok ([], false, p)
      else
        match getToken false p.size p with
        | .error msg => .error msg
        | .ok (none, p) => .ok ([], false, p)
        | .ok (some word, p) =>
            if word.head? = some (charByte '\x7b') then .ok ([], true, p)
            else
              match moreWords fuel p with
              | .error msg => .error msg
              | .ok (words, brace, p) => .ok (word :: words, brace, p)

def splitCommand (p : ParserState) : Except String (List CStr × Bool × ParserState) :=
  match getToken true p.size p with
  | .error msg => .error msg
  | .ok (none, p) => .ok ([], false, p)
  | .ok (some word, p) =>
      if word.head? = some (charByte '\x7b') then .error "Unexpected opening brace"
      else
        match moreWords p.size p with
        | .error msg => .error msg
        | .ok (words, brace, p) => .ok (word :: words, brace, p)

/-- The operation that the first letters of its name select. -/
def guessOperation (c : CStr) : CfOperation :=
  let letter := fun i => toLower (c.getD i 0)
  if letter 0 = charByte 's' then .set
  else if letter 0 = charByte 'c' then if letter 1 = charByte 'l' then .clear else .copy
  else if letter 0 = charByte 'a' then
    if letter 1 = charByte 'p' then .append else if letter 1 = charByte 'f' then .after else .all
  else if letter 0 = charByte 'p' then .prepend
  else if letter 0 = charByte 'r' then
    if c.getD 1 0 ≠ 0 ∧ letter 2 = charByte 'm' then .remove else .reset
  else if letter 0 = charByte 'e' then .edit
  else if letter 0 = charByte 'b' then .before
  else .set

/-- The name before a colon and the operation after it, or the text of an unknown operation. -/
def decodeOperation (name : CStr) : Except CStr (CStr × CfOperation) :=
  match name.dropWhile (· ≠ charByte ':') with
  | [] => .ok (name, if name = [charByte '\x7d'] then .close else .set)
  | _ :: c =>
      if strcaseEq c (cfOpNames (guessOperation c)) then
        .ok (name.takeWhile (· ≠ charByte ':'), guessOperation c)
      else .error c

/-! ## Commits -/

/-- `list_for_each` over the nodes of a list, in `commit_section`. -/
def commitNodes (commit : Nat → Cf Msg) (list : Nat) : Nat → Nat → Cf Msg
  | 0, _ => throw .endless
  | fuel + 1, n =>
      if n = list then pure none
      else do
        match ← commit n with
        | some _ => pure (some "commit of a list failed")
        | none =>
            let next ← loadAt n 8
            commitNodes commit list fuel next

def commitPart (env : Env) (commit : Nat → Nat → Cf Msg) (ptr : Nat) (ci : CfItem) : Cf Msg :=
  match ci.cls with
  | .section sec => do
      match ← commit sec (ptr + ci.ptr) with
      | some _ => pure (some "commit of a subsection failed")
      | none => pure none
  | .list sec => do
      let first ← loadAt (ptr + ci.ptr) 8
      commitNodes (commit sec) (ptr + ci.ptr) env.fuel first
  | _ => pure none

def commitParts (env : Env) (commit : Nat → Nat → Cf Msg) (ptr : Nat) : List CfItem → Cf Msg
  | [] => pure none
  | ci :: rest => do
      match ← commitPart env commit ptr ci with
      | some msg => pure (some msg)
      | none => commitParts env commit ptr rest

/-- The end of `commit_section`. -/
def commitHook (env : Env) (commitAll : Bool) (sec ptr : Nat) : Cf Msg := do
  let w ← get
  if (env.sections sec).commit ∧ (commitAll ∨ isDirty w.cc.dirty (toLex (sec, ptr))) then
    callUser (env.commit sec ptr)
  else pure none

/-- `commit_section` on the lists in memory. -/
def commitIn (env : Env) (commitAll : Bool) : Nat → Nat → Nat → Cf Msg
  | 0, _, _ => throw .endless
  | fuel + 1, sec, ptr => do
      match ← commitParts env (commitIn env commitAll fuel) ptr (env.sections sec).cfg with
      | some msg => pure (some msg)
      | none => commitHook env commitAll sec ptr

def sortDirtyIn : Cf Unit := fun w =>
  match sortDirty w.cc.dirty with
  | .error fault => .error (.sort fault)
  | .ok dirty => .ok ((), { w with cc := { w.cc with dirty := dirty } })

/-- `cf_commit_all`: whether it failed. -/
def commitAllIn (env : Env) (cm : CommitMode) : Cf Bool := do
  sortDirtyIn
  if cm = .noCommit then pure false
  else
    match ← commitIn env (cm = .commitAll) env.fuel env.root 0 with
    | some _ => pure true
    | none =>
        modifyCc fun cc => { cc with dirty := { cc.dirty with dirties := 0 } }
        pure false

def maybeCommit (env : Env) : Cf Bool := do
  let w ← get
  let failed ← commitAllIn env (if 0 < w.cc.postponeCommit then .noCommit
    else if w.cc.everythingCommitted then .commit else .commitAll)
  if failed then pure true
  else
    modifyCc fun cc =>
      { cc with everythingCommitted := cc.everythingCommitted || cc.postponeCommit = 0 }
    pure false

/-! ## Texts -/

/-- `parse_fastbuf` between two commands: the parser, and what is left of the files around the
current one. -/
structure ParseState where
  parser : ParserState
  outer : List (List Byte)

inductive Progress where
  | more (state : ParseState)
  | failed (msg : String)
  | done

/-- A command `include` or `optionalinclude`. -/
def includeFile (env : Env) (isOptional : Bool) (pars : List CStr) (p : ParserState)
    (outer : List (List Byte)) : Cf Progress :=
  match pars with
  | [file] =>
      if 8 < outer.length then pure (.failed "Too many nested files")
      else if p.line ≠ [] ∧ p.line.head? ≠ some (charByte '#') then
        pure (.failed "The include command must be the last one on a line")
      else
        match env.files file, isOptional with
        | .contents text, _ => pure (.more ⟨⟨text, []⟩, p.input :: outer⟩)
        | .missing, true => pure (.more ⟨p, outer⟩)
        | _, _ => do
            let _ ← cfPrintf env ("Cannot open file " ++ showBytes file)
            pure (.failed ("Cannot open file " ++ showBytes file))
  | _ => pure (.failed "Expecting one filename")

/-- A command that is not an inclusion. -/
def interpretCommand (env : Env) (name : CStr) (brace : Bool) (pars : List CStr)
    (next : ParseState) : Cf Progress :=
  match decodeOperation name with
  | .error c => do
      let _ ← cfPrintf env ("Unknown operation " ++ showBytes c)
      pure (.failed ("Unknown operation " ++ showBytes c))
  | .ok (name, op) => do
      match ← cfInterpretLine env name op brace pars with
      | some msg => pure (.failed msg)
      | none => pure (.more next)

def includeName : CStr := bytesOf ['i', 'n', 'c', 'l', 'u', 'd', 'e']

def optionalIncludeName : CStr :=
  bytesOf ['o', 'p', 't', 'i', 'o', 'n', 'a', 'l', 'i', 'n', 'c', 'l', 'u', 'd', 'e']

/-- One turn of the loop of `parse_fastbuf`. -/
def parseStep (env : Env) (s : ParseState) : Cf Progress :=
  match splitCommand s.parser with
  | .error msg => pure (.failed msg)
  | .ok ([], _, p) =>
      match s.outer with
      | [] => pure .done
      | input :: outer => pure (.more ⟨{ p with input := input }, outer⟩)
  | .ok (name :: pars, brace, p) =>
      if strcaseEq name optionalIncludeName then includeFile env true pars p s.outer
      else if strcaseEq name includeName then includeFile env false pars p s.outer
      else interpretCommand env name brace pars ⟨p, s.outer⟩

def parseRun (env : Env) : Nat → ParseState → Cf Msg
  | 0, _ => throw .endless
  | fuel + 1, s => do
      match ← parseStep env s with
      | .more s => parseRun env fuel s
      | .failed msg => pure (some msg)
      | .done => pure none

/-- The end of `parse_fastbuf` for the outermost text. -/
def finishParse (env : Env) : Cf Msg := do
  if ← cfDoneStack then pure (some "Unterminated block")
  else if ← maybeCommit env then pure (some "Commit failed")
  else pure none

/-- `parse_fastbuf` at depth 0: whether it failed. -/
def parseFastbuf (env : Env) (text : List Byte) : Cf Bool := do
  cfInitStack env
  match ← parseRun env env.fuel ⟨⟨text, []⟩, []⟩ with
  | some _ => pure true
  | none =>
      let msg ← finishParse env
      pure msg.isSome

def loadFile (env : Env) (file : CStr) : Cf Bool :=
  match env.files file with
  | .contents text => parseFastbuf env text
  | _ => pure true

def loadString (env : Env) (string : CStr) : Cf Bool := parseFastbuf env string

/-! ## Safe loading and reloading -/

/-- The entries are linked, so one whose pool is gone is met by every change of the list. -/
def checkEntries : Cf Unit := do
  let w ← get
  if ∃ ce ∈ w.cc.confEntries, ce.pool ∈ w.deleted then throw .deadPool else pure ()

def cfRememberEntry (env : Env) (type : EntryType) (arg : CStr) : Cf Unit := do
  let w ← get
  whenSet w.cc.enableJournal do
    let _ ← cfMalloc env 32
    let _ ← cfStrdup env arg
    checkEntries
    modifyCc fun cc => { cc with confEntries := cc.confEntries ++ [⟨cc.pool.getD 0, type, arg⟩] }

def cfLoad (env : Env) (file : CStr) : Cf Bool := do
  let oldj ← cfJournalNewTransaction true
  if ← loadFile env file then
    cfJournalRollbackTransaction true oldj
    pure true
  else
    cfJournalCommitTransaction env true oldj
    cfRememberEntry env .file file
    modifyCc fun cc => { cc with configLoaded := true }
    pure false

def cfSet (env : Env) (string : CStr) : Cf Bool := do
  let oldj ← cfJournalNewTransaction false
  if ← loadString env string then
    cfJournalRollbackTransaction false oldj
    pure true
  else
    cfJournalCommitTransaction env false oldj
    cfRememberEntry env .string string
    pure false

def cfOpenGroup : Cf Unit :=
  modifyCc fun cc => { cc with postponeCommit := cc.postponeCommit + 1 }

def cfCloseGroup (env : Env) : Cf Bool := do
  let w ← get
  if w.cc.postponeCommit = 0 then throw .assertion
  else
    modifyCc fun cc => { cc with postponeCommit := cc.postponeCommit - 1 }
    if w.cc.postponeCommit = 1 then maybeCommit env else pure false

def loadEntry (env : Env) (ce : ConfEntry) : Cf Bool :=
  match ce.type with
  | .file => loadFile env ce.arg
  | .string => loadString env ce.arg

/-- The loop of `cf_reload` over the entries remembered so far: whether one of them failed. -/
def reloadEntries (env : Env) : List ConfEntry → Cf Bool
  | [] => pure false
  | ce :: entries => do
      if ← loadEntry env ce then pure true
      else
        cfRememberEntry env ce.type ce.arg
        reloadEntries env entries

def reloadSources (env : Env) (file : Option CStr) (entries : List ConfEntry) : Cf Bool :=
  match file with
  | some file => loadFile env file
  | none => reloadEntries env entries

def cfReload (env : Env) (file : Option CStr) : Cf Bool := do
  let before ← get
  if ¬ before.cc.enableJournal then throw .assertion
  else
    cfJournalSwap
    let oldj ← cfJournalNewTransaction true
    checkEntries
    modifyCc fun cc => { cc with everythingCommitted := false, confEntries := [] }
    cfOpenGroup
    let failed ← reloadSources env file before.cc.confEntries
    let unclosed ← cfCloseGroup env
    if failed ∨ unclosed then
      modifyCc fun cc => { cc with everythingCommitted := before.cc.everythingCommitted }
      cfJournalRollbackTransaction true oldj
      cfJournalSwap
      modifyCc fun cc => { cc with confEntries := before.cc.confEntries }
      pure true
    else
      cfJournalDelete
      cfJournalCommitTransaction env true []
      pure false

def cfRevert : Cf Unit := do
  cfJournalSwap
  cfJournalDelete

end OpenAAA.Opt
