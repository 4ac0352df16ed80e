import OpenAAA.Opt.Lines

/-!
Whole texts. A text leads to a run of lines, some of them from files that it includes,
and a commit at its end. Through all of it the world keeps the one before, except for
the counter of texts.
-/

namespace OpenAAA.Opt

open Memory Alloc UndoLog Hoare

/-- The line that a turn of the loop of `parse_fastbuf` interprets, if it comes to one. -/
def nextLine (s : ParseState) : Option Line :=
  match splitCommand s.parser with
  | .ok (name :: pars, brace, _) =>
      if strcaseEq name optionalIncludeName ∨ strcaseEq name includeName then none
      else
        match decodeOperation name with
        | .ok (name, op) => some ⟨name, op, brace, pars⟩
        | .error _ => none
  | _ => none

/-- Every line that is interpreted meets `C` in the world before it. -/
def EachLine (env : Env) (C : World → Line → Prop) : Nat → ParseState → World → Prop
  | 0, _, _ => True
  | fuel + 1, s, w =>
      (∀ l, nextLine s = some l → C w l) ∧
        ∀ next w', parseStep env s w = .ok (.more next, w') → EachLine env C fuel next w'

def GoodLine (env : Env) (w : World) (l : Line) : Prop := ¬ BadLine env w l

variable {L : Set Nat} {w₀ v w : World} {env : Env} {extent : Nat → Nat}

/-- After a turn of the loop. -/
def Turned (L : Set Nat) (w₀ : World) (env : Env) : Progress → World → Prop
  | .failed _, w => Keeps L w₀ w
  | _, w => Ready L w₀ env w

theorem Turned.keeps {r : Progress} (h : Turned L w₀ env r w) : Keeps L w₀ w := by
  cases r with
  | more s => exact Ready.keeps h
  | failed msg => exact h
  | done => exact Ready.keeps h

/-- A turn that fails and says why. -/
theorem failing_triple {B : Prop} (hsafe : Safe env extent L w₀) (hv : Ready L w₀ env v)
    (text : String) (r : Progress) (hr : ∀ w, Keeps L w₀ w → Turned L w₀ env r w) :
    Triple (Only B) (· = v) (cfPrintf env text >>= fun _ => pure r) (Turned L w₀ env) := by
  obtain ⟨st, hctx, _⟩ := hv
  refine Triple.strengthen (P := Ctx L ∅ w₀ st) ?_ fun _ hw => hw ▸ hctx
  exact ((cfPrintf_tame hsafe text).only st).bind fun _ =>
    Triple.pure fun w hw => hr w hw.1.toKeeps

theorem includeFile_triple {B : Prop} (hsafe : Safe env extent L w₀) (hv : Ready L w₀ env v)
    (isOptional : Bool) (pars : List CStr) (p : ParserState) (outer : List (List Byte)) :
    Triple (Only B) (· = v) (includeFile env isOptional pars p outer) (Turned L w₀ env) := by
  have hfails : ∀ text, Triple (Only B) (· = v) (pure (Progress.failed text)) (Turned L w₀ env) :=
    fun text => Triple.pure fun _ hw => hw ▸ hv.keeps
  have hmore : ∀ s, Triple (Only B) (· = v) (pure (Progress.more s)) (Turned L w₀ env) :=
    fun s => Triple.pure fun _ hw => hw ▸ hv
  unfold includeFile
  split
  · refine Triple.ite (fun _ => hfails _) fun _ => Triple.ite (fun _ => hfails _) fun _ => ?_
    split
    · exact hmore _
    · exact hmore _
    · exact failing_triple hsafe hv _ _ fun _ hw => hw
  · exact hfails _

theorem interpretCommand_triple (hsafe : Safe env extent L w₀) (hv : Ready L w₀ env v)
    (name : CStr) (brace : Bool) (pars : List CStr) (next : ParseState) :
    Triple (Only (∃ n op, decodeOperation name = .ok (n, op) ∧ BadLine env v ⟨n, op, brace, pars⟩))
      (· = v) (interpretCommand env name brace pars next) (Turned L w₀ env) := by
  unfold interpretCommand
  split
  · exact failing_triple hsafe hv _ _ fun _ hw => hw
  · next n op hop =>
      refine Triple.bind ((cfInterpretLine_triple hsafe hv ⟨n, op, brace, pars⟩).allow
        fun e he hzero => ⟨n, op, hop, he hzero⟩) fun msg => ?_
      cases msg with
      | some msg => exact Triple.pure fun _ hw => hw.1
      | none => exact Triple.pure fun _ hw => hw.2 rfl

theorem parseStep_triple (hsafe : Safe env extent L w₀) (hv : Ready L w₀ env v) (s : ParseState) :
    Triple (Only (∃ l, nextLine s = some l ∧ BadLine env v l)) (· = v) (parseStep env s)
      (Turned L w₀ env) := by
  unfold parseStep nextLine
  cases hsplit : splitCommand s.parser with
  | error msg => exact Triple.pure fun _ hw => hw ▸ hv.keeps
  | ok command =>
      obtain ⟨words, brace, p⟩ := command
      cases words with
      | nil =>
          cases s.outer with
          | nil => exact Triple.pure fun _ hw => hw ▸ hv
          | cons input outer => exact Triple.pure fun _ hw => hw ▸ hv
      | cons name pars =>
          refine Triple.ite (fun _ => includeFile_triple hsafe hv true pars p _) fun hopt => ?_
          refine Triple.ite (fun _ => includeFile_triple hsafe hv false pars p _) fun hinc => ?_
          refine (interpretCommand_triple hsafe hv name brace pars _).allow fun e he hzero => ?_
          obtain ⟨n, op, hop, hbad⟩ := he hzero
          refine ⟨⟨n, op, brace, pars⟩, ?_, hbad⟩
          dsimp only
          rw [if_neg (not_or.mpr ⟨hopt, hinc⟩), hop]

/-- Along a text, the world keeps the first one; it ends at an `assert(0)` only if one of its lines
is bad. -/
theorem parseRun_triple (hsafe : Safe env extent L w₀) (fuel : Nat) (s : ParseState)
    (hv : Ready L w₀ env v) :
    Triple (Only (¬ EachLine env (GoodLine env) fuel s v)) (· = v) (parseRun env fuel s)
      (Done L w₀ env) := by
  induction fuel generalizing s v with
  | zero => exact Triple.throw nofun
  | succ fuel ih =>
      refine Triple.bindAt (fun r w' hstep => ?_) fun e hstep he hlines => ?_
      · have hturn := (parseStep_triple hsafe hv s).returned rfl hstep
        cases r with
        | more next =>
            refine (ih next hturn).allow fun e he hzero hlines => he hzero ?_
            exact hlines.2 next w' hstep
        | failed msg => exact Triple.pure fun _ hw => ⟨hw ▸ hturn, nofun⟩
        | done => exact Triple.pure fun _ hw => ⟨hw ▸ Turned.keeps hturn, fun _ => hw ▸ hturn⟩
      · obtain ⟨l, hl, hbad⟩ := (parseStep_triple hsafe hv s).stopped rfl hstep he
        exact hlines.1 l hl hbad

theorem finishParse_triple {B : Prop} (hsafe : Safe env extent L w₀) (hv : Ready L w₀ env v) :
    Triple (Only B) (· = v) (finishParse env) fun _ => Keeps L w₀ := by
  obtain ⟨st, hctx, _⟩ := hv
  refine Triple.strengthen (P := Ctx L ∅ w₀ st) ?_ fun _ hw => hw ▸ hctx
  refine Triple.bind (Q := fun _ => Ctx L ∅ w₀ st) ?_ fun deep => ?_
  · exact Triple.get.bind fun _ => Triple.pure fun _ hw => hw.1
  · refine Triple.ite (fun _ => Triple.pure fun _ hw => hw.toKeeps) fun _ => ?_
    refine ((maybeCommit_tame hsafe).only st).bind fun failed => ?_
    exact Triple.ite (fun _ => Triple.pure fun _ hw => hw.1.toKeeps) fun _ =>
      Triple.pure fun _ hw => hw.1.toKeeps

/-- One more text is counted. -/
def World.counted (w : World) : World :=
  { w with cc := { w.cc with sectionsInitialized := (w.cc.sectionsInitialized + 1) % 2 ^ 32 } }

/-- The sections are initialised by the first text only, without the journal. -/
theorem cfInitStack_triple (hsafe : Safe env extent L v.counted)
    (hfirst : v.cc.sectionsInitialized = 0 → L = ∅) :
    Triple Calm (· = v) (cfInitStack env) fun _ => Ready L v.counted env := by
  refine Triple.bindAt (fun w w' hget => ?_) nofun
  cases hget
  refine Triple.bind (Q := fun _ w => w = v.counted)
    (Triple.modify fun w hw => by subst hw; rfl) fun _ => ?_
  refine Triple.strengthen (P := Ctx L ∅ v.counted (v.cc.top, v.cc.below)) ?_
    fun w hw => by rw [hw]; exact Ctx.start L v.counted
  have hinit : Tame L ∅ v.counted
      (whenSet (v.cc.sectionsInitialized = 0) (cfInitSection env [] env.root 0 false)) Any := by
    refine Tame.whenSet fun hzero => ?_
    have hempty := hfirst (of_decide_eq_true hzero)
    subst hempty
    refine Tame.bind (Q := Any) (Tame.whenSet nofun) fun _ _ => ?_
    exact initFields_tame hsafe _ _ fun a _ ha => absurd ha (Set.notMem_empty a)
  refine (hinit _).bind fun _ => Triple.modify fun w hw => ?_
  exact ⟨(rootStack env, []), hw.1.setStack _, nofun, fun f hf => absurd hf List.not_mem_nil⟩

theorem parseFastbuf_triple (hsafe : Safe env extent L v.counted)
    (hfirst : v.cc.sectionsInitialized = 0 → L = ∅) (text : List Byte) :
    Triple (Only (∃ w, cfInitStack env v = .ok ((), w) ∧
        ¬ EachLine env (GoodLine env) env.fuel ⟨⟨text, []⟩, []⟩ w))
      (· = v) (parseFastbuf env text) fun _ => Keeps L v.counted := by
  refine Triple.bindAt (fun _ w hinit => ?_) fun e hinit he =>
    absurd he ((cfInitStack_triple hsafe hfirst).stopped rfl hinit).1
  have hready := (cfInitStack_triple hsafe hfirst).returned rfl hinit
  have hrun := parseRun_triple hsafe env.fuel ⟨⟨text, []⟩, []⟩ hready
  refine Triple.bind (hrun.allow fun e he hzero => ⟨w, hinit, he hzero⟩) fun msg => ?_
  cases msg with
  | some msg => exact Triple.pure fun _ hw => hw.1
  | none =>
      refine Triple.at fun w' hw' => ?_
      exact (finishParse_triple hsafe (hw'.2 rfl)).bind fun _ => Triple.pure fun _ hw => hw

/-! ## Asserts -/

/-- A text none of whose lines is bad is executed or rejected: no `assert(0)` is reached. -/
theorem parseFastbuf_reaches_no_assert (env : Env) (text : List Byte) (w : World)
    (hlines : ∀ w', cfInitStack env w = .ok ((), w') →
      EachLine env (GoodLine env) env.fuel ⟨⟨text, []⟩, []⟩ w') :
    parseFastbuf env text w ≠ .error .assertZero := by
  intro hstop
  have hsafe := Safe.empty env (fun _ => 0) w.counted
  obtain ⟨w', hinit, hbad⟩ := (parseFastbuf_triple hsafe (fun _ => rfl) text).stopped rfl hstop rfl
  exact hbad (hlines w' hinit)

/-- The program does not return, whatever the fault. -/
def Stops {α : Type} (P : World → Prop) (x : Cf α) : Prop :=
  Triple (fun _ => True) P x fun _ _ => False

theorem Stops.after {α β : Type} {x : Cf α} {f : α → Cf β}
    (hf : ∀ a, Stops (fun _ => True) (f a)) : Stops (fun _ => True) (x >>= f) :=
  (Triple.any x).bind hf

theorem openList_clear_stops (item : CfItem) (sec ptr : Nat) :
    Stops (fun _ => True) (openList env item sec ptr .clear) :=
  Stops.after fun _ => Stops.after fun _ => Stops.after fun _ =>
    Triple.bind (Q := fun _ _ => False) (Triple.throw trivial) fun _ _ hw => hw

theorem closeFirst_reset_stops {frame : ItemStack} (hreset : frame.op = .reset) (sec node : Nat)
    (isOpen : Bool) (number : Int) (pars : List CStr) :
    Stops (fun _ => True) (closeFirst env frame sec node isOpen number pars) := by
  refine Stops.after fun _ => ?_
  rw [hreset, if_neg nofun]
  refine Triple.bind (Q := fun _ _ => False) ?_ fun _ _ hw => hw.elim
  unfold prepareNode
  rw [hreset]
  exact Triple.throw trivial

/-- An item that is not an attribute of the node itself is no selector. -/
theorem trySelector_other {frame : ItemStack} {found : Found}
    (h : frame.first = true → some found.sec ≠ frame.sec) :
    trySelector frame (some found) = pure none := by
  unfold trySelector
  split
  · next hfirst => exact if_neg (h hfirst)
  · rfl

/-- A bad line does not get past its `assert(0)`. -/
theorem badLine_stops {l : Line} (hbad : BadLine env v l) :
    Stops (· = v) (cfInterpretLine env l.name l.op l.isOpen l.pars) := by
  rcases hbad with ⟨hop, hopen, hpars, hroom, found, sec, w', hfind, hcls, hselect⟩ |
    ⟨hop, hfirst, hreset, sec, node, w', hsec, hfind⟩
  · rw [hop, hopen, hpars]
    refine Triple.bindAt (fun w w'' hget => ?_) fun _ _ => trivial
    cases hget
    refine Triple.bindAt (fun result w'' hresult => ?_) fun _ _ => trivial
    rw [hfind] at hresult
    cases hresult
    dsimp only
    rw [trySelector_other hselect]
    refine Triple.bind (Q := fun msg w => msg = none ∧ w = w')
      (Triple.pure fun _ hw => ⟨rfl, hw⟩) fun msg => ?_
    refine Triple.assume (fun hmsg => ?_) fun _ hw => hw
    rw [hmsg]
    refine Triple.strengthen (P := fun w => w.cc.below.length < maxStackSize - 1) ?_ ?_
    · refine Triple.at fun u hu => Triple.bindAt (fun w w'' hget => ?_) fun _ _ => trivial
      cases hget
      rw [if_neg (not_le.mpr hu)]
      refine Triple.strengthen (P := fun _ => True) (Stops.after fun _ => ?_) fun _ _ => trivial
      dsimp only
      rw [hcls]
      exact openList_clear_stops found.item sec found.ptr
    · rintro w rfl
      have hctx := ((findItem_tame (Safe.empty env (fun _ => 0) v) _ _ _ _).returned
        (Ctx.start ∅ v) hfind).1
      have hbelow : w.cc.below = v.cc.below := congrArg Prod.snd hctx.stack
      rw [hbelow]
      exact hroom
  · rw [hop]
    refine Triple.bindAt (fun w w'' hget => ?_) fun _ _ => trivial
    cases hget
    dsimp only
    rw [hsec, if_neg (by rw [hreset]; rintro ⟨hclose, _⟩; cases hclose)]
    dsimp only
    rw [if_pos hfirst]
    refine Triple.bindAt (fun result w'' hresult => ?_) fun _ _ => trivial
    rw [hfind] at hresult
    cases hresult
    exact (closeFirst_reset_stops hreset sec node _ _ _).strengthen fun _ _ => trivial

/-- The text goes on after a line as it would after any other. -/
theorem interpretCommand_more (env : Env) (name : CStr) (brace : Bool) (pars : List CStr)
    (after : ParseState) :
    Triple (fun _ => True) (fun _ => True) (interpretCommand env name brace pars after)
      fun r _ => ∀ next, r = .more next → next = after := by
  unfold interpretCommand
  split
  · refine (Triple.any _).bind fun _ => ?_
    exact Triple.pure fun _ _ => nofun
  · refine (Triple.any _).bind fun msg => ?_
    cases msg with
    | some msg => exact Triple.pure fun _ _ => nofun
    | none =>
        refine Triple.pure fun _ _ next hnext => ?_
        exact (Progress.more.inj hnext).symm

/-! ## A small program -/

/-- User code that does nothing. -/
def idle : UserCode := fun w => some ⟨none, w.heap.mem, [], [], []⟩

/-- Digits, as `cf_parse_int` reads them. -/
def parseDigits (s : CStr) : Msg × Option Nat :=
  if s ≠ [] ∧ s.all isDigit then (none, some (s.foldl (fun v b => 10 * v + (b.toNat - 48)) 0))
  else (some "Invalid number", none)

/-- A program without code of its own. -/
def plainEnv (sections : Nat → CfSection) (files : CStr → FileResult) : Env where
  alloc := stride 8 0x10000 0x1000
  sections := sections
  root := 0
  parse := fun _ str => parseDigits str
  utypeSize := fun _ => 8
  utypeParser := fun _ _ _ => idle
  parser := fun _ _ _ => idle
  init := fun _ _ => idle
  commit := fun _ _ => idle
  copy := fun _ _ _ => idle
  files := files
  garyEmptyHdr := 0x8000
  memStd := 0x9000
  fuel := 24

/-- A context in the first `cf_load`, before its text, with memory in use at `0x1000`. -/
def freshWorld : World where
  heap := ⟨fun _ => 0, [(0x1000, 64)], 0⟩
  created := 1
  deleted := []
  owned := []
  cc := ⟨some 0, false, false, 0, [], [], true, [],
    ⟨none, 0, .close, false, false, 0, 0, []⟩, [], 0, ⟨fun _ => toLex (0, 0), 0⟩⟩

/-- A list `l` of nodes without items, and a number `x`. -/
def listSections : Nat → CfSection
  | 0 => ⟨0, false, false, false,
      [⟨bytesOf ['l'], 1, 0x1000, .list 1⟩, ⟨bytesOf ['x'], 1, 0x1010, .static .int⟩],
      false, true, false⟩
  | _ => ⟨16, false, false, false, [], false, false, false⟩

def listEnv : Env := plainEnv listSections fun _ => .missing

/-- `freshWorld` at the top of a text -/
def rootWorld : World :=
  { freshWorld with cc := { freshWorld.cc with top := { freshWorld.cc.top with sec := some 0 } } }

/-- A block that is opened with `l:clear` -/
theorem badLine_stops_clear :
    BadLine listEnv rootWorld ⟨bytesOf ['l'], .clear, true, []⟩ ∧
      Stops (· = rootWorld) (cfInterpretLine listEnv (bytesOf ['l']) .clear true []) := by
  have hbad : BadLine listEnv rootWorld ⟨bytesOf ['l'], .clear, true, []⟩ := by
    refine Or.inl ⟨rfl, rfl, rfl, by decide, _, 1, rootWorld, rfl, rfl, fun hfirst => ?_⟩
    cases hfirst
  exact ⟨hbad, badLine_stops hbad⟩

/-- A list `l` of nodes with a number `n`. -/
def nodeSections : Nat → CfSection
  | 0 => ⟨0, false, false, false, [⟨bytesOf ['l'], 1, 0x1000, .list 1⟩], false, true, false⟩
  | _ => ⟨24, false, false, false, [⟨bytesOf ['n'], 1, 16, .static .int⟩], false, false, false⟩

def nodeEnv : Env := plainEnv nodeSections fun _ => .missing

/-- A block makes a node, and the next one selects it and changes it. -/
def editText : List Byte :=
  bytesOf ['l', ' ', '\x7b', '\n', 'n', ' ', '5', '\n', '\x7d', '\n',
    'l', ':', 'e', 'd', 'i', 't', ' ', '\x7b', '\n', 'n', ' ', '5', '\n', '\x7d', ' ', '\x7b', '\n',
    'n', ' ', '7', '\n', '\x7d']

/-- No line of the run clears, and none closes a block that resets. -/
def avoidsClearing (env : Env) : Nat → ParseState → World → Bool
  | 0, _, _ => true
  | fuel + 1, s, w =>
      (match nextLine s with
        | some l => l.op ≠ .clear ∧ (l.op ≠ .close ∨ w.cc.top.op ≠ .reset)
        | none => true) &&
      match parseStep env s w with
      | .ok (.more next, w') => avoidsClearing env fuel next w'
      | _ => true

theorem eachLine_of_avoidsClearing {fuel : Nat} {s : ParseState}
    (h : avoidsClearing env fuel s w = true) : EachLine env (GoodLine env) fuel s w := by
  induction fuel generalizing s w with
  | zero => trivial
  | succ fuel ih =>
      rw [avoidsClearing, Bool.and_eq_true] at h
      refine ⟨fun l hline => ?_, fun next w' hstep => ih ?_⟩
      · have hops := h.1
        rw [hline] at hops
        obtain ⟨hclear, hreset⟩ := of_decide_eq_true hops
        rintro (⟨hop, _⟩ | ⟨hop, _, htop, _⟩)
        · exact hclear hop
        · exact hreset.elim (fun hclose => hclose hop) fun hother => hother htop
      · have hrest := h.2
        rw [hstep] at hrest
        exact hrest

/-- The same of the lines of a text. -/
def textAvoidsClearing (env : Env) (text : List Byte) (w : World) : Bool :=
  match cfInitStack env w with
  | .ok (_, w') => avoidsClearing env env.fuel ⟨⟨text, []⟩, []⟩ w'
  | .error _ => true

theorem goodLines_of_textAvoidsClearing {text : List Byte}
    (h : textAvoidsClearing env text w = true) (w' : World)
    (hinit : cfInitStack env w = .ok ((), w')) :
    EachLine env (GoodLine env) env.fuel ⟨⟨text, []⟩, []⟩ w' := by
  rw [textAvoidsClearing, hinit] at h
  exact eachLine_of_avoidsClearing h

/-- A text of two blocks, the second one with both phases. -/
theorem parseFastbuf_reaches_no_assert_edit :
    (∀ w', cfInitStack nodeEnv freshWorld = .ok ((), w') →
      EachLine nodeEnv (GoodLine nodeEnv) nodeEnv.fuel ⟨⟨editText, []⟩, []⟩ w') ∧
    parseFastbuf nodeEnv editText freshWorld ≠ .error .assertZero := by
  have havoids : textAvoidsClearing nodeEnv editText freshWorld = true := by decide +kernel
  have hlines := goodLines_of_textAvoidsClearing havoids
  exact ⟨hlines, parseFastbuf_reaches_no_assert nodeEnv editText freshWorld hlines⟩

/-- The fault that a run ended with. -/
def faultOf {α : Type} : Except CfFault α → Option CfFault
  | .ok _ => none
  | .error e => some e

theorem eq_error_of_faultOf {α : Type} {x : Except CfFault α} {e : CfFault}
    (h : faultOf x = some e) : x = .error e := by
  cases x with
  | ok a => cases h
  | error e' => rw [Option.some.inj h]

/-- A block that is opened with `l:clear` comes to an `assert(0)`, and so does one of
`l:reset` when it is closed. -/
theorem clearBlock_reaches_assert :
    parseFastbuf listEnv (bytesOf ['l', ':', 'c', 'l', 'e', 'a', 'r', ' ', '\x7b']) freshWorld =
        .error .assertZero ∧
      parseFastbuf listEnv (bytesOf ['l', ' ', '\x7b', '\n', '\x7d', '\n',
        'l', ':', 'r', 'e', 's', 'e', 't', ' ', '\x7b', '\n', '\x7d']) freshWorld =
        .error .assertZero :=
  ⟨eq_error_of_faultOf (by decide +kernel), eq_error_of_faultOf (by decide +kernel)⟩

end OpenAAA.Opt
