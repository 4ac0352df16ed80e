import OpenAAA.Opt.Texts

/-!
The level of the interpreter's stack along a text. It is raised by an opening brace and
lowered by a closing one, under rules that depend on what the block is of. Whatever the
lines of a text and of the files that it includes, the level stays inside the stack and
counts the blocks that are open.
-/

namespace OpenAAA.Opt

open Memory Hoare

/-- `cc->stack_level` -/
def stackLevel (w : World) : Nat := w.cc.below.length

/-- A block is opened. -/
def Line.opens (l : Line) : Bool := l.isOpen ∧ l.op ≠ .close

/-- A block is closed. A brace that another one follows goes on with the second phase of a
block, and closes nothing. -/
def Line.closes (l : Line) : Bool := l.op = .close ∧ ¬ l.isOpen

/-- The number of blocks opened and not closed. -/
def openBlocks (lines : List Line) : Int := lines.countP Line.opens - lines.countP Line.closes

/-- Turns of the loop of `parse_fastbuf` after which it goes on, with the lines they accepted. -/
inductive Turns (env : Env) : ParseState → World → List Line → ParseState → World → Prop
  | start (s : ParseState) (w : World) : Turns env s w [] s w
  | turn {s s₁ s' : ParseState} {w w₁ w' : World} {lines : List Line}
      (hstep : parseStep env s w = .ok (.more s₁, w₁)) (hrest : Turns env s₁ w₁ lines s' w') :
      Turns env s w ((nextLine s).toList ++ lines) s' w'

theorem openBlocks_append (lines more : List Line) :
    openBlocks (lines ++ more) = openBlocks lines + openBlocks more := by
  unfold openBlocks
  rw [List.countP_append, List.countP_append]
  omega

/-! ## The stack -/

/-- The frame at the bottom of a stack. -/
def bottom : ItemStack → List ItemStack → ItemStack
  | top, [] => top
  | _, st :: below => bottom st below

/-- What `closing_brace` knows the top level by. -/
def IsTopLevel (st : ItemStack) : Prop := st.op = .close ∧ ¬ st.first ∧ ¬ st.second

/-- The stack keeps to its room, and has the top level at the bottom. -/
def StackSound (st : StackOf) : Prop :=
  st.2.length < maxStackSize ∧ IsTopLevel (bottom st.1 st.2)

def OnStack (st : StackOf) (w : World) : Prop := (w.cc.top, w.cc.below) = st

/-- No access past an end of the stack. -/
def InRoom (e : CfFault) : Prop := e ≠ .stack

/-- After a line, which leads to the level `n` if it is accepted. -/
def Settled (n : Nat) (msg : Msg) (w : World) : Prop :=
  StackSound (w.cc.top, w.cc.below) ∧ (msg = none → stackLevel w = n)

variable {env : Env} {st : StackOf} {top frame : ItemStack} {below : List ItemStack} {n : Nat}

theorem StackSound.setTop (h : StackSound (top, frame :: below)) (top' : ItemStack) :
    StackSound (top', frame :: below) :=
  ⟨h.1, h.2⟩

theorem StackSound.push (h : StackSound st) (hroom : st.2.length < maxStackSize - 1)
    (top' : ItemStack) : StackSound (top', st.1 :: st.2) := by
  refine ⟨?_, h.2⟩
  have hlength : (st.1 :: st.2).length = st.2.length + 1 := List.length_cons
  dsimp only
  omega

theorem StackSound.pop (h : StackSound (top, frame :: below)) : StackSound (frame, below) := by
  refine ⟨?_, h.2⟩
  have hroom := h.1
  have hlength : (frame :: below).length = below.length + 1 := List.length_cons
  dsimp only at hroom ⊢
  omega

/-- Only the bottom is taken for the top level. -/
theorem StackSound.exists_below (h : StackSound st) (htop : ¬ IsTopLevel st.1) :
    ∃ frame below, st = (st.1, frame :: below) := by
  obtain ⟨top, below⟩ := st
  cases below with
  | nil => exact absurd h.2 htop
  | cons frame below => exact ⟨frame, below, rfl⟩

theorem OnStack.settled {msg : Msg} {w : World} (h : OnStack st w) (hst : StackSound st)
    (hn : msg = none → st.2.length = n) : Settled n msg w := by
  obtain rfl := h
  exact ⟨hst, hn⟩

/-- Code that does not work on the stack. -/
theorem Tame.onStack {α : Type} {x : Cf α} {Q : α → Prop} (h : ∀ v, Tame ∅ ∅ v x Q)
    (st : StackOf) : Triple InRoom (OnStack st) x fun a w => OnStack st w ∧ Q a := by
  refine Triple.at fun v hv => ?_
  have hstack := ((h v st).allow fun e he => he.2).weaken fun a w hw => And.intro hw.1.stack hw.2
  refine hstack.strengthen fun w hw => ?_
  rw [hw, ← hv]
  exact Ctx.start ∅ v

theorem setTop_onStack (f : ItemStack → ItemStack) :
    Triple InRoom (OnStack st) (setTop f) fun _ => OnStack (f st.1, st.2) := by
  intro w hw
  obtain rfl := hw
  rfl

theorem pushStack_onStack (hroom : st.2.length < maxStackSize - 1) (frame : ItemStack) :
    Triple InRoom (OnStack st) (pushStack frame) fun _ => OnStack (frame, st.1 :: st.2) := by
  refine Triple.at fun v hv => Triple.bindAt (fun w w' hget => ?_) nofun
  cases hget
  obtain rfl := hv
  rw [if_neg (by dsimp only at hroom; omega)]
  rintro w rfl
  rfl

theorem popStack_onStack :
    Triple InRoom (OnStack (top, frame :: below)) popStack fun _ => OnStack (frame, below) := by
  refine Triple.at fun v hv => Triple.bindAt (fun w w' hget => ?_) nofun
  cases hget
  have hbelow : v.cc.below = frame :: below := congrArg Prod.snd hv
  rw [hbelow]
  rintro w rfl
  rfl

theorem failed_settled (hst : StackSound st) (text : String) :
    Triple InRoom (OnStack st) (pure (some text)) (Settled n) :=
  Triple.pure fun _ hw => hw.settled hst nofun

/-! ## Closing braces -/

/-- With nothing to be saved, every address may be written. -/
theorem Writes.empty (p n : Nat) : Writes ∅ ∅ p n := fun a _ ha => absurd ha (Set.notMem_empty a)

theorem addToList_onStack (place node : Nat) (op : CfOperation) (st : StackOf) :
    Triple InRoom (OnStack st) (addToList env place node op) fun _ => OnStack st := by
  by_cases hop : op.OnList
  · have htame : ∀ v, Tame ∅ ∅ v (addToList env place node op) Any := fun v =>
      addToList_tame (Safe.empty env (fun _ => 0) v) place hop fun _ _ => Writes.empty node 16
    exact (Tame.onStack htame st).weaken fun _ _ hw => hw.1
  · have hthrow : addToList env place node op = throw .assertZero := by
      cases op with
      | close => rfl
      | clear => rfl
      | all => rfl
      | reset => rfl
      | set => exact absurd ⟨nofun, nofun, nofun, nofun⟩ hop
      | append => exact absurd ⟨nofun, nofun, nofun, nofun⟩ hop
      | prepend => exact absurd ⟨nofun, nofun, nofun, nofun⟩ hop
      | remove => exact absurd ⟨nofun, nofun, nofun, nofun⟩ hop
      | edit => exact absurd ⟨nofun, nofun, nofun, nofun⟩ hop
      | after => exact absurd ⟨nofun, nofun, nofun, nofun⟩ hop
      | before => exact absurd ⟨nofun, nofun, nofun, nofun⟩ hop
      | copy => exact absurd ⟨nofun, nofun, nofun, nofun⟩ hop
    rw [hthrow]
    exact Triple.throw nofun

theorem cfInitSection_onStack (name : CStr) (sec ptr : Nat) (st : StackOf) :
    Triple InRoom (OnStack st) (cfInitSection env name sec ptr true) fun _ => OnStack st := by
  have htame : ∀ v, Tame ∅ ∅ v (cfInitSection env name sec ptr true) Any := fun v =>
    cfInitSection_tame (Safe.empty env (fun _ => 0) v) name (Writes.empty ptr _)
      fun h => absurd h Set.not_nonempty_empty
  exact (Tame.onStack htame st).weaken fun _ _ hw => hw.1

theorem cfPrintf_onStack (text : String) (st : StackOf) :
    Triple InRoom (OnStack st) (cfPrintf env text) fun _ => OnStack st :=
  (Tame.onStack (fun v => cfPrintf_tame (Safe.empty env (fun _ => 0) v) text) st).weaken
    fun _ _ hw => hw.1

theorem prepareNode_onStack (frame : ItemStack) (sec node : Nat) (st : StackOf) :
    Triple InRoom (OnStack st) (prepareNode env frame sec node) fun _ => OnStack st := by
  have hinit : Triple InRoom (OnStack st) (cfInitSection env frame.item sec frame.basePtr true >>=
      fun _ => pure ((none : Msg), frame.basePtr)) fun _ => OnStack st :=
    (cfInitSection_onStack frame.item sec frame.basePtr st).bind fun _ => Triple.pure fun _ hw => hw
  have hcopy : ∀ v, Tame ∅ ∅ v (memcpy frame.basePtr node (env.sections sec).size) Any :=
    fun v => memcpy_tame (Writes.empty _ _)
  have huser : ∀ v, Tame ∅ ∅ v (callUser (env.copy sec frame.basePtr node)) Any := fun v =>
    callUser_tame (V := ∅) (Safe.empty env (fun _ => 0) v)
      (fun h => absurd h Set.not_nonempty_empty) fun _ ha => absurd ha (Set.notMem_empty _)
  unfold prepareNode
  cases frame.op with
  | edit => exact Triple.pure fun _ hw => hw
  | after => exact hinit
  | before => exact hinit
  | copy =>
      refine Triple.ite (fun _ => ?_) fun _ => ?_
      · exact (cfPrintf_onStack _ st).bind fun _ => Triple.pure fun _ hw => hw
      · refine (Tame.onStack hcopy st).bind fun _ => Triple.strengthen ?_ fun _ hw => hw.1
        refine Triple.ite (fun _ => ?_) fun _ => Triple.pure fun _ hw => hw
        exact (Tame.onStack huser st).bind fun _ => Triple.pure fun _ hw => hw.1
  | remove => exact Triple.throw nofun
  | reset => exact Triple.throw nofun
  | close => exact Triple.throw nofun
  | set => exact Triple.throw nofun
  | clear => exact Triple.throw nofun
  | all => exact Triple.throw nofun
  | append => exact Triple.throw nofun
  | prepend => exact Triple.throw nofun

/-- A block is closed, unless there is a brace after it. -/
theorem closeBlock_settled (hst : StackSound (top, frame :: below)) {isOpen : Bool}
    (hn : isOpen = false → below.length = n) (number : Int) :
    Triple InRoom (OnStack (top, frame :: below)) (closeBlock isOpen number) (Settled n) := by
  refine popStack_onStack.bind fun _ => ?_
  refine Triple.ite (fun _ => failed_settled hst.pop _) fun _ => ?_
  refine Triple.ite (fun _ => failed_settled hst.pop _) fun hclosed => ?_
  exact Triple.pure fun _ hw => hw.settled hst.pop fun _ => hn (Bool.eq_false_of_not_eq_true hclosed)

theorem closeFirst_settled (hst : StackSound (top, frame :: below)) (sec node : Nat) {isOpen : Bool}
    (hopen : isOpen = true → (frame :: below).length = n)
    (hclosed : isOpen = false → below.length = n) {number : Int} (hnumber : 0 ≤ number)
    (pars : List CStr) :
    Triple InRoom (OnStack (top, frame :: below))
      (closeFirst env top sec node isOpen number pars) (Settled n) := by
  refine (setTop_onStack _).bind fun _ => Triple.ite (fun _ => ?_) fun _ => ?_
  · refine (addToList_onStack node top.basePtr .remove _).bind fun _ => ?_
    exact closeBlock_settled (hst.setTop _) hclosed number
  · refine (prepareNode_onStack top sec node _).bind fun result => ?_
    obtain ⟨msg, base⟩ := result
    refine (setTop_onStack _).bind fun _ => ?_
    cases msg with
    | some msg => exact failed_settled (hst.setTop _) msg
    | none =>
        refine Triple.ite (fun htrue => ?_) fun _ => ?_
        · refine (setTop_onStack _).bind fun _ => (addToList_onStack _ _ _ _).bind fun _ => ?_
          exact Triple.pure fun _ hw => hw.settled (hst.setTop _) fun _ => hopen htrue
        · have htame : ∀ v, Tame ∅ ∅ v (interpretSection env sec number pars base true)
              fun r => r.2 ≤ number := fun v =>
            interpretSection_tame (Safe.empty env (fun _ => 0) v) sec hnumber pars base true
          refine (Tame.onStack htame _).bind fun result => Triple.strengthen ?_ fun _ hw => hw.1
          obtain ⟨msg, taken⟩ := result
          cases msg with
          | some msg => exact failed_settled (hst.setTop _) msg
          | none =>
              refine (addToList_onStack _ _ _ _).bind fun _ => ?_
              exact closeBlock_settled (hst.setTop _) hclosed _

/-- A closing brace at the top level is rejected. -/
theorem closingBrace_topLevel {w : World} (htop : IsTopLevel w.cc.top) (isOpen : Bool) (number : Int)
    (pars : List CStr) :
    closingBrace env isOpen number pars w = .ok (some "Unmatched \x7d parenthesis", w) := by
  unfold IsTopLevel at htop
  unfold closingBrace
  change (if w.cc.top.op = .close ∧ ¬ w.cc.top.first ∧ ¬ w.cc.top.second then _ else _ : Cf Msg) w = _
  rw [if_pos htop]
  rfl

theorem closingBrace_settled (hst : StackSound st) (isOpen : Bool)
    (hopen : isOpen = true → st.2.length = n) (hclosed : isOpen = false → st.2.length = n + 1)
    {number : Int} (hnumber : 0 ≤ number) (pars : List CStr) :
    Triple InRoom (OnStack st) (closingBrace env isOpen number pars) (Settled n) := by
  refine Triple.get.bind fun w => ?_
  refine Triple.assume (φ := (w.cc.top, w.cc.below) = st) (P := OnStack st) (fun hw => ?_) ?_
  · obtain rfl := hw
    refine Triple.ite (fun _ => failed_settled hst _) fun htop => ?_
    obtain ⟨frame, below, hbelow⟩ := hst.exists_below htop
    rw [hbelow] at hst hopen hclosed ⊢
    cases w.cc.top.sec with
    | none =>
        refine Triple.ite (fun htrue => Triple.pure fun _ hw => hw.settled hst fun _ => hopen htrue)
          fun hfalse => ?_
        refine popStack_onStack.bind fun _ => Triple.pure fun _ hw => hw.settled hst.pop fun _ => ?_
        exact Nat.succ.inj (hclosed (Bool.eq_false_of_not_eq_true hfalse))
    | some sec =>
        have hlower : isOpen = false → below.length = n := fun h => Nat.succ.inj (hclosed h)
        refine Triple.ite (fun _ => ?_) fun _ => closeBlock_settled hst hlower number
        refine Triple.bind (Tame.onStack (fun v => findListNode_tame _ _ _ _) _) fun result =>
          Triple.strengthen ?_ fun _ hw => hw.1
        cases result with
        | none => exact failed_settled hst _
        | some node => exact closeFirst_settled hst sec node hopen hlower hnumber pars
  · rintro v ⟨hv, rfl⟩
    exact ⟨hv, hv⟩

/-! ## Opening braces -/

theorem openSection_settled (hst : StackSound (top, frame :: below))
    (hn : (frame :: below).length = n) (sec ptr : Nat) (op : CfOperation) :
    Triple InRoom (OnStack (top, frame :: below)) (openSection sec ptr op) (Settled n) := by
  refine (setTop_onStack _).bind fun _ => ?_
  refine Triple.ite (fun _ => failed_settled (hst.setTop _) _) fun _ => ?_
  refine (setTop_onStack _).bind fun _ => ?_
  exact Triple.pure fun _ hw => hw.settled (hst.setTop _) fun _ => hn

theorem openList_settled (hst : StackSound (top, frame :: below))
    (hn : (frame :: below).length = n) (item : CfItem) (sec ptr : Nat) (op : CfOperation) :
    Triple InRoom (OnStack (top, frame :: below)) (openList env item sec ptr op) (Settled n) := by
  have hmalloc := fun v => (cfMalloc_tame (W := ∅) (Safe.empty env (fun _ => 0) v)
    (env.sections sec).size).any
  refine (Tame.onStack hmalloc _).bind fun node => Triple.strengthen ?_ fun _ hw => hw.1
  refine (cfInitSection_onStack _ _ _ _).bind fun _ => (setTop_onStack _).bind fun _ => ?_
  refine Triple.ite (fun _ => failed_settled (hst.setTop _) _) fun _ => ?_
  refine Triple.ite (fun _ => ?_) fun _ => ?_
  · refine (addToList_onStack _ _ _ _).bind fun _ => (setTop_onStack _).bind fun _ => ?_
    exact Triple.pure fun _ hw => hw.settled (hst.setTop _) fun _ => hn
  · refine (setTop_onStack _).bind fun _ => ?_
    exact Triple.pure fun _ hw => hw.settled (hst.setTop _) fun _ => hn

theorem openingBrace_settled (hst : StackSound st) (found : Option Found) (op : CfOperation) :
    Triple InRoom (OnStack st) (openingBrace env found op) (Settled (st.2.length + 1)) := by
  refine Triple.get.bind fun w => ?_
  refine Triple.assume (φ := (w.cc.top, w.cc.below) = st) (P := OnStack st) (fun hw => ?_) ?_
  · obtain rfl := hw
    refine Triple.ite (fun _ => failed_settled hst _) fun hroom => ?_
    have hpush := hst.push (not_le.mp hroom)
    refine (pushStack_onStack (not_le.mp hroom) _).bind fun _ => ?_
    cases found with
    | none => exact Triple.pure fun _ hw => hw.settled (hpush _) fun _ => rfl
    | some found =>
        dsimp only
        cases found.item.cls with
        | «section» sec => exact openSection_settled (hpush _) rfl _ _ _
        | list sec => exact openList_settled (hpush _) rfl _ _ _ _
        | static type => exact failed_settled (hpush _) _
        | dynamic type => exact failed_settled (hpush _) _
        | parser par => exact failed_settled (hpush _) _
        | bitmap type => exact failed_settled (hpush _) _
  · rintro v ⟨hv, rfl⟩
    exact ⟨hv, hv⟩

/-! ## Lines -/

theorem recordSelector_onStack (found : Option Found) (sec : Option Nat) :
    Triple InRoom (OnStack st) (recordSelector found sec) fun _ w =>
      ∃ mask, OnStack ({ st.1 with mask := mask }, st.2) w := by
  have hsame : ∀ msg, Triple InRoom (OnStack st) (pure msg) fun (_ : Msg) w =>
      ∃ mask, OnStack ({ st.1 with mask := mask }, st.2) w :=
    fun msg => Triple.pure fun _ hw => ⟨st.1.mask, hw⟩
  unfold recordSelector
  cases found with
  | none => exact hsame none
  | some found =>
      refine Triple.ite (fun _ => Triple.ite (fun _ => hsame _) fun _ => ?_) fun _ => hsame _
      split
      · exact (setTop_onStack _).bind fun _ => Triple.pure fun _ hw => ⟨_, hw⟩
      · exact hsame _

/-- A selector changes nothing of the stack but a mask. -/
theorem trySelector_onStack (frame : ItemStack) (found : Option Found) :
    Triple InRoom (OnStack st) (trySelector frame found) fun _ w =>
      ∃ mask, OnStack ({ st.1 with mask := mask }, st.2) w :=
  Triple.ite (fun _ => recordSelector_onStack found frame.sec) fun _ =>
    Triple.pure fun _ hw => ⟨st.1.mask, hw⟩

theorem StackSound.setMask (h : StackSound st) (mask : Nat) :
    StackSound ({ st.1 with mask := mask }, st.2) := by
  obtain ⟨top, below⟩ := st
  cases below with
  | nil => exact ⟨h.1, h.2⟩
  | cons frame below => exact h.setTop _

theorem interpretFound_settled (hst : StackSound st) (name : CStr) {op : CfOperation}
    (hop : op ≠ .close) (isOpen : Bool) {number : Int} (hnumber : 0 ≤ number) (pars : List CStr)
    {found : Option Found} (hfound : ∀ f, found = some f → Declares env f.item) :
    Triple InRoom (OnStack st) (interpretFound env name op isOpen number pars found)
      (Settled (if isOpen then st.2.length + 1 else st.2.length)) := by
  refine Triple.ite (fun hopen => ?_) fun hclosed => ?_
  · rw [if_pos hopen]
    exact Triple.ite (fun _ => failed_settled hst _) fun _ => openingBrace_settled hst found op
  · rw [if_neg hclosed]
    cases found with
    | none => exact Triple.pure fun _ hw => hw.settled hst fun _ => rfl
    | some found =>
        have htame : ∀ v, Tame ∅ ∅ v (interpretOperation env name op found number pars) Any :=
          fun v => interpretOperation_tame (Safe.empty env (fun _ => 0) v) name hop
            (hfound found rfl) hnumber pars
        refine (Tame.onStack htame st).bind fun result => Triple.strengthen ?_ fun _ hw => hw.1
        obtain ⟨msg, taken⟩ := result
        cases msg with
        | some msg => exact failed_settled hst msg
        | none =>
            refine Triple.ite (fun _ => ?_) fun _ =>
              Triple.pure fun _ hw => hw.settled hst fun _ => rfl
            exact (cfPrintf_onStack _ st).weaken fun _ _ hw => hw.settled hst fun _ => rfl

/-- A line that is no closing brace goes up a level if it has a brace. -/
theorem cfInterpretLine_settled (hst : StackSound st) (name : CStr) {op : CfOperation}
    (hop : op ≠ .close) (isOpen : Bool) (pars : List CStr) :
    Triple InRoom (OnStack st) (cfInterpretLine env name op isOpen pars)
      (Settled (if isOpen then st.2.length + 1 else st.2.length)) := by
  have hnumber : (0 : Int) ≤ pars.length := Int.natCast_nonneg _
  unfold cfInterpretLine
  dsimp only
  rw [if_neg hop]
  refine (Triple.get.weaken fun _ _ hw => hw.1).bind fun w => ?_
  have hfind : ∀ v, Tame ∅ ∅ v (findItem env w.cc.top.sec name w.cc.top.basePtr) fun r =>
      ∀ f, r.2 = some f → Declares env f.item :=
    fun v => findItem_tame (Safe.empty env (fun _ => 0) v) _ _ _
  refine (Tame.onStack hfind st).bind fun result =>
    Triple.assume (fun hfound => ?_) fun _ hw => ⟨hw.2, hw.1⟩
  obtain ⟨msg, found⟩ := result
  cases msg with
  | some msg => exact failed_settled hst msg
  | none =>
      refine (trySelector_onStack _ found).bind fun msg => ?_
      rintro v ⟨mask, hmask⟩
      cases msg with
      | some msg => exact failed_settled (hst.setMask mask) msg v hmask
      | none =>
          exact interpretFound_settled (hst.setMask mask) name hop isOpen hnumber pars hfound v hmask

/-- The stack is sound, and its level has followed the line if that was accepted. -/
def Follows (v : World) (l : Line) (msg : Msg) (w : World) : Prop :=
  StackSound (w.cc.top, w.cc.below) ∧
    (msg = none → (stackLevel w : Int) = stackLevel v + openBlocks [l])

theorem openBlocks_of_close {l : Line} (hop : l.op = .close) :
    openBlocks [l] = if l.isOpen then 0 else -1 := by
  cases hopen : l.isOpen with
  | false => simp [openBlocks, Line.opens, Line.closes, hop, hopen]
  | true => simp [openBlocks, Line.opens, Line.closes, hop, hopen]

theorem openBlocks_of_not_close {l : Line} (hop : l.op ≠ .close) :
    openBlocks [l] = if l.isOpen then 1 else 0 := by
  cases hopen : l.isOpen with
  | false => simp [openBlocks, Line.opens, Line.closes, hop, hopen]
  | true => simp [openBlocks, Line.opens, Line.closes, hop, hopen]

theorem cfInterpretLine_close {w : World} {l : Line} (hop : l.op = .close)
    (hst : StackSound (w.cc.top, w.cc.below)) (hlevel : stackLevel w = 0) :
    cfInterpretLine env l.name l.op l.isOpen l.pars w =
      .ok (some "Unmatched \x7d parenthesis", w) := by
  have hbelow : w.cc.below = [] := List.length_eq_zero_iff.mp hlevel
  rw [hbelow] at hst
  unfold cfInterpretLine
  dsimp only
  rw [if_pos hop]
  exact closingBrace_topLevel hst.2 _ _ _

theorem line_follows {v : World} (hst : StackSound (v.cc.top, v.cc.below)) (l : Line) :
    Triple InRoom (· = v) (cfInterpretLine env l.name l.op l.isOpen l.pars) (Follows v l) := by
  have hnumber : (0 : Int) ≤ l.pars.length := Int.natCast_nonneg _
  have hstack : ∀ w, w = v → OnStack (v.cc.top, v.cc.below) w := fun w hw => hw ▸ rfl
  have hlevel : ∀ n : Nat, (n : Int) = stackLevel v + openBlocks [l] → ∀ msg w, Settled n msg w →
      Follows v l msg w := by
    intro n hn msg w hw
    refine ⟨hw.1, fun hmsg => ?_⟩
    rw [hw.2 hmsg, hn]
  by_cases hop : l.op = .close
  · by_cases hzero : stackLevel v = 0
    · rintro w rfl
      rw [cfInterpretLine_close hop hst hzero]
      exact ⟨hst, nofun⟩
    · obtain ⟨n, hn⟩ := Nat.exists_eq_succ_of_ne_zero hzero
      rw [openBlocks_of_close hop] at hlevel
      unfold cfInterpretLine
      dsimp only
      rw [if_pos hop]
      cases hopen : l.isOpen with
      | true =>
          rw [hopen, hn] at hlevel
          refine (closingBrace_settled hst true (fun _ => hn) nofun hnumber l.pars).conseq hstack ?_
          exact hlevel (n + 1) (by simp)
      | false =>
          rw [hopen, hn] at hlevel
          refine (closingBrace_settled hst false nofun (fun _ => hn) hnumber l.pars).conseq hstack ?_
          exact hlevel n (by simp)
  · rw [openBlocks_of_not_close hop] at hlevel
    refine (cfInterpretLine_settled hst l.name hop l.isOpen l.pars).conseq hstack (hlevel _ ?_)
    cases l.isOpen with
    | true => rfl
    | false => exact (add_zero _).symm

/-! ## Texts -/

/-- After a turn of the loop, which fails or reads a line at most. -/
def LevelTurned (v : World) (l : Option Line) (r : Progress) (w : World) : Prop :=
  StackSound (w.cc.top, w.cc.below) ∧
    ((∀ msg, r ≠ .failed msg) → (stackLevel w : Int) = stackLevel v + openBlocks l.toList)

section Texts

variable {v : World} (hst : StackSound (v.cc.top, v.cc.below))

include hst

/-- A turn without a line. -/
theorem turn_level (r : Progress) :
    Triple InRoom (· = v) (pure r) (LevelTurned v none) := by
  refine Triple.pure fun w hw => ?_
  subst hw
  exact ⟨hst, fun _ => (add_zero _).symm⟩

theorem failing_level (text : String) (l : Option Line) :
    Triple InRoom (· = v) (cfPrintf env text >>= fun _ => pure (Progress.failed text))
      (LevelTurned v l) := by
  refine Triple.strengthen (P := OnStack (v.cc.top, v.cc.below)) ?_ fun w hw => hw ▸ rfl
  refine (cfPrintf_onStack text _).bind fun _ => Triple.pure fun w hw => ⟨?_, ?_⟩
  · rw [hw]
    exact hst
  · exact fun hfailed => absurd rfl (hfailed text)

theorem includeFile_level (isOptional : Bool) (pars : List CStr) (p : ParserState)
    (outer : List (List Byte)) :
    Triple InRoom (· = v) (includeFile env isOptional pars p outer) (LevelTurned v none) := by
  unfold includeFile
  split
  · refine Triple.ite (fun _ => turn_level hst _) fun _ => ?_
    refine Triple.ite (fun _ => turn_level hst _) fun _ => ?_
    split
    · exact turn_level hst _
    · exact turn_level hst _
    · exact failing_level hst _ none
  · exact turn_level hst _

theorem interpretCommand_level (name : CStr) (brace : Bool) (pars : List CStr) (next : ParseState) :
    Triple InRoom (· = v) (interpretCommand env name brace pars next)
      (LevelTurned v (match decodeOperation name with
        | .ok (name, op) => some ⟨name, op, brace, pars⟩
        | .error _ => none)) := by
  unfold interpretCommand
  cases decodeOperation name with
  | error c => exact failing_level hst _ none
  | ok command =>
      obtain ⟨name, op⟩ := command
      refine (line_follows hst ⟨name, op, brace, pars⟩).bind fun msg => ?_
      cases msg with
      | some msg => exact Triple.pure fun w hw => ⟨hw.1, fun hfailed => absurd rfl (hfailed msg)⟩
      | none => exact Triple.pure fun w hw => ⟨hw.1, fun _ => hw.2 rfl⟩

theorem parseStep_level (s : ParseState) :
    Triple InRoom (· = v) (parseStep env s) (LevelTurned v (nextLine s)) := by
  unfold parseStep nextLine
  cases splitCommand s.parser with
  | error msg => exact turn_level hst _
  | ok command =>
      obtain ⟨words, brace, p⟩ := command
      cases words with
      | nil =>
          cases s.outer with
          | nil => exact turn_level hst _
          | cons input outer => exact turn_level hst _
      | cons name pars =>
          dsimp only
          by_cases hopt : strcaseEq name optionalIncludeName
          · rw [if_pos hopt, if_pos (Or.inl hopt)]
            exact includeFile_level hst true pars p _
          · by_cases hinc : strcaseEq name includeName
            · rw [if_neg hopt, if_pos hinc, if_pos (Or.inr hinc)]
              exact includeFile_level hst false pars p _
            · rw [if_neg hopt, if_neg hinc, if_neg (not_or.mpr ⟨hopt, hinc⟩)]
              exact interpretCommand_level hst name brace pars _

/-- A closing brace at the level 0 ends the text. -/
theorem parseStep_close {s : ParseState} {l : Line} (hl : nextLine s = some l) (hop : l.op = .close)
    (hlevel : stackLevel v = 0) : ∃ msg, parseStep env s v = .ok (.failed msg, v) := by
  unfold nextLine at hl
  unfold parseStep
  cases hsplit : splitCommand s.parser with
  | error msg => exact ⟨msg, rfl⟩
  | ok command =>
      obtain ⟨words, brace, p⟩ := command
      rw [hsplit] at hl
      cases words with
      | nil => cases hl
      | cons name pars =>
          dsimp only at hl ⊢
          split at hl
          · cases hl
          · next hinc =>
              rw [not_or] at hinc
              rw [if_neg hinc.1, if_neg hinc.2]
              unfold interpretCommand
              cases hname : decodeOperation name with
              | error c =>
                  rw [hname] at hl
                  cases hl
              | ok command =>
                  rw [hname] at hl
                  obtain rfl := Option.some.inj hl
                  refine ⟨"Unmatched \x7d parenthesis", ?_⟩
                  have hline := @cfInterpretLine_close env _ _ hop hst hlevel
                  dsimp only at hline ⊢
                  change (cfInterpretLine env command.1 command.2 brace pars v >>= _) = _
                  rw [hline]
                  rfl

end Texts

theorem Turns.level {s s' : ParseState} {v w : World} {lines : List Line}
    (h : Turns env s v lines s' w) (hst : StackSound (v.cc.top, v.cc.below)) :
    StackSound (w.cc.top, w.cc.below) ∧ (stackLevel w : Int) = stackLevel v + openBlocks lines := by
  induction h with
  | start s w => exact ⟨hst, (add_zero _).symm⟩
  | @turn s s₁ s' v v₁ w lines hstep _ ih =>
      have hturn := (parseStep_level hst s).returned rfl hstep
      have hlevel := hturn.2 nofun
      obtain ⟨hsound, hrest⟩ := ih hturn.1
      refine ⟨hsound, ?_⟩
      rw [hrest, hlevel, openBlocks_append, add_assoc]

/-- A run of the loop is a sequence of turns. It ends with the outermost text, or with an error. -/
theorem parseRun_level (fuel : Nat) (s : ParseState) {v : World}
    (hst : StackSound (v.cc.top, v.cc.below)) :
    Triple InRoom (· = v) (parseRun env fuel s) fun msg w =>
      StackSound (w.cc.top, w.cc.below) ∧ (msg = none → ∃ lines s' w',
        Turns env s v lines s' w' ∧ parseStep env s' w' = .ok (.done, w)) := by
  induction fuel generalizing s v with
  | zero => exact Triple.throw nofun
  | succ fuel ih =>
      refine Triple.bindAt (fun r w' hstep => ?_) fun e hstep =>
        (parseStep_level hst s).stopped rfl hstep
      have hturn := (parseStep_level hst s).returned rfl hstep
      cases r with
      | more next =>
          refine (ih next hturn.1).weaken fun msg w hw => ⟨hw.1, fun hmsg => ?_⟩
          obtain ⟨lines, s', w'', hturns, hdone⟩ := hw.2 hmsg
          exact ⟨_, s', w'', Turns.turn hstep hturns, hdone⟩
      | failed msg => exact Triple.pure fun w hw => ⟨hw ▸ hturn.1, nofun⟩
      | done => exact Triple.pure fun w hw => ⟨hw ▸ hturn.1, fun _ => ⟨[], s, v, .start s v, hw ▸ hstep⟩⟩

/-- The loop is left where the outermost text ends. -/
theorem parseStep_done (s : ParseState) (v : World) :
    Triple (fun _ => True) (· = v) (parseStep env s) fun r w =>
      r = .done → s.outer = [] ∧ w = v := by
  have hmore : ∀ next, Triple (fun _ => True) (· = v) (pure (Progress.more next) : Cf Progress)
      fun r w => r = .done → s.outer = [] ∧ w = v :=
    fun next => Triple.pure fun _ _ => nofun
  have hfails : ∀ msg, Triple (fun _ => True) (fun _ => True)
      (pure (Progress.failed msg) : Cf Progress) fun r w => r = .done → s.outer = [] ∧ w = v :=
    fun msg => Triple.pure fun _ _ => nofun
  have hinclude : ∀ isOptional pars p, Triple (fun _ => True) (· = v)
      (includeFile env isOptional pars p s.outer) fun r w => r = .done → s.outer = [] ∧ w = v := by
    intro isOptional pars p
    unfold includeFile
    split
    · refine Triple.ite (fun _ => (hfails _).strengthen fun _ _ => trivial) fun _ => ?_
      refine Triple.ite (fun _ => (hfails _).strengthen fun _ _ => trivial) fun _ => ?_
      split
      · exact hmore _
      · exact hmore _
      · exact (Triple.any _).bind fun _ => hfails _
    · exact (hfails _).strengthen fun _ _ => trivial
  unfold parseStep
  cases splitCommand s.parser with
  | error msg => exact (hfails msg).strengthen fun _ _ => trivial
  | ok command =>
      obtain ⟨words, brace, p⟩ := command
      cases words with
      | nil =>
          cases houter : s.outer with
          | nil => exact Triple.pure fun w hw _ => ⟨rfl, hw⟩
          | cons input outer => exact Triple.pure fun _ _ => nofun
      | cons name pars =>
          refine Triple.ite (fun _ => hinclude true pars p) fun _ => ?_
          refine Triple.ite (fun _ => hinclude false pars p) fun _ => ?_
          unfold interpretCommand
          split
          · exact (Triple.any _).bind fun _ => hfails _
          · refine (Triple.any _).bind fun msg => ?_
            cases msg with
            | some msg => exact hfails msg
            | none => exact Triple.pure fun _ _ => nofun

theorem cfInitStack_level (v : World) :
    Triple InRoom (· = v) (cfInitStack env) fun _ => OnStack (rootStack env, []) := by
  have hcalm := (cfInitStack_triple (Safe.empty env (fun _ => 0) v.counted) fun _ => rfl).allow
    fun e he => he.2
  have hroot : Triple (fun _ => True) (fun _ => True) (cfInitStack env) fun _ =>
      OnStack (rootStack env, []) := by
    refine (Triple.any _).bind fun _ => (Triple.any _).bind fun _ => (Triple.any _).bind fun _ => ?_
    exact Triple.modify fun _ _ => rfl
  exact (hcalm.both hroot).conseq (fun _ hw => ⟨hw, trivial⟩) fun _ _ hw => hw.2

theorem rootStack_sound (env : Env) : StackSound (rootStack env, []) := by
  have hroom : 0 < maxStackSize := by decide
  exact ⟨hroom, rfl, nofun, nofun⟩

theorem finishParse_level (st : StackOf) :
    Triple InRoom (OnStack st) (finishParse env) fun msg w =>
      OnStack st w ∧ (msg = none → st.2.length = 0) := by
  refine Triple.bind (Q := fun deep w => OnStack st w ∧ deep = decide (0 < st.2.length)) ?_
    fun deep => ?_
  · refine Triple.get.bind fun w => Triple.pure fun _ hw => ?_
    obtain ⟨hw, rfl⟩ := hw
    exact ⟨hw, by rw [← hw]⟩
  · refine Triple.assume (fun hdeep => ?_) fun _ hw => ⟨hw.2, hw.1⟩
    refine Triple.ite (fun _ => Triple.pure fun _ hw => ⟨hw, nofun⟩) fun hlevel => ?_
    have hcommit := fun v => maybeCommit_tame (W := ∅) (Safe.empty env (fun _ => 0) v)
    refine (Tame.onStack hcommit st).bind fun failed => ?_
    refine Triple.ite (fun _ => Triple.pure fun _ hw => ⟨hw.1, nofun⟩) fun _ => ?_
    refine Triple.pure fun _ hw => ⟨hw.1, fun _ => ?_⟩
    rw [hdeep] at hlevel
    exact Nat.eq_zero_of_not_pos fun h => hlevel (decide_eq_true h)

/-- The level of the stack along a text, with the files that it includes. -/
structure LevelSound (env : Env) (text : List Byte) (w : World) : Prop where
  /-- The level is never lowered below 0 nor raised past the room of the stack. -/
  inRoom : parseFastbuf env text w ≠ .error .stack
  counts : ∀ w₀, cfInitStack env w = .ok ((), w₀) → ∀ lines s w',
    Turns env ⟨⟨text, []⟩, []⟩ w₀ lines s w' →
      stackLevel w' ≤ maxStackSize - 1 ∧ (stackLevel w' : Int) = openBlocks lines
  failed : ∀ w₀, cfInitStack env w = .ok ((), w₀) → ∀ lines s w',
    Turns env ⟨⟨text, []⟩, []⟩ w₀ lines s w' → ∀ r w'', parseStep env s w' = .ok (r, w'') →
      stackLevel w'' ≤ maxStackSize - 1
  unmatched : ∀ w₀, cfInitStack env w = .ok ((), w₀) → ∀ lines s w',
    Turns env ⟨⟨text, []⟩, []⟩ w₀ lines s w' → ∀ l, nextLine s = some l → l.op = .close →
      stackLevel w' = 0 → ∃ msg, parseStep env s w' = .ok (.failed msg, w')
  ended : ∀ w', parseFastbuf env text w = .ok (false, w') → ∃ w₀ lines s w₁,
    cfInitStack env w = .ok ((), w₀) ∧ Turns env ⟨⟨text, []⟩, []⟩ w₀ lines s w₁ ∧
      s.outer = [] ∧ parseStep env s w₁ = .ok (.done, w₁) ∧ stackLevel w₁ = 0

theorem parseFastbuf_level (text : List Byte) (v : World) :
    Triple InRoom (· = v) (parseFastbuf env text) fun failed _ => failed = false →
      ∃ w₀ lines s w₁, cfInitStack env v = .ok ((), w₀) ∧
        Turns env ⟨⟨text, []⟩, []⟩ w₀ lines s w₁ ∧ s.outer = [] ∧
        parseStep env s w₁ = .ok (.done, w₁) ∧ stackLevel w₁ = 0 := by
  refine Triple.bindAt (fun _ w₀ hinit => ?_) fun e hinit => (cfInitStack_level v).stopped rfl hinit
  have hroot := (cfInitStack_level v).returned rfl hinit
  have hsound : StackSound (w₀.cc.top, w₀.cc.below) := by
    rw [hroot]
    exact rootStack_sound env
  have hrun := @parseRun_level env env.fuel ⟨⟨text, []⟩, []⟩ _ hsound
  refine hrun.bind fun msg => ?_
  cases msg with
  | some msg => exact Triple.pure fun _ _ => nofun
  | none =>
      refine Triple.at fun w₁ hw₁ => ?_
      obtain ⟨lines, s, w', hturns, hdone⟩ := hw₁.2 rfl
      obtain ⟨houter, rfl⟩ := (parseStep_done s w').returned rfl hdone rfl
      refine Triple.bind ((finishParse_level (w₁.cc.top, w₁.cc.below)).strengthen
        fun w hw => hw ▸ rfl) fun msg => Triple.pure fun w hw hfailed => ?_
      refine ⟨w₀, lines, s, w₁, hinit, hturns, houter, hdone, hw.2 ?_⟩
      cases msg with
      | none => rfl
      | some msg => cases hfailed

/-- Every text keeps the level of the stack inside its room, at the number of open blocks. A closing
brace at the level 0 is rejected, and a text is loaded only if its end has that level. -/
theorem parseFastbuf_levelSound (env : Env) (text : List Byte) (w : World) :
    LevelSound env text w := by
  have hsound : ∀ w₀, cfInitStack env w = .ok ((), w₀) →
      StackSound (w₀.cc.top, w₀.cc.below) ∧ stackLevel w₀ = 0 := by
    intro w₀ hinit
    have hroot := (cfInitStack_level w).returned rfl hinit
    refine ⟨?_, congrArg (fun st : StackOf => st.2.length) hroot⟩
    rw [hroot]
    exact rootStack_sound env
  refine ⟨fun hstop => ?_, fun w₀ hinit lines s w' hturns => ?_,
    fun w₀ hinit lines s w' hturns r w'' hstep => ?_,
    fun w₀ hinit lines s w' hturns l hl hop hlevel => ?_, fun w' hrun => ?_⟩
  · exact (parseFastbuf_level text w).stopped rfl hstop rfl
  · obtain ⟨hroom, hcount⟩ := hturns.level (hsound w₀ hinit).1
    rw [(hsound w₀ hinit).2] at hcount
    exact ⟨Nat.le_sub_one_of_lt hroom.1, hcount.trans (zero_add _)⟩
  · have hturned := (parseStep_level (hturns.level (hsound w₀ hinit).1).1 s).returned rfl hstep
    exact Nat.le_sub_one_of_lt hturned.1.1
  · exact parseStep_close (hturns.level (hsound w₀ hinit).1).1 hl hop hlevel
  · exact (parseFastbuf_level text w).returned rfl hrun rfl

-- a block that is closed, and one that is not
example : (parseFastbuf listEnv (bytesOf ['l', ' ', '\x7b', '\n', '\x7d']) freshWorld).map (·.1) =
    .ok false ∧
    (parseFastbuf listEnv (bytesOf ['l', ' ', '\x7b']) freshWorld).map (·.1) = .ok true := by
  decide +kernel

end OpenAAA.Opt
