import OpenAAA.Opt.Capped

/-!
Calls that fail. A text whose assignments all fit into the journal is interpreted in the same way
with the arrays declared shorter, where nothing can wrap, and so a call that fails on it gives
everything back, whatever is declared beside.
-/

namespace OpenAAA.Opt

open Memory Alloc UndoLog Hoare

variable {env : Env} {extent : Nat → Nat}

/-! ## Lines -/

theorem cfFindSubitem_capped (sec : Nat) (name : CStr) :
    cfFindSubitem env.capped sec name =
      (cfFindSubitem env sec name).map fun ci => (env.cap ci.1, ci.2) := by
  unfold cfFindSubitem
  rw [Env.capped_cfg, List.zipIdx_map, List.find?_map]
  congr 2
  funext ci
  exact congrArg (strcaseEq · name) (Env.cap_name ci.1)

def Env.capResult (env : Env) (r : Msg × Option Found) : Msg × Option Found :=
  (r.1, r.2.map env.capFound)

theorem findPath_capped (sec ptr : Nat) (parts : List CStr) :
    findPath env.capped sec ptr parts = env.capResult <$> findPath env sec ptr parts := by
  induction parts generalizing sec ptr with
  | nil => rfl
  | cons name parts ih =>
      rw [findPath, findPath, map_bind, cfFindSubitem_capped]
      refine congrArg _ (funext fun _ => ?_)
      cases cfFindSubitem env sec name with
      | none =>
          have hflag : (env.capped.sections sec).flagUnknown = (env.sections sec).flagUnknown := rfl
          dsimp only [Option.map_none]
          rw [hflag, cfPrintf_capped]
          split
          · rfl
          · rw [map_bind]
            rfl
      | some r =>
          obtain ⟨ci, index⟩ := r
          dsimp only [Option.map_some]
          rw [Env.cap_cls, Env.cap_ptr]
          split
          · rfl
          · cases ci.cls with
            | «section» sub => exact ih sub (ptr + ci.ptr)
            | _ =>
                dsimp only
                rw [cfPrintf_capped, map_bind]
                rfl

theorem findItem_capped (currSec : Option Nat) (name : CStr) (ptr : Nat) :
    findItem env.capped currSec name ptr = env.capResult <$> findItem env currSec name ptr := by
  have hfrom : ∀ name, findItem.findFrom env.capped ptr currSec name =
      env.capResult <$> findItem.findFrom env ptr currSec name := by
    intro name
    cases currSec with
    | none => rfl
    | some sec => exact findPath_capped sec ptr (splitPath name)
  cases name with
  | nil => exact hfrom []
  | cons b rest =>
      rw [findItem, findItem]
      split
      · exact findPath_capped env.root 0 (splitPath rest)
      · exact hfrom (b :: rest)

theorem trySelector_capped (st : ItemStack) (found : Option Found) :
    trySelector st (found.map env.capFound) = trySelector st found := by
  cases found with
  | none => rfl
  | some found =>
      unfold trySelector recordSelector Env.capFound
      dsimp only [Option.map_some]
      rw [Env.cap_cls]

theorem openingBrace_capped (found : Option Found) (op : CfOperation) :
    openingBrace env.capped (found.map env.capFound) op = openingBrace env found op := by
  cases found with
  | none => rfl
  | some found =>
      unfold openingBrace openList Env.capFound
      dsimp only [Option.map_some]
      rw [Env.cap_cls, Env.cap_name]
      simp only [cfInitSection_capped]
      rfl

theorem prepareNode_capped (st : ItemStack) (sec node : Nat) :
    prepareNode env.capped st sec node = prepareNode env st sec node := by
  unfold prepareNode
  simp only [cfInitSection_capped]
  rfl

theorem selectedNode_capped (st : ItemStack) (sec node : Nat) :
    selectedNode env.capped st sec node = selectedNode env st sec node := by
  unfold selectedNode
  rw [prepareNode_capped]

/-- The end of the first phase of a block, once it has its node -/
def afterSelection (env : Env) (st : ItemStack) (sec node : Nat) (isOpen : Bool) (number : Int)
    (pars : List CStr) (r : Msg × Nat) : Cf Msg :=
  match r.1 with
  | some msg => pure (some msg)
  | none =>
      if isOpen then do
        setTop fun st => { st with first := false, second := true }
        addToList env node r.2 st.op
        pure none
      else do
        let (msg, taken) ← interpretSection env sec number pars r.2 true
        match msg with
        | some msg => pure (some msg)
        | none =>
            addToList env node r.2 st.op
            closeBlock isOpen (number - taken)

theorem closeFirst_eq (st : ItemStack) (sec node : Nat) (isOpen : Bool) (number : Int)
    (pars : List CStr) :
    closeFirst env st sec node isOpen number pars =
      if st.op = .remove then
        setTop (fun st => { st with list := node }) >>= fun _ =>
          addToList env node st.basePtr .remove >>= fun _ => closeBlock isOpen number
      else selectedNode env st sec node >>= afterSelection env st sec node isOpen number pars := by
  unfold closeFirst selectedNode
  split
  · rfl
  · simp only [bind_assoc, pure_bind]
    rfl

theorem closeFirst_capped (st : ItemStack) (sec node : Nat) (isOpen : Bool) (number : Int)
    (pars : List CStr) {w : World}
    (h : isOpen = false → st.op ≠ .remove → ∀ base w₂, selectedNode env st sec node w =
        .ok ((none, base), w₂) →
      SectionFits env (interpretSetItem env env.fuel) (SetFits env env.fuel) sec number pars base
        true w₂) :
    closeFirst env.capped st sec node isOpen number pars w =
      closeFirst env st sec node isOpen number pars w := by
  rw [closeFirst_eq, closeFirst_eq]
  by_cases hremove : st.op = .remove
  · rw [if_pos hremove, if_pos hremove]
    rfl
  · rw [if_neg hremove, if_neg hremove, selectedNode_capped]
    refine bind_same rfl fun result w₂ hselected => ?_
    obtain ⟨msg, base⟩ := result
    unfold afterSelection
    cases msg with
    | some msg => rfl
    | none =>
        dsimp only
        cases isOpen with
        | true => rfl
        | false =>
            rw [if_neg Bool.false_ne_true, if_neg Bool.false_ne_true]
            refine bind_same ?_ fun _ _ _ => rfl
            exact interpretSectionWith_capped (interpretSetItem_capped env.fuel) sec number pars base
              true (h rfl hremove base w₂ hselected)

theorem closingBrace_capped (isOpen : Bool) (number : Int) (pars : List CStr) {w : World}
    (h : isOpen = false → ClosingFits env number pars w) :
    closingBrace env.capped isOpen number pars w = closingBrace env isOpen number pars w := by
  refine bind_same rfl fun v w' hget => ?_
  cases hget
  dsimp only
  split
  · rfl
  · cases hsec : w.cc.top.sec with
    | none => rfl
    | some sec =>
        dsimp only
        by_cases hfirst : w.cc.top.first = true
        · rw [if_pos hfirst, if_pos hfirst, findListNode_capped]
          refine bind_same rfl fun result w₁ hfind => ?_
          cases result with
          | none => rfl
          | some node =>
              exact closeFirst_capped w.cc.top sec node isOpen number pars fun hopen hremove =>
                h hopen sec node w₁ hsec hfirst hfind hremove
        · rw [if_neg hfirst, if_neg hfirst]

theorem interpretFound_capped (name : CStr) (op : CfOperation) (isOpen : Bool) (number : Int)
    (pars : List CStr) (found : Option Found) {w : World}
    (h : isOpen = false → ∀ f, found = some f → OperationFits env op f number pars w) :
    interpretFound env.capped name op isOpen number pars (found.map env.capFound) w =
      interpretFound env name op isOpen number pars found w := by
  unfold interpretFound
  cases isOpen with
  | true =>
      rw [if_pos rfl, if_pos rfl, openingBrace_capped]
  | false =>
      rw [if_neg Bool.false_ne_true, if_neg Bool.false_ne_true]
      cases found with
      | none => rfl
      | some f =>
          have hsame := interpretOperation_capped name op f number pars (h rfl f rfl)
          exact bind_same hsame fun _ _ _ => rfl

/-- A line does the same, if its assignments fit. -/
theorem cfInterpretLine_capped (l : Line) {w : World} (h : LineFits env w l) :
    cfInterpretLine env.capped l.name l.op l.isOpen l.pars w =
      cfInterpretLine env l.name l.op l.isOpen l.pars w := by
  unfold cfInterpretLine
  by_cases hclose : l.op = .close
  · rw [if_pos hclose, if_pos hclose]
    refine closingBrace_capped l.isOpen _ l.pars fun hopen => ?_
    have hfits := h hopen
    rwa [if_pos hclose] at hfits
  · rw [if_neg hclose, if_neg hclose]
    refine bind_same rfl fun v w' hget => ?_
    cases hget
    dsimp only
    rw [findItem_capped, bind_map_left]
    refine bind_same rfl fun result w₁ hfind => ?_
    obtain ⟨msg, found⟩ := result
    cases msg with
    | some msg => rfl
    | none =>
        dsimp only [Env.capResult]
        rw [trySelector_capped]
        refine bind_same rfl fun msg w₂ hselect => ?_
        cases msg with
        | some msg => rfl
        | none =>
            refine interpretFound_capped l.name l.op l.isOpen _ l.pars found fun hopen f hf => ?_
            subst hf
            have hfits := h hopen
            rw [if_neg hclose] at hfits
            exact hfits f w₁ w₂ hfind hselect

/-! ## Texts -/

theorem interpretCommand_capped (name : CStr) (brace : Bool) (pars : List CStr) (next : ParseState)
    {w : World}
    (h : ∀ n op, decodeOperation name = .ok (n, op) → LineFits env w ⟨n, op, brace, pars⟩) :
    interpretCommand env.capped name brace pars next w =
      interpretCommand env name brace pars next w := by
  unfold interpretCommand
  cases hop : decodeOperation name with
  | error c => rfl
  | ok r =>
      have hsame := cfInterpretLine_capped ⟨r.1, r.2, brace, pars⟩ (h r.1 r.2 hop)
      exact bind_same hsame fun _ _ _ => rfl

theorem parseStep_capped (s : ParseState) {w : World}
    (h : ∀ l, nextLine s = some l → LineFits env w l) :
    parseStep env.capped s w = parseStep env s w := by
  unfold nextLine at h
  unfold parseStep
  cases hsplit : splitCommand s.parser with
  | error msg => rfl
  | ok command =>
      obtain ⟨words, brace, p⟩ := command
      cases words with
      | nil => rfl
      | cons name pars =>
          rw [hsplit] at h
          dsimp only at h ⊢
          by_cases hopt : strcaseEq name optionalIncludeName = true
          · rw [if_pos hopt, if_pos hopt]
            rfl
          · rw [if_neg hopt, if_neg hopt]
            by_cases hinc : strcaseEq name includeName = true
            · rw [if_pos hinc, if_pos hinc]
              rfl
            · rw [if_neg hinc, if_neg hinc]
              refine interpretCommand_capped name brace pars _ fun n op hop => h _ ?_
              rw [if_neg (not_or.mpr ⟨hopt, hinc⟩), hop]

theorem parseRun_capped (fuel : Nat) (s : ParseState) {w : World}
    (h : EachLine env (LineFits env) fuel s w) :
    parseRun env.capped fuel s w = parseRun env fuel s w := by
  induction fuel generalizing s w with
  | zero => rfl
  | succ fuel ih =>
      refine bind_same (parseStep_capped s h.1) fun r w' hstep => ?_
      cases r with
      | more next => exact ih next (h.2 next w' hstep)
      | failed msg => rfl
      | done => rfl

theorem commitPart_capped (commit : Nat → Nat → Cf Msg) (ptr : Nat) (ci : CfItem) :
    commitPart env.capped commit ptr (env.cap ci) = commitPart env commit ptr ci := by
  unfold commitPart
  rw [Env.cap_cls, Env.cap_ptr]
  rfl

theorem commitParts_capped (commit : Nat → Nat → Cf Msg) (ptr : Nat) (items : List CfItem) :
    commitParts env.capped commit ptr (items.map env.cap) = commitParts env commit ptr items := by
  induction items with
  | nil => rfl
  | cons ci rest ih => rw [List.map_cons, commitParts, commitParts, commitPart_capped, ih]

theorem commitIn_capped (commitAll : Bool) (fuel sec ptr : Nat) :
    commitIn env.capped commitAll fuel sec ptr = commitIn env commitAll fuel sec ptr := by
  induction fuel generalizing sec ptr with
  | zero => rfl
  | succ fuel ih =>
      have hbelow : commitIn env.capped commitAll fuel = commitIn env commitAll fuel :=
        funext fun sec => funext fun ptr => ih sec ptr
      rw [commitIn, commitIn, hbelow, Env.capped_cfg, commitParts_capped]
      rfl

theorem finishParse_capped : finishParse env.capped = finishParse env := by
  unfold finishParse maybeCommit commitAllIn
  simp only [commitIn_capped]
  rfl

theorem cfInitStack_capped : cfInitStack env.capped = cfInitStack env := by
  unfold cfInitStack
  simp only [cfInitSection_capped]
  rfl

/-- A text does the same, if its assignments fit. -/
theorem parseFastbuf_capped (text : List Byte) {w : World} (h : TextFits env text w) :
    parseFastbuf env.capped text w = parseFastbuf env text w := by
  unfold parseFastbuf
  rw [cfInitStack_capped, finishParse_capped]
  refine bind_same rfl fun _ w' hinit => ?_
  exact bind_same (parseRun_capped env.fuel _ (h w' hinit)) fun _ _ _ => rfl

theorem cfLoad_capped (file : CStr) (w : World)
    (h : ∀ text, env.files file = .contents text → TextFits env text w.opened) :
    cfLoad env.capped file w = cfLoad env file w := by
  refine bind_same rfl fun oldj w' hnew => ?_
  cases hnew
  refine bind_same ?_ fun _ _ _ => rfl
  unfold loadFile
  have hfile : env.capped.files file = env.files file := rfl
  rw [hfile]
  cases hread : env.files file with
  | contents text => exact parseFastbuf_capped text (h text hread)
  | _ => rfl

theorem cfSet_capped (string : CStr) (w : World) (h : TextFits env string w.begun) :
    cfSet env.capped string w = cfSet env string w := by
  refine bind_same rfl fun oldj w' hnew => ?_
  cases hnew
  exact bind_same (parseFastbuf_capped string h) fun _ _ _ => rfl

/-! ## Calls that fail -/

theorem Env.LaidOut.capped (h : env.LaidOut extent) : env.capped.LaidOut extent where
  number := by
    intro s ci hci type hcls
    obtain ⟨ci₀, hci₀, rfl⟩ := List.mem_map.mp hci
    have hcls₀ : ci₀.cls = .static type := (Env.cap_cls ci₀).symm.trans hcls
    rw [Env.cap_static hcls₀]
    split
    · exact h.number s ci₀ hci₀ type hcls₀
    · exact Int.ediv_nonneg (by decide) (Int.natCast_nonneg _)
  dynamic := by
    intro s ci hci type hcls
    obtain ⟨ci₀, hci₀, rfl⟩ := List.mem_map.mp hci
    rw [Env.cap_ptr]
    exact h.dynamic s ci₀ hci₀ type ((Env.cap_cls ci₀).symm.trans hcls)
  subsection := by
    intro s ci hci sec hcls
    obtain ⟨ci₀, hci₀, rfl⟩ := List.mem_map.mp hci
    rw [Env.cap_ptr]
    exact h.subsection s ci₀ hci₀ sec ((Env.cap_cls ci₀).symm.trans hcls)
  list := by
    intro s ci hci sec hcls
    obtain ⟨ci₀, hci₀, rfl⟩ := List.mem_map.mp hci
    rw [Env.cap_ptr]
    exact h.list s ci₀ hci₀ sec ((Env.cap_cls ci₀).symm.trans hcls)
  node := by
    intro s ci hci sec hcls
    obtain ⟨ci₀, hci₀, rfl⟩ := List.mem_map.mp hci
    exact h.node s ci₀ hci₀ sec ((Env.cap_cls ci₀).symm.trans hcls)

theorem Env.UserJournals.capped (h : env.UserJournals extent) : env.capped.UserJournals extent :=
  ⟨h.parser, h.commit, h.init, h.copy, h.utype⟩

/-- A call that returns an error has undone all its changes, if the assignments of its text fit into
the journal. -/
theorem failed_call_restores (env : Env) (extent : Nat → Nat) (align : Nat)
    (halloc : env.alloc.HandsOutFresh align) (hlaid : env.LaidOut extent)
    (huser : env.UserJournals extent) (w : World) (hinit : 0 < w.cc.sectionsInitialized)
    (hon : w.cc.enableJournal = true) :
    (∀ file w', (∀ text, env.files file = .contents text → TextFits env text w.opened) →
      cfLoad env file w = .ok (true, w') → Restored w w') ∧
      ∀ string w', TextFits env string w.begun → cfSet env string w = .ok (true, w') →
        Restored w w' := by
  have hrestores := fitting_call_restores env.capped extent align halloc hlaid.capped
    env.capped_fitsJournal huser.capped w hinit hon
  refine ⟨fun file w' hfits hrun => ?_, fun string w' hfits hrun => ?_⟩
  · exact hrestores.1 file w' ((cfLoad_capped file w hfits).trans hrun)
  · exact hrestores.2 string w' ((cfSet_capped string w hfits).trans hrun)

/-- `freshWorld` with its sections initialised. -/
def readyWorld : World := freshWorld.listReady

/-- The array is in use. -/
def hugeWorld : World :=
  { readyWorld with heap := { readyWorld.heap with blocks := [(0x1000, 2 ^ 32)] } }

theorem hugeEnv_setFits {item : CfItem} (hitem : Declares hugeEnv item) {number : Int}
    (hnumber : number ≤ 1) (fuel : Nat) (pars : List CStr) (ptr : Nat) (allowDynamic : Bool)
    (w : World) : SetFits hugeEnv fuel item number pars ptr allowDynamic w := by
  cases fuel with
  | zero => trivial
  | succ fuel =>
      obtain ⟨s, hs⟩ := hitem
      rcases List.mem_singleton.mp hs with rfl
      have hmin : min number 2 ≤ 1 := (min_le_left _ _).trans hnumber
      change (24 : Int) + min number 2 * ((2 ^ 31 : Nat) : Int) < 2 ^ 32
      omega

/-- A line fits if it sets no more than one of the values. -/
theorem hugeEnv_lineFits (l : Line) (hop : l.op = .set ∨ l.op = .close) (hpars : l.pars.length ≤ 1)
    (w : World) : LineFits hugeEnv w l := by
  have hnumber : (l.pars.length : Int) ≤ 1 := by exact_mod_cast hpars
  intro _
  rcases hop with hset | hclose
  · rw [hset, if_neg (by decide)]
    intro found w₁ w₂ hfind _
    have hitem := ((findItem_tame (Safe.empty hugeEnv hugeExtent w) _ _ _ _).returned
      (Ctx.start ∅ w) hfind).2 found rfl
    exact hugeEnv_setFits hitem hnumber _ _ _ _ _
  · rw [if_pos hclose]
    intro sec _ _ _ _ _ _ _ _ _
    exact ⟨hugeEnv_setFits ⟨sec, List.mem_cons_self⟩ hnumber _ _ _ _ _, fun _ _ _ _ => trivial⟩

/-- Whether a call returned an error. -/
def reportsError : Except CfFault (Bool × World) → Bool
  | .ok (failed, _) => failed
  | .error _ => false

theorem returned_of_reportsError {r : Except CfFault (Bool × World)} (h : reportsError r = true) :
    ∃ w, r = .ok (true, w) := by
  rcases r with fault | ⟨failed, w⟩
  · cases h
  · have hfailed : failed = true := h
    exact ⟨w, by rw [hfailed]⟩

/-- One of the values is set, and the next line is an error. -/
theorem failed_set_restores_huge :
    ∃ w', cfSet hugeEnv (bytesOf ['a', ' ', '1', '\n', '\x7d']) hugeWorld = .ok (true, w') ∧
      Restored hugeWorld w' := by
  obtain ⟨w', hrun⟩ := returned_of_reportsError (r := cfSet hugeEnv
    (bytesOf ['a', ' ', '1', '\n', '\x7d']) hugeWorld) (by decide +kernel)
  refine ⟨w', hrun, ?_⟩
  refine (failed_call_restores hugeEnv hugeExtent 8 (stride_handsOutFresh _ _ _) hugeEnv_laidOut
    hugeEnv_userJournals hugeWorld (by decide) rfl).2 _ w' (fun w₁ _ => ?_) hrun
  refine ⟨fun l hl => ?_, fun next w₂ hstep => ?_⟩
  · obtain rfl : l = ⟨bytesOf ['a'], .set, false, [bytesOf ['1']]⟩ := (Option.some.inj hl).symm
    exact hugeEnv_lineFits _ (Or.inl rfl) le_rfl w₁
  · obtain rfl : next = ⟨⟨bytesOf ['\x7d'], []⟩, []⟩ :=
      (interpretCommand_more hugeEnv (bytesOf ['a']) false [bytesOf ['1']]
        ⟨⟨bytesOf ['\x7d'], []⟩, []⟩).returned trivial hstep next rfl
    refine ⟨fun l hl => ?_, fun next w₃ hstep => ?_⟩
    · obtain rfl : l = ⟨bytesOf ['\x7d'], .close, false, []⟩ :=
        (Option.some.inj hl).symm
      refine hugeEnv_lineFits _ (Or.inr rfl) ?_ w₂
      exact Nat.zero_le 1
    · obtain rfl : next = ⟨⟨[], []⟩, []⟩ :=
        (interpretCommand_more hugeEnv (bytesOf ['\x7d']) false [] ⟨⟨[], []⟩, []⟩).returned trivial
          hstep next rfl
      refine ⟨fun l hl => ?_, fun next w₄ hdone => ?_⟩
      · cases hl
      · cases hdone

/-- The call returned an error, and the first byte of the array has changed. -/
def leavesStamp : Except CfFault (Bool × World) → Bool
  | .ok (failed, w) => failed && w.heap.mem 0x1000 != 0
  | .error _ => false

/-- Both values are set, and the next line is an error: nothing is restored. -/
theorem failed_set_keeps_huge :
    hugeEnv.LaidOut hugeExtent ∧ hugeEnv.UserJournals hugeExtent ∧
      ∃ w', cfSet hugeEnv (bytesOf ['a', ' ', '1', ' ', '1', '\n', '\x7d']) hugeWorld =
        .ok (true, w') ∧ ¬ Restored hugeWorld w' := by
  refine ⟨hugeEnv_laidOut, hugeEnv_userJournals, ?_⟩
  have hstamp : leavesStamp (cfSet hugeEnv (bytesOf ['a', ' ', '1', ' ', '1', '\n', '\x7d'])
      hugeWorld) = true := by decide +kernel
  generalize cfSet hugeEnv _ hugeWorld = r at hstamp ⊢
  rcases r with fault | ⟨failed, w'⟩
  · cases hstamp
  · obtain ⟨hfailed, hmem⟩ := Bool.and_eq_true_iff.mp hstamp
    refine ⟨w', by rw [hfailed], fun hrestored => ?_⟩
    have hsame := hrestored.mem 0x1000 ⟨(0x1000, 2 ^ 32), List.mem_cons_self, by decide, by decide⟩
    rw [hsame] at hmem
    exact absurd hmem (by decide)

end OpenAAA.Opt
