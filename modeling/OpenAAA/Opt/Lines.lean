import OpenAAA.Opt.Tame

/-!
Whole lines. A line may open a block, go on with its second phase or close it, so the
stack changes with it; the invariant of the stack is that a block in its first phase
works on a node of its own and has an operation that selects nodes. A line that keeps
it ends at an `assert(0)` only in two cases, which are stated here.
-/

namespace OpenAAA.Opt

open Memory Alloc UndoLog Hoare

/-- A command without its text: `cf_interpret_line`'s parameters. -/
structure Line where
  name : CStr
  op : CfOperation
  isOpen : Bool
  pars : List CStr

/-- A line on which the interpreter runs into an `assert(0)`: it opens a block that clears a list,
or it ends the selectors of a block that resets a list and they find a node. -/
def BadLine (env : Env) (w : World) (l : Line) : Prop :=
  (l.op = .clear ∧ l.isOpen = true ∧ l.pars = [] ∧ w.cc.below.length < maxStackSize - 1 ∧
    ∃ found sec w', findItem env w.cc.top.sec l.name w.cc.top.basePtr w =
        .ok ((none, some found), w') ∧
      found.item.cls = .list sec ∧ (w.cc.top.first = true → some found.sec ≠ w.cc.top.sec)) ∨
  (l.op = .close ∧ w.cc.top.first = true ∧ w.cc.top.op = .reset ∧
    ∃ sec node w', w.cc.top.sec = some sec ∧
      findListNode env w.cc.top.list w.cc.top.basePtr sec w.cc.top.mask w = .ok (some node, w'))

variable {L W : Set Nat} {w₀ w v : World} {env : Env} {extent : Nat → Nat}

/-- A frame in the first phase has a node of its own for a list of its section. -/
def FrameOk (L : Set Nat) (env : Env) (st : ItemStack) : Prop :=
  st.first = true → CfOperation.remove.code ≤ st.op.code ∧
    ∃ sec item, st.sec = some sec ∧ Declares env item ∧ item.cls = .list sec ∧
      Free L st.basePtr (env.sections sec).size

def StackOk (L : Set Nat) (env : Env) (st : StackOf) : Prop :=
  FrameOk L env st.1 ∧ ∀ f ∈ st.2, FrameOk L env f

/-- Between two lines. -/
def Ready (L : Set Nat) (w₀ : World) (env : Env) (w : World) : Prop :=
  ∃ st, Ctx L ∅ w₀ st w ∧ StackOk L env st

/-- After a line: with an error, nothing is said of the stack. -/
def Done (L : Set Nat) (w₀ : World) (env : Env) (msg : Msg) (w : World) : Prop :=
  Keeps L w₀ w ∧ (msg = none → Ready L w₀ env w)

/-- No `assert(0)` except under the condition `B`. -/
def Only (B : Prop) (e : CfFault) : Prop := e = .assertZero → B

theorem Calm.only {B : Prop} (e : CfFault) (h : Calm e) : Only B e := fun he => absurd he h.1

/-- A tame part of a line. -/
theorem Tame.only {α : Type} {B : Prop} {x : Cf α} {Q : α → Prop} (h : Tame L W w₀ x Q)
    (st : StackOf) : Triple (Only B) (Ctx L W w₀ st) x fun a w => Ctx L W w₀ st w ∧ Q a :=
  (h st).allow Calm.only

section Stack

variable {B : Prop} {st : StackOf} {top : ItemStack} {below : List ItemStack}

theorem Ctx.start (L : Set Nat) (v : World) : Ctx L ∅ v (v.cc.top, v.cc.below) v :=
  ⟨Keeps.refl L v, fun _ a ha => absurd ha (Set.notMem_empty a), rfl⟩

theorem Ctx.setStack (h : Ctx L W w₀ st w) (st' : StackOf) :
    Ctx L W w₀ st' { w with cc := { w.cc with top := st'.1, below := st'.2 } } where
  toKeeps := h.toKeeps.step [] ⟨rfl, rfl, rfl, rfl, rfl, rfl, rfl, rfl⟩ (fun _ hb => hb)
    (fun _ _ ho => Or.inl ho) rfl (fun _ hi => absurd hi List.not_mem_nil)
    (fun _ _ _ => Or.inl rfl)
  writable := h.writable
  stack := rfl

theorem setTop_triple (f : ItemStack → ItemStack) :
    Triple (Only B) (Ctx L W w₀ st) (setTop f) fun _ => Ctx L W w₀ (f st.1, st.2) := by
  intro w hw
  have htop : w.cc.top = st.1 := congrArg Prod.fst hw.stack
  have hbelow : w.cc.below = st.2 := congrArg Prod.snd hw.stack
  have hset := hw.setStack (f st.1, st.2)
  rw [← htop, ← hbelow] at hset
  rw [← htop, ← hbelow]
  exact hset

theorem pushStack_triple (frame : ItemStack) :
    Triple (Only B) (Ctx L W w₀ st) (pushStack frame) fun _ =>
      Ctx L W w₀ (frame, st.1 :: st.2) := by
  refine Triple.bind (Q := fun _ => Ctx L W w₀ st) (Triple.get.weaken fun _ _ hw => hw.1) fun _ => ?_
  refine Triple.ite (fun _ => Triple.throw nofun) fun _ => ?_
  intro w hw
  have htop : w.cc.top = st.1 := congrArg Prod.fst hw.stack
  have hbelow : w.cc.below = st.2 := congrArg Prod.snd hw.stack
  have hset := hw.setStack (frame, st.1 :: st.2)
  rw [← htop, ← hbelow] at hset
  rw [← htop, ← hbelow]
  exact hset

theorem popStack_triple (hbelow : ∀ f ∈ below, FrameOk L env f) :
    Triple (Only B) (Ctx L ∅ w₀ (top, below)) popStack fun _ => Ready L w₀ env := by
  refine Triple.get.bind fun v => Triple.at fun w hw => ?_
  obtain ⟨hctx, rfl⟩ := hw
  have hstack : v.cc.below = below := congrArg Prod.snd hctx.stack
  cases hrest : v.cc.below with
  | nil => exact Triple.throw nofun
  | cons frame below =>
      rintro w rfl
      rw [← hstack, hrest] at hbelow
      refine ⟨(frame, below), hctx.setStack _, ?_, fun f hf => ?_⟩
      · exact hbelow frame List.mem_cons_self
      · exact hbelow f (List.mem_cons_of_mem _ hf)

theorem Ctx.done {msg : Msg} (h : Ctx L ∅ w₀ st w) (hst : msg = none → StackOk L env st) :
    Done L w₀ env msg w :=
  ⟨h.toKeeps, fun hmsg => ⟨st, h, hst hmsg⟩⟩

theorem Ready.keeps (h : Ready L w₀ env w) : Keeps L w₀ w := by
  obtain ⟨_, hctx, _⟩ := h
  exact hctx.toKeeps

theorem Ready.done {msg : Msg} (h : Ready L w₀ env w) : Done L w₀ env msg w :=
  ⟨h.keeps, fun _ => h⟩

/-- A line that ends with a message. -/
theorem failed_triple (st : StackOf) (text : String) :
    Triple (Only B) (Ctx L ∅ w₀ st) (pure (some text)) (Done L w₀ env) :=
  Triple.pure fun _ hw => hw.done nofun

theorem closeBlock_triple (hbelow : ∀ f ∈ below, FrameOk L env f) (isOpen : Bool) (number : Int) :
    Triple (Only B) (Ctx L ∅ w₀ (top, below)) (closeBlock isOpen number) (Done L w₀ env) := by
  refine (popStack_triple hbelow).bind fun _ => ?_
  refine Triple.ite (fun _ => Triple.pure fun _ hw => hw.done) fun _ => ?_
  exact Triple.ite (fun _ => Triple.pure fun _ hw => hw.done) fun _ =>
    Triple.pure fun _ hw => hw.done

/-- The last change of a block. -/
theorem Tame.thenClose {x : Cf Unit} (hx : Tame L ∅ w₀ x Any)
    (hbelow : ∀ f ∈ below, FrameOk L env f) (isOpen : Bool) (number : Int) :
    Triple (Only B) (Ctx L ∅ w₀ (top, below)) (x >>= fun _ => closeBlock isOpen number)
      (Done L w₀ env) :=
  (hx.only _).bind fun _ => (closeBlock_triple hbelow isOpen number).strengthen fun _ hw => hw.1

end Stack

/-! ## Closing braces -/

section Close

variable {B : Prop} {st : StackOf} {item : CfItem} {sec : Nat}

theorem prepareNode_tame (hsafe : Safe env extent L w₀) (hitem : Declares env item)
    (hcls : item.cls = .list sec) {frame : ItemStack}
    (hfree : Free L frame.basePtr (env.sections sec).size)
    (hop : CfOperation.remove.code ≤ frame.op.code) (hremove : frame.op ≠ .remove)
    (hreset : frame.op ≠ .reset) (node : Nat) :
    Tame L W w₀ (prepareNode env frame sec node) fun r =>
      frame.op ≠ .edit → r.2 = frame.basePtr := by
  have hinit := (cfInitSection_tame (W := W) hsafe frame.item hfree.writes
    (extent_le_size hsafe hitem hcls)).bind fun _ _ =>
      Tame.pure (a := ((none : Msg), frame.basePtr)) (Q := fun r => r.2 = frame.basePtr) rfl
  unfold prepareNode
  cases hcode : frame.op with
  | edit => exact Tame.pure fun hne => absurd rfl hne
  | after => exact hinit.weaken fun _ hr _ => hr
  | before => exact hinit.weaken fun _ hr _ => hr
  | copy =>
      refine Tame.ite (fun _ => ?_) fun _ => ?_
      · exact (cfPrintf_tame hsafe _).bind fun _ _ => Tame.pure fun _ => rfl
      · refine (memcpy_tame hfree.writes).bind fun _ _ => ?_
        refine Tame.ite (fun _ => ?_) fun _ => Tame.pure fun _ => rfl
        refine (callUser_tame hsafe (fun hL => (hsafe.user hL).copy sec _ node) ?_).bind
          fun _ _ => Tame.pure fun _ => rfl
        exact hfree.writes
  | remove => exact absurd hcode hremove
  | reset => exact absurd hcode hreset
  | close => rw [hcode] at hop; exact absurd hop (by decide)
  | set => rw [hcode] at hop; exact absurd hop (by decide)
  | clear => rw [hcode] at hop; exact absurd hop (by decide)
  | all => rw [hcode] at hop; exact absurd hop (by decide)
  | append => rw [hcode] at hop; exact absurd hop (by decide)
  | prepend => rw [hcode] at hop; exact absurd hop (by decide)

/-- An operation of the first phase that goes on with a second one. -/
theorem onList_of_first {op : CfOperation} (hop : CfOperation.remove.code ≤ op.code)
    (hreset : op ≠ .reset) : op.OnList := by
  refine ⟨?_, ?_, ?_, hreset⟩
  · rintro rfl
    exact absurd hop (by decide)
  · rintro rfl
    exact absurd hop (by decide)
  · rintro rfl
    exact absurd hop (by decide)

theorem closeFirst_triple (hsafe : Safe env extent L w₀) (hitem : Declares env item)
    (hcls : item.cls = .list sec) (hfree : Free L st.1.basePtr (env.sections sec).size)
    (hop : CfOperation.remove.code ≤ st.1.op.code) (hbad : st.1.op = .reset → B)
    (hbelow : ∀ f ∈ st.2, FrameOk L env f) (node : Nat) (isOpen : Bool) {number : Int}
    (hnumber : 0 ≤ number) (pars : List CStr) :
    Triple (Only B) (Ctx L ∅ w₀ st) (closeFirst env st.1 sec node isOpen number pars)
      (Done L w₀ env) := by
  refine (setTop_triple _).bind fun _ => Triple.ite (fun hremove => ?_) fun hremove => ?_
  · have hlist : Tame L ∅ w₀ (addToList env node st.1.basePtr .remove) Any :=
      addToList_tame hsafe node ⟨nofun, nofun, nofun, nofun⟩ fun _ hne => absurd rfl hne
    exact hlist.thenClose hbelow isOpen number
  · by_cases hreset : st.1.op = .reset
    · refine Triple.bind (Q := fun _ _ => False) ?_ fun _ _ hw => hw.elim
      unfold prepareNode
      rw [hreset]
      exact Triple.throw fun _ => hbad hreset
    · refine ((prepareNode_tame hsafe hitem hcls hfree hop hremove hreset node).only _).bind
        fun result => ?_
      refine Triple.assume (fun hbase => ?_) fun _ hw => ⟨hw.2, hw.1⟩
      obtain ⟨msg, base⟩ := result
      dsimp only at hbase
      have hlist : Tame L ∅ w₀ (addToList env node base st.1.op) Any := by
        refine addToList_tame hsafe node (onList_of_first hop hreset) fun hedit _ => ?_
        rw [hbase hedit]
        exact Writes.links hsafe hitem hcls hfree.writes
      refine (setTop_triple _).bind fun _ => ?_
      cases msg with
      | some msg => exact failed_triple _ msg
      | none =>
          refine Triple.ite (fun _ => ?_) fun _ => ?_
          · refine (setTop_triple _).bind fun _ => (hlist.only _).bind fun _ => ?_
            exact Triple.pure fun _ hw => hw.1.done fun _ => ⟨nofun, hbelow⟩
          · refine ((interpretSection_tame hsafe sec hnumber pars base true).only _).bind
              fun result => Triple.strengthen ?_ fun _ hw => hw.1
            obtain ⟨msg, taken⟩ := result
            cases msg with
            | some msg => exact failed_triple _ msg
            | none =>
                exact hlist.thenClose hbelow isOpen _

/-- A closing brace, from one world. -/
theorem closingBrace_triple (hsafe : Safe env extent L w₀) (hst : StackOk L env st)
    (hv : Ctx L ∅ w₀ st v) (isOpen : Bool) {number : Int} (hnumber : 0 ≤ number) (pars : List CStr)
    (hbad : ∀ sec node w', v.cc.top.first = true → v.cc.top.op = .reset → v.cc.top.sec = some sec →
      findListNode env v.cc.top.list v.cc.top.basePtr sec v.cc.top.mask v = .ok (some node, w') →
      B) :
    Triple (Only B) (· = v) (closingBrace env isOpen number pars) (Done L w₀ env) := by
  refine Triple.bindAt (fun w w' hget => ?_) nofun
  cases hget
  have htop : v.cc.top = st.1 := congrArg Prod.fst hv.stack
  refine Triple.ite (fun _ => ?_) fun _ => ?_
  · exact (failed_triple st _).strengthen fun _ hw => hw ▸ hv
  · cases hsec : v.cc.top.sec with
    | none =>
        refine Triple.ite (fun _ => Triple.pure fun _ hw => ?_) fun _ => ?_
        · rw [hw]
          exact hv.done fun _ => hst
        · refine Triple.bind (Q := fun _ => Ready L w₀ env) ?_ fun _ =>
            Triple.pure fun _ hw => hw.done
          exact (popStack_triple hst.2).strengthen fun _ hw => hw ▸ hv
    | some sec =>
        refine Triple.ite (fun hfirst => ?_) fun _ => ?_
        · refine Triple.bindAt (fun result w' hfind => ?_) fun e hfind => ?_
          · have hw' := ((findListNode_tame _ _ _ _ st).returned hv hfind).1
            cases result with
            | none => exact (failed_triple st _).strengthen fun _ hw => hw ▸ hw'
            | some node =>
                obtain ⟨hop, sec', item, hsec', hitem, hcls, hfree⟩ := hst.1 (htop ▸ hfirst)
                have heq : sec' = sec := by
                  rw [htop, hsec'] at hsec
                  exact Option.some.inj hsec
                subst heq
                rw [htop] at hbad hfind hsec hfirst ⊢
                refine (closeFirst_triple hsafe hitem hcls hfree hop (fun hreset => ?_) hst.2 node
                  isOpen hnumber pars).strengthen fun _ hw => hw ▸ hw'
                exact hbad sec' node w' hfirst hreset hsec hfind
          · exact fun he => absurd he ((findListNode_tame _ _ _ _ st).stopped hv hfind).1
        · exact (closeBlock_triple hst.2 _ _).strengthen fun _ hw => hw ▸ hv

end Close

/-! ## Opening braces -/

section Open

variable {B : Prop} {st : StackOf}

theorem openSection_triple {top : ItemStack} {below : List ItemStack} (hfirst : top.first = false)
    (hbelow : ∀ f ∈ below, FrameOk L env f) (sec ptr : Nat) (op : CfOperation) :
    Triple (Only B) (Ctx L ∅ w₀ (top, below)) (openSection sec ptr op) (Done L w₀ env) := by
  refine (setTop_triple _).bind fun _ => Triple.ite (fun _ => failed_triple _ _) fun _ => ?_
  refine (setTop_triple _).bind fun _ => Triple.pure fun _ hw => hw.done fun _ => ⟨?_, hbelow⟩
  intro htrue
  rw [hfirst] at htrue
  cases htrue

theorem openList_triple (hsafe : Safe env extent L w₀) {item : CfItem} {sec : Nat}
    (hitem : Declares env item) (hcls : item.cls = .list sec) (top : ItemStack)
    {below : List ItemStack} (hfirst : top.first = false) (hop : top.op ≠ .close)
    (hbelow : ∀ f ∈ below, FrameOk L env f) (ptr : Nat) (hbad : top.op = .clear → B) :
    Triple (Only B) (Ctx L ∅ w₀ (top, below)) (openList env item sec ptr top.op)
      (Done L w₀ env) := by
  refine ((nodeAlloc_tame hsafe hitem hcls).only _).bind fun node => ?_
  refine Triple.assume (fun hnode => ?_) fun _ hw => ⟨hw.2, hw.1⟩
  refine Triple.bind ((cfInitSection_tame hsafe item.name hnode.writes
    (extent_le_size hsafe hitem hcls)).only _) fun _ => Triple.strengthen ?_ fun _ hw => hw.1
  refine (setTop_triple _).bind fun _ => Triple.ite (fun _ => failed_triple _ _) fun hall => ?_
  refine Triple.ite (fun hcode => ?_) fun hcode => ?_
  · by_cases hclear : top.op = .clear
    · refine Triple.bind (Q := fun _ _ => False) ?_ fun _ _ hw => hw.elim
      rw [hclear]
      exact Triple.throw fun _ => hbad hclear
    · have honList : top.op.OnList := by
        refine ⟨hop, hclear, hall, fun hreset => ?_⟩
        rw [hreset] at hcode
        exact absurd hcode (by decide)
      refine Triple.bind ((addToList_tame hsafe ptr honList fun _ _ =>
        Writes.links hsafe hitem hcls hnode.writes).only _) fun _ => Triple.strengthen ?_
          fun _ hw => hw.1
      refine (setTop_triple _).bind fun _ => Triple.pure fun _ hw => hw.done fun _ => ⟨?_, hbelow⟩
      intro htrue
      rw [hfirst] at htrue
      cases htrue
  · refine (setTop_triple _).bind fun _ => Triple.pure fun _ hw => hw.done fun _ => ⟨?_, hbelow⟩
    exact fun _ => ⟨not_lt.mp hcode, sec, item, rfl, hitem, hcls, hnode⟩

theorem openingBrace_triple (hsafe : Safe env extent L w₀) (hst : StackOk L env st)
    {found : Option Found} (hfound : ∀ f, found = some f → Declares env f.item) {op : CfOperation}
    (hop : op ≠ .close)
    (hbad : ∀ f sec, found = some f → f.item.cls = .list sec → op = .clear →
      st.2.length < maxStackSize - 1 → B) :
    Triple (Only B) (Ctx L ∅ w₀ st) (openingBrace env found op) (Done L w₀ env) := by
  refine Triple.get.bind fun w => ?_
  refine Triple.assume (φ := w.cc.below = st.2) (P := Ctx L ∅ w₀ st) (fun hbelow => ?_)
    fun v hv => ⟨?_, hv.1⟩
  · refine Triple.ite (fun _ => failed_triple _ _) fun hroom => ?_
    rw [hbelow] at hroom
    have hframes : ∀ f ∈ st.1 :: st.2, FrameOk L env f := by
      intro f hf
      rcases List.mem_cons.mp hf with rfl | hf
      · exact hst.1
      · exact hst.2 f hf
    refine (pushStack_triple _).bind fun _ => ?_
    cases found with
    | none => exact Triple.pure fun _ hw => hw.done fun _ => ⟨nofun, hframes⟩
    | some found =>
        have hitem := hfound found rfl
        dsimp only
        cases hcls : found.item.cls with
        | «section» sec => exact openSection_triple rfl hframes _ _ _
        | list sec =>
            exact openList_triple hsafe hitem hcls ⟨none, 0, op, false, false, 0, 0, []⟩
              rfl hop hframes _ fun hclear => hbad found sec rfl hcls hclear (not_le.mp hroom)
        | static type => exact failed_triple _ _
        | dynamic type => exact failed_triple _ _
        | parser par => exact failed_triple _ _
        | bitmap type => exact failed_triple _ _
  · rw [hv.2]
    exact congrArg Prod.snd hv.1.stack

/-- A selector changes the mask of its block only, and a list of the node is none. -/
theorem recordSelector_triple (found : Option Found) (sec : Option Nat) :
    Triple (Only B) (Ctx L ∅ w₀ st) (recordSelector found sec) fun msg w =>
      (∃ mask, Ctx L ∅ w₀ ({ st.1 with mask := mask }, st.2) w) ∧
        (msg = none → ∀ f sub, found = some f → f.item.cls = .list sub → some f.sec ≠ sec) := by
  unfold recordSelector
  cases found with
  | none => exact Triple.pure fun _ hw => ⟨⟨st.1.mask, hw⟩, nofun⟩
  | some found =>
      refine Triple.ite (fun _ => ?_) fun hsec => ?_
      · refine Triple.ite (fun _ => Triple.pure fun _ hw => ⟨⟨st.1.mask, hw⟩, nofun⟩) fun _ => ?_
        split
        · next type hcls =>
            refine (setTop_triple _).bind fun _ => Triple.pure fun _ hw => ⟨⟨_, hw⟩, ?_⟩
            intro _ f sub hf hlist
            rw [← Option.some.inj hf, hcls] at hlist
            cases hlist
        · exact Triple.pure fun _ hw => ⟨⟨st.1.mask, hw⟩, nofun⟩
      · refine Triple.pure fun _ hw => ⟨⟨st.1.mask, hw⟩, ?_⟩
        intro _ f sub hf _
        rw [← Option.some.inj hf]
        exact hsec

/-- A block in its first phase does not open lists of its own node. -/
theorem trySelector_triple (st : StackOf) (found : Option Found) :
    Triple (Only B) (Ctx L ∅ w₀ st) (trySelector st.1 found) fun msg w =>
      (∃ mask, Ctx L ∅ w₀ ({ st.1 with mask := mask }, st.2) w) ∧
        (msg = none → st.1.first = true → ∀ f sub, found = some f → f.item.cls = .list sub →
          some f.sec ≠ st.1.sec) := by
  refine Triple.ite (fun _ => ?_) fun hsecond => ?_
  · exact (recordSelector_triple found st.1.sec).weaken fun msg _ hw =>
      ⟨hw.1, fun hmsg _ => hw.2 hmsg⟩
  · refine Triple.pure fun _ hw => ⟨⟨st.1.mask, hw⟩, ?_⟩
    exact fun _ hfirst => absurd hfirst hsecond

theorem interpretFound_triple (hsafe : Safe env extent L w₀) (hst : StackOk L env st) (name : CStr)
    {op : CfOperation} (hop : op ≠ .close) (isOpen : Bool) {number : Int} (hnumber : 0 ≤ number)
    (pars : List CStr) {found : Option Found} (hfound : ∀ f, found = some f → Declares env f.item)
    (hbad : ∀ f sec, found = some f → f.item.cls = .list sec → op = .clear → isOpen = true →
      number = 0 → st.2.length < maxStackSize - 1 → B) :
    Triple (Only B) (Ctx L ∅ w₀ st) (interpretFound env name op isOpen number pars found)
      (Done L w₀ env) := by
  refine Triple.ite (fun hopen => ?_) fun _ => ?_
  · refine Triple.ite (fun _ => failed_triple _ _) fun hzero => ?_
    refine openingBrace_triple hsafe hst hfound hop fun f sec hf hcls hclear => ?_
    exact hbad f sec hf hcls hclear hopen (not_not.mp hzero)
  · cases found with
    | none => exact Triple.pure fun _ hw => hw.done fun _ => hst
    | some found =>
        refine Triple.bind ((interpretOperation_tame hsafe name hop (hfound found rfl) hnumber
          pars).only _) fun result => Triple.strengthen ?_ fun _ hw => hw.1
        obtain ⟨msg, taken⟩ := result
        cases msg with
        | some msg => exact failed_triple _ msg
        | none =>
            refine Triple.ite (fun _ => ?_) fun _ => Triple.pure fun _ hw => hw.done fun _ => hst
            exact ((cfPrintf_tame hsafe _).only _).weaken fun _ _ hw => hw.1.done fun _ => hst

end Open

/-! ## Lines -/

/-- Every line keeps the stack and what is protected, and only the lines that are said to be bad
end at an `assert(0)`. -/
theorem cfInterpretLine_triple (hsafe : Safe env extent L w₀) (hv : Ready L w₀ env v) (l : Line) :
    Triple (Only (BadLine env v l)) (· = v) (cfInterpretLine env l.name l.op l.isOpen l.pars)
      (Done L w₀ env) := by
  obtain ⟨st, hctx, hst⟩ := hv
  obtain rfl := hctx.stack
  have hnumber : (0 : Int) ≤ l.pars.length := Int.natCast_nonneg _
  refine Triple.ite (fun hclose => ?_) fun hclose => ?_
  · refine closingBrace_triple hsafe hst hctx _ hnumber _ fun sec node w' hfirst hreset hsec hfind => ?_
    exact Or.inr ⟨hclose, hfirst, hreset, sec, node, w', hsec, hfind⟩
  · refine Triple.bindAt (fun w w' hget => ?_) nofun
    cases hget
    have hitem := findItem_tame (W := ∅) hsafe v.cc.top.sec l.name v.cc.top.basePtr
    refine Triple.bindAt (fun result w' hfind => ?_) fun e hfind =>
      fun he => absurd he ((hitem _).stopped hctx hfind).1
    obtain ⟨hctx', hfound⟩ := (hitem _).returned hctx hfind
    obtain ⟨msg, found⟩ := result
    dsimp only at hfound
    refine Triple.strengthen (P := Ctx L ∅ w₀ (v.cc.top, v.cc.below)) ?_ fun _ hw => hw ▸ hctx'
    cases msg with
    | some msg => exact failed_triple _ msg
    | none =>
        refine (trySelector_triple (v.cc.top, v.cc.below) found).bind fun msg =>
          Triple.assume (fun hselect => ?_) fun _ hw => ⟨hw.2, hw.1⟩
        cases msg with
        | some msg =>
            intro w hw
            obtain ⟨mask, hmask⟩ := hw
            exact hmask.done nofun
        | none =>
            intro w hw
            obtain ⟨mask, hmask⟩ := hw
            have hst' : StackOk L env ({ v.cc.top with mask := mask }, v.cc.below) := ⟨hst.1, hst.2⟩
            refine interpretFound_triple hsafe hst' l.name hclose l.isOpen hnumber l.pars
              hfound ?_ w hmask
            intro f sec hf hcls hclear hopen hzero hroom
            have hpars : l.pars = [] := List.length_eq_zero_iff.mp (by omega)
            rw [hf] at hfind
            refine Or.inl ⟨hclear, hopen, hpars, hroom, f, sec, w', hfind, hcls, ?_⟩
            exact fun hfirst => hselect rfl hfirst f sec hf hcls

end OpenAAA.Opt
