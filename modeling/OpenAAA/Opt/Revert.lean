import OpenAAA.Opt.Pools

/-!
What the journal is for. A call that fails gives back every byte that was in use before
it, and after any history of calls `cf_revert` gives back the values from before the
first. Both rest on one relation between journal and memory: undoing the journal on the
current memory gives the memory that the journal was started from.
-/

namespace OpenAAA.Opt

open Memory Alloc UndoLog Hoare

variable {L : Set Nat} {k : Nat} {v w u : World} {env : Env} {extent : Nat → Nat}

/-- What is undone at protected addresses does not change inside a transaction. -/
theorem Within.undo_eq (h : Within L k v w) (hon : v.cc.enableJournal = true) {a : Nat}
    (ha : a ∈ L) : undo w.cc.journal w.heap.mem a = undo v.cc.journal v.heap.mem a := by
  obtain ⟨items, hitems⟩ := h.journalled
  rw [hitems.journal, undo_append]
  exact undo_congr (hitems.undone hon a ha)

theorem World.swapped_mem (w : World) : w.swapped.heap.mem = undo w.cc.journal w.heap.mem :=
  exchange_mem

/-- Two exchanges in a row. -/
theorem World.swapped_swapped (w : World) : w.swapped.swapped = w := by
  have htwice := exchange_exchange w.heap.mem w.cc.journal
  have hmem := congrArg Prod.fst htwice
  have hjournal := congrArg Prod.snd htwice
  dsimp only at hmem hjournal
  change { w with
    heap := { w.heap with mem := (exchange (exchange w.heap.mem w.cc.journal []).1
      (exchange w.heap.mem w.cc.journal []).2 []).1 }
    cc := { w.cc with journal := (exchange (exchange w.heap.mem w.cc.journal []).1
      (exchange w.heap.mem w.cc.journal []).2 []).2 } } = w
  rw [hmem, hjournal]

theorem World.rolledBack_mem (hon : u.cc.enableJournal = true) (newPool : Bool)
    (oldj : List JournalItem) :
    (u.rolledBack newPool oldj).heap.mem = undo u.cc.journal u.heap.mem := by
  unfold World.rolledBack
  rw [if_pos hon]
  cases newPool with
  | false => exact u.swapped_mem
  | true => exact u.swapped_mem

theorem World.rolledBack_journal (hon : u.cc.enableJournal = true) (newPool : Bool)
    (oldj : List JournalItem) : (u.rolledBack newPool oldj).cc.journal = oldj := by
  unfold World.rolledBack
  rw [if_pos hon]
  cases newPool with
  | false => rfl
  | true => rfl

/-! ## Calls that fail -/

/-- The layout of the declarations: what `CF_*` macros and compilers see to. -/
structure Env.LaidOut (env : Env) (extent : Nat → Nat) : Prop where
  number : ∀ s, ∀ ci ∈ (env.sections s).cfg, ∀ type, ci.cls = .static type → 0 ≤ ci.number
  dynamic : ∀ s, ∀ ci ∈ (env.sections s).cfg, ∀ type, ci.cls = .dynamic type →
    ci.ptr + 8 ≤ extent s
  subsection : ∀ s, ∀ ci ∈ (env.sections s).cfg, ∀ sec, ci.cls = .section sec →
    ci.ptr + extent sec ≤ extent s
  list : ∀ s, ∀ ci ∈ (env.sections s).cfg, ∀ sec, ci.cls = .list sec → ci.ptr + 16 ≤ extent s
  node : ∀ s, ∀ ci ∈ (env.sections s).cfg, ∀ sec, ci.cls = .list sec →
    16 ≤ (env.sections sec).size ∧ extent sec ≤ (env.sections sec).size ∧
      (env.sections sec).size < 2 ^ 32

/-- Every static item fits into an item of the journal, whose size is an unsigned integer. -/
def Env.FitsJournal (env : Env) : Prop :=
  ∀ s, ∀ ci ∈ (env.sections s).cfg, ∀ type, ci.cls = .static type →
    journalItemSize + ci.number * cfTypeSize env type < 2 ^ 32

theorem Env.LaidOut.declared (h : env.LaidOut extent) (hfits : env.FitsJournal) :
    env.Declared extent where
  static := fun s ci hci type hcls => ⟨h.number s ci hci type hcls, hfits s ci hci type hcls⟩
  dynamic := h.dynamic
  subsection := h.subsection
  list := h.list
  node := h.node

/-- Every byte in use has its value from before, and the journal is the same. -/
structure Restored (w w' : World) : Prop where
  mem : ∀ a, w.Live a → w'.heap.mem a = w.heap.mem a
  journal : w'.cc.journal = w.cc.journal

/-- A call that returns an error has undone all its changes, if every static item fits. -/
theorem fitting_call_restores (env : Env) (extent : Nat → Nat) (align : Nat)
    (halloc : env.alloc.HandsOutFresh align) (hlaid : env.LaidOut extent) (hfits : env.FitsJournal)
    (huser : env.UserJournals extent) (w : World) (hinit : 0 < w.cc.sectionsInitialized)
    (hon : w.cc.enableJournal = true) :
    (∀ file w', cfLoad env file w = .ok (true, w') → Restored w w') ∧
      ∀ string w', cfSet env string w = .ok (true, w') → Restored w w' := by
  have hsafe : Safe env extent { a | w.Live a } w :=
    ⟨fun _ => ⟨align, halloc⟩, fun _ => hlaid.declared hfits, fun _ => huser, fun _ ha => ha⟩
  have hback : ∀ u start, Within { a | w.Live a } 1 start u → start.cc.journal = [] →
      start.cc.enableJournal = true → start.heap.mem = w.heap.mem → ∀ newPool,
      Restored w (u.rolledBack newPool w.cc.journal) := by
    intro u start hu hjournal hstart hmem newPool
    have honu := hu.enableJournal.trans hstart
    refine ⟨fun a ha => ?_, World.rolledBack_journal honu newPool _⟩
    rw [World.rolledBack_mem honu, hu.undo_eq hstart ha, hjournal, hmem]
    rfl
  refine ⟨fun file w' hrun => ?_, fun string w' hrun => ?_⟩
  · obtain ⟨u, hu, hend⟩ := (cfLoad_triple hsafe (fun _ => hinit) file).returned rfl hrun
    rw [hend.2]
    exact hback u w.opened hu rfl hon rfl true
  · obtain ⟨u, hu, hend⟩ := (cfSet_triple hsafe (fun _ => hinit) string).returned rfl hrun
    rw [hend.2]
    exact hback u w.begun hu rfl hon rfl false

theorem idle_journals (W : Set Nat) : Journals W idle := by
  intro w r hr _ a _ _
  cases hr
  unfold journalled
  split
  · rfl
  · rfl

/-- The extents of the sections of `listEnv`. -/
def listExtent : Nat → Nat
  | 0 => 0x1014
  | _ => 16

theorem mem_listSections {s : Nat} {ci : CfItem} (h : ci ∈ (listEnv.sections s).cfg) :
    s = 0 ∧ (ci = ⟨bytesOf ['l'], 1, 0x1000, .list 1⟩ ∨
      ci = ⟨bytesOf ['x'], 1, 0x1010, .static .int⟩) := by
  cases s with
  | zero => exact ⟨rfl, List.mem_pair.mp h⟩
  | succ s => cases h

theorem listEnv_laidOut : listEnv.LaidOut listExtent where
  number := by
    intro s ci hci type hcls
    obtain ⟨rfl, rfl | rfl⟩ := mem_listSections hci
    · cases hcls
    · decide
  dynamic := by
    intro s ci hci type hcls
    obtain ⟨rfl, rfl | rfl⟩ := mem_listSections hci
    · cases hcls
    · cases hcls
  subsection := by
    intro s ci hci sec hcls
    obtain ⟨rfl, rfl | rfl⟩ := mem_listSections hci
    · cases hcls
    · cases hcls
  list := by
    intro s ci hci sec hcls
    obtain ⟨rfl, rfl | rfl⟩ := mem_listSections hci
    · decide
    · cases hcls
  node := by
    intro s ci hci sec hcls
    obtain ⟨rfl, rfl | rfl⟩ := mem_listSections hci
    · cases hcls
      decide
    · cases hcls

theorem listEnv_fitsJournal : listEnv.FitsJournal := by
  intro s ci hci type hcls
  obtain ⟨rfl, rfl | rfl⟩ := mem_listSections hci
  · cases hcls
  · cases hcls
    decide

theorem listEnv_userJournals : listEnv.UserJournals listExtent :=
  ⟨fun _ _ _ => idle_journals _, fun _ _ => idle_journals _, fun _ _ => idle_journals _,
    fun _ _ _ => idle_journals _, fun _ _ _ => idle_journals _⟩

/-- The list of `listEnv` after its initialisation: empty. -/
def World.listReady (w : World) : World :=
  { w.initialized 1 with heap := { w.heap with
    mem := store (store w.heap.mem 0x1008 8 0x1000) 0x1000 8 0x1000 } }

/-- A parser that stores one byte. -/
def stamp (ptr : Nat) : UserCode := fun w => some ⟨none, write w.heap.mem ptr [1], [], [], []⟩

theorem stamp_journals {ptr n : Nat} (hn : 0 < n) : Journals (range ptr n) (stamp ptr) := by
  intro w r hr _ a _ ha
  cases hr
  have hnone : journalled w.cc [] = [] := by
    unfold journalled
    split
    · rfl
    · rfl
  rw [hnone]
  refine write_changesOnly w.heap.mem ptr [1] a ?_
  by_contra hin
  refine ha ⟨by omega, ?_⟩
  have hlength : ([1] : List Byte).length = 1 := rfl
  omega

/-- An array `a` of two values of a type of `2 ^ 31` bytes. -/
def hugeEnv : Env :=
  { plainEnv (fun _ => ⟨0, false, false, false,
      [⟨bytesOf ['a'], 2, 0x1000, .static (.user 0)⟩], false, true, false⟩) fun _ =>
      .contents (bytesOf ['a', ' ', '1', ' ', '1']) with
    alloc := stride 8 (2 ^ 40) 0x1000
    utypeSize := fun _ => 2 ^ 31
    utypeParser := fun _ _ ptr => stamp ptr }

def hugeExtent : Nat → Nat := fun _ => 0x1000 + 2 ^ 32

theorem hugeEnv_laidOut : hugeEnv.LaidOut hugeExtent where
  number := by
    intro s ci hci type hcls
    rcases List.mem_singleton.mp hci with rfl
    decide
  dynamic := by
    intro s ci hci type hcls
    rcases List.mem_singleton.mp hci with rfl
    cases hcls
  subsection := by
    intro s ci hci sec hcls
    rcases List.mem_singleton.mp hci with rfl
    cases hcls
  list := by
    intro s ci hci sec hcls
    rcases List.mem_singleton.mp hci with rfl
    cases hcls
  node := by
    intro s ci hci sec hcls
    rcases List.mem_singleton.mp hci with rfl
    cases hcls

theorem hugeEnv_userJournals : hugeEnv.UserJournals hugeExtent :=
  ⟨fun _ _ _ => idle_journals _, fun _ _ => idle_journals _, fun _ _ => idle_journals _,
    fun _ _ _ => idle_journals _, fun _ _ _ => stamp_journals (Nat.two_pow_pos 31)⟩

/-! ## Histories -/

/-- The number of texts that a call reads. -/
def Call.texts (w : World) : Call → Nat
  | .load _ => 1
  | .set _ => 1
  | .reload file => sourceCount file w.cc.confEntries
  | .revert => 0

/-- Undoing the journal gives the first memory back on the protected addresses. -/
structure Reverts (L : Set Nat) (m₀ : Mem) (w : World) : Prop where
  pools : PoolsOk w
  enabled : w.cc.enableJournal = true
  unpooled : Unpooled L w
  undone : ∀ a ∈ L, undo w.cc.journal w.heap.mem a = m₀ a

/-- What protects addresses in every world of a history. -/
structure Guards (env : Env) (extent : Nat → Nat) : Prop where
  alloc : ∃ align, env.alloc.HandsOutFresh align
  laidOut : env.LaidOut extent
  fits : env.FitsJournal
  user : env.UserJournals extent

theorem Guards.safe (h : Guards env extent) (hpools : Unpooled L w) : Safe env extent L w :=
  ⟨fun _ => h.alloc, fun _ => h.laidOut.declared h.fits, fun _ => h.user, hpools.1⟩

theorem Guards.withFiles (h : Guards env extent) (files : CStr → FileResult) :
    Guards (env.withFiles files) extent :=
  ⟨h.alloc, ⟨h.laidOut.number, h.laidOut.dynamic, h.laidOut.subsection, h.laidOut.list,
    h.laidOut.node⟩, h.fits, ⟨h.user.parser, h.user.commit, h.user.init, h.user.copy,
    h.user.utype⟩⟩

variable {m₀ : Mem}

/-- A transaction that is taken back. -/
theorem Reverts.rolledBack (h : Reverts L m₀ v) {start : World} {newPool : Bool}
    (hu : Within L k start u) (hjournal : start.cc.journal = [])
    (hstart : start.cc.enableJournal = true) (hmem : start.heap.mem = v.heap.mem)
    (hstartPools : Unpooled L start) (hpools : PoolsOk (u.rolledBack newPool v.cc.journal)) :
    Reverts L m₀ (u.rolledBack newPool v.cc.journal) := by
  have honu := hu.enableJournal.trans hstart
  refine ⟨hpools, ?_, ?_, fun a ha => ?_⟩
  · unfold World.rolledBack
    rw [if_pos honu]
    cases newPool with
    | false => exact honu
    | true => exact honu
  · have hunpooled := hstartPools.within hu
    unfold World.rolledBack
    rw [if_pos honu]
    cases newPool with
    | false => exact hunpooled
    | true => exact hunpooled.without _
  · rw [World.rolledBack_journal honu, ← h.undone a ha]
    refine undo_congr ?_
    rw [World.rolledBack_mem honu, hu.undo_eq hstart ha, hjournal, hmem]
    rfl

/-- A transaction that is put before the older ones. -/
theorem Reverts.undone_joined (h : Reverts L m₀ v) {start : World} (hu : Within L k start u)
    (hjournal : start.cc.journal = []) (hstart : start.cc.enableJournal = true)
    (hmem : start.heap.mem = v.heap.mem) {a : Nat} (ha : a ∈ L) :
    undo (u.cc.journal ++ v.cc.journal) u.heap.mem a = m₀ a := by
  rw [undo_append, ← h.undone a ha]
  refine undo_congr ?_
  rw [hu.undo_eq hstart ha, hjournal, hmem]
  rfl

/-- A transaction that succeeds: its journal is put before the older one, in the world `x`. -/
theorem Reverts.committed (h : Reverts L m₀ v) {start x : World} {l : Nat}
    (hu : Within L k start u) (hjournal : start.cc.journal = [])
    (hstart : start.cc.enableJournal = true) (hmem : start.heap.mem = v.heap.mem)
    (hstartPools : Unpooled L start) (hend : Within L l x w) (hpools : PoolsOk w)
    (hx : x.cc.journal = u.cc.journal ++ v.cc.journal)
    (hon : x.cc.enableJournal = u.cc.enableJournal) (hheap : x.heap = u.heap)
    (howned : x.owned = u.owned) : Reverts L m₀ w := by
  have honx := hon.trans (hu.enableJournal.trans hstart)
  have hlater := hstartPools.within hu
  have hjoined : Unpooled L x := by
    unfold Unpooled World.Live
    rw [hheap, howned]
    exact hlater
  refine ⟨hpools, hend.enableJournal.trans honx, hjoined.within hend, fun a ha => ?_⟩
  rw [hend.undo_eq honx ha, hx, hheap]
  exact h.undone_joined hu hjournal hstart hmem ha

theorem cfLoad_reverts (henv : Guards env extent) (h : Reverts L m₀ v) (hinit : Initialised L v)
    (file : CStr) :
    Triple (fun _ => True) (· = v) (cfLoad env file) fun _ => Reverts L m₀ := by
  have hboth := (cfLoad_triple (henv.safe h.unpooled) hinit file).both
    (cfLoad_poolsOk env h.pools file)
  refine (hboth.strengthen fun _ hw => ⟨hw, hw⟩).weaken fun failed w hw => ?_
  obtain ⟨⟨u, hu, hend⟩, hpools⟩ := hw
  have hunpooled : Unpooled L v.opened := ⟨h.unpooled.1, h.unpooled.2⟩
  cases failed with
  | true =>
      obtain ⟨_, rfl⟩ := hend
      exact h.rolledBack hu rfl h.enabled rfl hunpooled hpools
  | false =>
      have hafter : Within L 0 (u.recorded.joined v.cc.journal) w := hend
      exact h.committed hu rfl h.enabled rfl hunpooled hafter hpools rfl rfl rfl rfl

theorem cfSet_reverts (henv : Guards env extent) (h : Reverts L m₀ v) (hinit : Initialised L v)
    (string : CStr) :
    Triple (fun _ => True) (· = v) (cfSet env string) fun _ => Reverts L m₀ := by
  have hboth := (cfSet_triple (henv.safe h.unpooled) hinit string).both
    (cfSet_poolsOk env h.pools string)
  refine (hboth.strengthen fun _ hw => ⟨hw, hw⟩).weaken fun failed w hw => ?_
  obtain ⟨⟨u, hu, hend⟩, hpools⟩ := hw
  have hunpooled : Unpooled L v.begun := ⟨h.unpooled.1, h.unpooled.2⟩
  cases failed with
  | true =>
      obtain ⟨_, rfl⟩ := hend
      exact h.rolledBack hu rfl h.enabled rfl hunpooled hpools
  | false =>
      have hafter : Within L 0 (u.joined v.cc.journal) w := hend
      exact h.committed hu rfl h.enabled rfl hunpooled hafter hpools rfl rfl rfl rfl

@[simp]
theorem World.withoutAll_mem (w : World) (pools : List OldPool) :
    (w.withoutAll pools).heap.mem = w.heap.mem := by
  induction pools generalizing w with
  | nil => rfl
  | cons p pools ih => exact ih (w.without p.pool)

/-- A reload starts from the first memory. -/
theorem Reverts.undone_reopened (h : Reverts L m₀ v) (hu : Within L k v.reopened u) {a : Nat}
    (ha : a ∈ L) : undo u.cc.journal u.heap.mem a = m₀ a := by
  rw [hu.undo_eq h.enabled ha, ← h.undone a ha]
  exact congrFun v.swapped_mem a

theorem cfReload_reverts (henv : Guards env extent) (h : Reverts L m₀ v) (file : Option CStr)
    (hinit : InitialisedFor L (sourceCount file v.cc.confEntries) v) :
    Triple (fun _ => True) (· = v) (cfReload env file) fun _ => Reverts L m₀ := by
  have hboth := (cfReload_triple (henv.safe h.unpooled) h.unpooled file hinit).both
    (cfReload_poolsOk env h.pools file)
  refine (hboth.strengthen fun _ hw => ⟨hw, hw⟩).weaken fun failed w hw => ?_
  obtain ⟨⟨_, u, hu, hend⟩, hpools⟩ := hw
  have hunpooled : Unpooled L u :=
    Unpooled.within (v := v.reopened) ⟨h.unpooled.1, h.unpooled.2⟩ hu
  have honu : u.cc.enableJournal = true := hu.enableJournal.trans h.enabled
  cases failed with
  | true =>
      rw [if_pos rfl] at hend
      subst hend
      have hback : (u.rolledBack true v.swapped.cc.journal).cc.enableJournal = true ∧
          Unpooled L (u.rolledBack true v.swapped.cc.journal) := by
        unfold World.rolledBack
        rw [if_pos honu]
        exact ⟨honu, hunpooled.without _⟩
      refine ⟨hpools, hback.1, hback.2, fun a ha => ?_⟩
      -- the second exchange is undone by a third
      rw [← h.undone_reopened hu ha, ← World.rolledBack_mem honu true v.swapped.cc.journal]
      have htwice := (u.rolledBack true v.swapped.cc.journal).swapped_swapped
      have hmem := congrArg (fun w => w.heap.mem a) htwice
      rw [World.swapped_mem] at hmem
      exact hmem
  | false =>
      obtain ⟨u', hu', rfl⟩ := hend
      have honu' : u'.cc.enableJournal = true := hu'.enableJournal.trans honu
      have hempty : Unpooled L u.emptied := hunpooled.withoutAll _
      have hlater := hempty.within hu'
      refine ⟨hpools, honu', hlater, fun a ha => ?_⟩
      have hundo := hu'.undo_eq honu ha
      change undo (u'.cc.journal ++ []) u'.heap.mem a = m₀ a
      rw [List.append_nil, hundo, ← h.undone_reopened hu ha]
      change undo u.cc.journal (u.withoutAll _).heap.mem a = _
      rw [World.withoutAll_mem]

/-- A call of a history: not `cf_revert`, and no text is read while the counter of texts says that
the sections are not initialised. -/
def Counts (r : Except CfFault World) (e : Event) : Prop :=
  ∀ w, r = .ok w → 0 < w.cc.sectionsInitialized ∧
    w.cc.sectionsInitialized + e.call.texts w ≤ 2 ^ 32

theorem callStep_reverts (henv : Guards env extent) (h : Reverts L m₀ v) {e : Event}
    (hrevert : e.call ≠ .revert)
    (hcount : 0 < v.cc.sectionsInitialized ∧
      v.cc.sectionsInitialized + e.call.texts v ≤ 2 ^ 32)
    (hstep : callStep env (.ok v) e = .ok w) : Reverts L m₀ w := by
  obtain ⟨result, hrun⟩ := callStep_ok hstep
  obtain ⟨call, files⟩ := e
  have henv' := henv.withFiles files
  cases call with
  | load file => exact (cfLoad_reverts henv' h (fun _ => hcount.1) file).returned rfl hrun
  | set string => exact (cfSet_reverts henv' h (fun _ => hcount.1) string).returned rfl hrun
  | reload file => exact (cfReload_reverts henv' h file fun _ => hcount).returned rfl hrun
  | revert => exact absurd rfl hrevert

theorem history_reverts (henv : Guards env extent) {events : List Event}
    {r : Except CfFault World} (hr : Returned (Reverts L m₀) r)
    (hrevert : ∀ e ∈ events, e.call ≠ .revert)
    (hcount : Runs.EachStep (callStep env) Counts r events) :
    Returned (Reverts L m₀) (Runs.run (callStep env) r events) := by
  induction events generalizing r with
  | nil => exact hr
  | cons e events ih =>
      refine ih (fun w hw => ?_) (fun e' he' => hrevert e' (List.mem_cons_of_mem e he')) hcount.2
      cases r with
      | error fault => cases hw
      | ok v =>
          exact callStep_reverts henv (hr v rfl) (hrevert e List.mem_cons_self)
            (hcount.1 v rfl) hw

/-- In use, and not in a pool. -/
def World.Static (w : World) (a : Nat) : Prop :=
  w.Live a ∧ ∀ o ∈ w.owned, a ∉ range o.2.1 o.2.2

theorem cfJournalSwap_twice (h : cfJournalSwap v = .ok ((), w)) :
    cfJournalSwap w = .ok ((), v) := by
  have hw : w = v.swapped := cfJournalSwap_triple.returned rfl h
  have hback : v.swapped.swapped = v := v.swapped_swapped
  have halive : ¬ ∃ item ∈ v.cc.journal, item.owner ∈ v.deleted := by
    intro hdead
    change (if ∃ item ∈ v.cc.journal, item.owner ∈ v.deleted then throw .deadPool
      else set v.swapped : Cf Unit) v = _ at h
    rw [if_pos hdead] at h
    cases h
  rw [hw]
  change (if ∃ item ∈ v.swapped.cc.journal, item.owner ∈ v.deleted then throw .deadPool
    else set v.swapped.swapped : Cf Unit) v.swapped = _
  rw [if_neg, hback]
  · rfl
  · rintro ⟨item, hitem, hdead⟩
    rcases exchange_owner _ _ _ item hitem with ⟨item', hitem', howner⟩ | hnone
    · exact halive ⟨item', hitem', howner ▸ hdead⟩
    · cases hnone

/-- After any history, `cf_revert` gives every variable the value from before it; and two exchanges
of the journal with memory in a row change nothing. -/
theorem revert_restores_initial (env : Env) (extent : Nat → Nat) (henv : Guards env extent)
    (w : World) (hw : NewContext w) (hon : w.cc.enableJournal = true) :
    (∀ events v, (∀ e ∈ events, e.call ≠ .revert) →
      Runs.EachStep (callStep env) Counts (.ok w) events →
      Runs.run (callStep env) (.ok w) events = .ok v →
      ∃ v', cfRevert v = .ok ((), v') ∧ ∀ a, w.Static a → v'.heap.mem a = w.heap.mem a) ∧
    ∀ v v', cfJournalSwap v = .ok ((), v') → cfJournalSwap v' = .ok ((), v) := by
  refine ⟨fun events v hrevert hcount hrun => ?_, fun v v' h => cfJournalSwap_twice h⟩
  have hstart : Reverts { a | w.Static a } w.heap.mem w := by
    refine ⟨hw.poolsOk, hon, ⟨fun a ha => ha.1, fun o ho a ha hstatic => hstatic.2 o ho ha⟩, ?_⟩
    intro a _
    rw [hw.journal]
    rfl
  have hend : Reverts { a | w.Static a } w.heap.mem v := by
    refine history_reverts henv (r := .ok w) (fun u hu => ?_) hrevert hcount v hrun
    cases hu
    exact hstart
  refine ⟨v.swapped.emptied, cfRevert_returns hend.pools, fun a ha => ?_⟩
  change (v.swapped.withoutAll _).heap.mem a = _
  rw [World.withoutAll_mem, World.swapped_mem]
  exact hend.undone a ha

instance (r : Except CfFault World) (e : Event) : Decidable (Counts r e) :=
  match r with
  | .ok w =>
      decidable_of_iff (0 < w.cc.sectionsInitialized ∧
          w.cc.sectionsInitialized + e.call.texts w ≤ 2 ^ 32)
        ⟨fun h _ hw => Except.ok.inj hw ▸ h, fun h => h w rfl⟩
  | .error _ => isTrue fun _ hw => nomatch hw

/-- The byte that a `cf_revert` after a history leaves at an address. -/
def revertedByte (r : Except CfFault World) (a : Nat) : Option Byte :=
  match r with
  | .ok w =>
      match cfRevert w with
      | .ok (_, w') => some (w'.heap.mem a)
      | .error _ => none
  | .error _ => none

theorem revertedByte_some {r : Except CfFault World} {a : Nat} {b : Byte}
    (h : revertedByte r a = some b) :
    ∃ v v', r = .ok v ∧ cfRevert v = .ok ((), v') ∧ v'.heap.mem a = b := by
  cases r with
  | error fault => cases h
  | ok v =>
      unfold revertedByte at h
      dsimp only at h
      split at h
      · next v' hrun => exact ⟨v, v', rfl, hrun, Option.some.inj h⟩
      · cases h

/-- `newWorld` with its sections initialised. -/
def readyContext : World := newWorld.listReady

theorem readyContext_new : NewContext readyContext :=
  ⟨rfl, rfl, rfl, rfl, List.nodup_nil, fun _ hp => absurd hp List.not_mem_nil⟩

/-- A file sets `x`, and then the whole configuration is read again. -/
def xHistory : List Event := [⟨.load (bytesOf ['f']), xFiles⟩, ⟨.reload none, xFiles⟩]

theorem revert_restores_x :
    ∃ v v', Runs.run (callStep listEnv) (.ok readyContext) xHistory = .ok v ∧
      cfRevert v = .ok ((), v') ∧
      ∀ a, readyContext.Static a → v'.heap.mem a = readyContext.heap.mem a := by
  have hguards : Guards listEnv listExtent :=
    ⟨⟨8, stride_handsOutFresh _ _ _⟩, listEnv_laidOut, listEnv_fitsJournal, listEnv_userJournals⟩
  obtain ⟨v, _, hrun, _⟩ := revertedByte_some (a := 0) (b := 0)
    (r := Runs.run (callStep listEnv) (.ok readyContext) xHistory) (by decide +kernel)
  have hrevert : ∀ e ∈ xHistory, e.call ≠ .revert := by
    intro e he
    rcases List.mem_pair.mp he with rfl | rfl
    · exact nofun
    · exact nofun
  have hcount : Runs.EachStep (callStep listEnv) Counts (.ok readyContext) xHistory :=
    ⟨by decide +kernel, by decide +kernel, trivial⟩
  obtain ⟨v', hv', hsame⟩ := (revert_restores_initial listEnv listExtent hguards readyContext
    readyContext_new rfl).1 xHistory v hrevert hcount hrun
  exact ⟨v, v', hrun, hv', hsame⟩

def hugeContext : World :=
  { readyContext with heap := { readyContext.heap with blocks := [(0x1000, 2 ^ 32)] } }

/-- A file that sets the array of `hugeEnv` is loaded, and everything is reverted. -/
theorem revert_keeps_huge :
    NewContext hugeContext ∧ hugeEnv.LaidOut hugeExtent ∧ hugeEnv.UserJournals hugeExtent ∧
      ∃ v v', Runs.run (callStep hugeEnv) (.ok hugeContext)
          [⟨.load (bytesOf ['f']), hugeEnv.files⟩] = .ok v ∧
        cfRevert v = .ok ((), v') ∧
        ¬ ∀ a, hugeContext.Static a → v'.heap.mem a = hugeContext.heap.mem a := by
  refine ⟨⟨rfl, rfl, rfl, rfl, List.nodup_nil, fun _ hp => absurd hp List.not_mem_nil⟩,
    hugeEnv_laidOut, hugeEnv_userJournals, ?_⟩
  obtain ⟨v, v', hrun, hrevert, hbyte⟩ := revertedByte_some (a := 0x1000) (b := 1)
    (r := Runs.run (callStep hugeEnv) (.ok hugeContext)
      [⟨.load (bytesOf ['f']), hugeEnv.files⟩]) (by decide +kernel)
  refine ⟨v, v', hrun, hrevert, fun hsame => ?_⟩
  have hzero := hsame 0x1000 ⟨⟨(0x1000, 2 ^ 32), List.mem_cons_self, by decide, by decide⟩,
    fun _ ho => absurd ho List.not_mem_nil⟩
  rw [hbyte] at hzero
  exact absurd hzero (by decide)

end OpenAAA.Opt
