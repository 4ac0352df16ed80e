import OpenAAA.Opt.Texts

/-!
Transactions of the journal. A call reads its texts inside a transaction, and ends it by
a rollback or by a commit. One relation says what may happen inside; what opens and ends
a transaction is written as functions of the world. For each call there is one theorem
that takes it apart.
-/

namespace OpenAAA.Opt

open Memory Alloc UndoLog Hoare

/-! ## Inside a transaction -/

/-- From `w₀` to `w` at most `k` texts are read and sources remembered. -/
structure Within (L : Set Nat) (k : Nat) (w₀ w : World) : Prop where
  pool : w.cc.pool = w₀.cc.pool
  pools : w.cc.pools = w₀.cc.pools
  enableJournal : w.cc.enableJournal = w₀.cc.enableJournal
  created : w.created = w₀.created
  deleted : w.deleted = w₀.deleted
  blocks : w₀.heap.blocks ⊆ w.heap.blocks
  owned : L.Nonempty → ∀ o ∈ w.owned, o ∈ w₀.owned ∨ ∀ a ∈ range o.2.1 o.2.2, ¬ w₀.Live a
  journalled : ∃ items, Journalled L w₀ w items
  entries : ∃ more, w.cc.confEntries = w₀.cc.confEntries ++ more ∧
    ∀ ce ∈ more, w₀.cc.enableJournal = true ∧ w₀.cc.pool = some ce.pool
  texts : w₀.cc.sectionsInitialized + k < 2 ^ 32 →
    w₀.cc.sectionsInitialized ≤ w.cc.sectionsInitialized ∧
      w.cc.sectionsInitialized ≤ w₀.cc.sectionsInitialized + k

variable {L : Set Nat} {k k' : Nat} {w₀ v w : World} {env : Env} {extent : Nat → Nat}

theorem Within.refl (L : Set Nat) (w : World) : Within L 0 w w where
  pool := rfl
  pools := rfl
  enableJournal := rfl
  created := rfl
  deleted := rfl
  blocks := fun _ hb => hb
  owned := fun _ _ ho => Or.inl ho
  journalled := (Keeps.refl L w).journalled
  entries := ⟨[], (List.append_nil _).symm, fun _ h => absurd h List.not_mem_nil⟩
  texts := fun _ => ⟨le_rfl, le_rfl⟩

theorem Journalled.trans {older items : List JournalItem} (hold : Journalled L w₀ v older)
    (hnew : Journalled L v w items) (hmakes : ∀ i, Makes v i → Makes w₀ i)
    (hon : w₀.cc.enableJournal = true → v.cc.enableJournal = true) :
    Journalled L w₀ w (items ++ older) where
  journal := by rw [hnew.journal, hold.journal, List.append_assoc]
  owner := by
    intro i hi
    rcases List.mem_append.mp hi with hi | hi
    · exact hmakes i (hnew.owner i hi)
    · exact hold.owner i hi
  undone := by
    intro hon₀ a ha
    rw [undo_append, ← hold.undone hon₀ a ha]
    exact undo_congr (hnew.undone (hon hon₀) a ha)

theorem Within.trans (h : Within L k w₀ v) (h' : Within L k' v w) : Within L (k + k') w₀ w where
  pool := h'.pool.trans h.pool
  pools := h'.pools.trans h.pools
  enableJournal := h'.enableJournal.trans h.enableJournal
  created := h'.created.trans h.created
  deleted := h'.deleted.trans h.deleted
  blocks := fun _ hb => h'.blocks (h.blocks hb)
  owned := by
    intro hL o ho
    rcases h'.owned hL o ho with hold | hnew
    · exact h.owned hL o hold
    · exact Or.inr fun a ha hlive => hnew a ha (hlive.mono h.blocks)
  journalled := by
    obtain ⟨older, hold⟩ := h.journalled
    obtain ⟨items, hnew⟩ := h'.journalled
    refine ⟨_, hold.trans hnew (fun i hi => ?_) fun hon => h.enableJournal.trans hon⟩
    exact ⟨h.enableJournal ▸ hi.enabled, h.pool ▸ hi.pool, h.deleted ▸ hi.alive⟩
  entries := by
    obtain ⟨older, hold, holder⟩ := h.entries
    obtain ⟨more, hmore, hnew⟩ := h'.entries
    refine ⟨older ++ more, by rw [hmore, hold, List.append_assoc], fun ce hce => ?_⟩
    rcases List.mem_append.mp hce with hce | hce
    · exact holder ce hce
    · rw [← h.enableJournal, ← h.pool]
      exact hnew ce hce
  texts := by
    intro hroom
    have hfirst := h.texts (by omega)
    have hsecond := h'.texts (by omega)
    omega

/-- The counter of texts with another value. -/
def World.initialized (w : World) (n : Nat) : World :=
  { w with cc := { w.cc with sectionsInitialized := n } }

/-- What a text does is inside a transaction. -/
theorem Keeps.within {n : Nat} (h : Keeps L (v.initialized n) w)
    (hn : v.cc.sectionsInitialized + k < 2 ^ 32 →
      v.cc.sectionsInitialized ≤ n ∧ n ≤ v.cc.sectionsInitialized + k) : Within L k v w where
  pool := h.pool
  pools := h.pools
  enableJournal := h.enableJournal
  created := h.created
  deleted := h.deleted
  blocks := h.blocks
  owned := h.owned
  journalled := by
    obtain ⟨items, hitems⟩ := h.journalled
    refine ⟨items, hitems.journal, fun i hi => ?_, hitems.undone⟩
    exact ⟨(hitems.owner i hi).enabled, (hitems.owner i hi).pool, (hitems.owner i hi).alive⟩
  entries :=
    ⟨[], h.confEntries.trans (List.append_nil _).symm, fun _ hce => absurd hce List.not_mem_nil⟩
  texts := by
    intro hroom
    have hcount : w.cc.sectionsInitialized = n := h.sectionsInitialized
    rw [hcount]
    exact hn hroom

/-- A transaction goes on without a text. -/
theorem Within.keeps (h : Within L k w₀ v) (hkeeps : Keeps L v w) : Within L k w₀ w :=
  have hnone : Within L 0 v w :=
    hkeeps.within (n := v.cc.sectionsInitialized) fun _ => ⟨le_rfl, le_rfl⟩
  h.trans hnone

theorem Safe.mono (hsafe : Safe env extent L w₀) (hblocks : w₀.heap.blocks ⊆ w.heap.blocks) :
    Safe env extent L w :=
  ⟨hsafe.alloc, hsafe.declared, hsafe.user, fun a ha => (hsafe.live a ha).mono hblocks⟩

/-- A program that keeps the world goes on inside a transaction. -/
theorem Tame.within {α : Type} {x : Cf α} {Q : α → Prop} (hsafe : Safe env extent L w₀)
    (hx : ∀ v, Safe env extent L v → Tame L ∅ v x Q) :
    Triple (fun _ => True) (Within L k w₀) x fun _ => Within L k w₀ := by
  refine Triple.at fun v hv => ?_
  have htame := hx v (hsafe.mono hv.blocks) (v.cc.top, v.cc.below)
  refine ((htame.allow fun _ _ => trivial).strengthen fun w hw => ?_).weaken fun _ w hw => ?_
  · rw [hw]
    exact Ctx.start L v
  · exact hv.keeps hw.1.toKeeps

/-! ## Texts and sources -/

/-- Sections are initialised, which matters where something is protected. -/
def Initialised (L : Set Nat) (w : World) : Prop := L.Nonempty → 0 < w.cc.sectionsInitialized

/-- And so they are for each of `k` more texts. -/
def InitialisedFor (L : Set Nat) (k : Nat) (w : World) : Prop :=
  L.Nonempty → 0 < w.cc.sectionsInitialized ∧ w.cc.sectionsInitialized + k ≤ 2 ^ 32

/-- What a text leaves: the same entries, inside the transaction. -/
def AfterText (L : Set Nat) (v w : World) : Prop :=
  Within L 1 v w ∧ w.cc.confEntries = v.cc.confEntries

theorem parseFastbuf_within (hsafe : Safe env extent L v) (hinit : Initialised L v)
    (text : List Byte) :
    Triple (fun _ => True) (· = v) (parseFastbuf env text) fun _ => AfterText L v := by
  have hfirst : v.cc.sectionsInitialized = 0 → L = ∅ := by
    intro hzero
    by_contra hL
    have hpos := hinit (Set.nonempty_iff_ne_empty.mpr hL)
    omega
  have hsafe' : Safe env extent L v.counted := hsafe.mono fun _ hb => hb
  refine ((parseFastbuf_triple hsafe' hfirst text).allow fun _ _ => trivial).weaken fun _ w hw => ?_
  refine ⟨hw.within (n := (v.cc.sectionsInitialized + 1) % 2 ^ 32) fun hroom => ?_, hw.confEntries⟩
  rw [Nat.mod_eq_of_lt hroom]
  omega

theorem loadFile_within (hsafe : Safe env extent L v) (hinit : Initialised L v) (file : CStr) :
    Triple (fun _ => True) (· = v) (loadFile env file) fun _ => AfterText L v := by
  have hsame : Triple (fun _ => True) (· = v) (pure true : Cf Bool) fun _ => AfterText L v := by
    refine Triple.pure fun w hw => ?_
    rw [hw]
    exact ⟨(Keeps.refl L v).within (n := v.cc.sectionsInitialized) fun _ => ⟨le_rfl, by omega⟩, rfl⟩
  unfold loadFile
  split
  · exact parseFastbuf_within hsafe hinit _
  · exact hsame

theorem loadEntry_within (hsafe : Safe env extent L v) (hinit : Initialised L v)
    (ce : ConfEntry) :
    Triple (fun _ => True) (· = v) (loadEntry env ce) fun _ => AfterText L v := by
  unfold loadEntry
  cases ce.type with
  | file => exact loadFile_within hsafe hinit ce.arg
  | string => exact parseFastbuf_within hsafe hinit ce.arg

theorem cfRememberEntry_within (hsafe : Safe env extent L w₀) (type : EntryType) (arg : CStr) :
    Triple (fun _ => True) (Within L k w₀) (cfRememberEntry env type arg) fun _ =>
      Within L k w₀ := by
  refine Triple.get.bind fun u => ?_
  cases hon : u.cc.enableJournal with
  | false => exact Triple.pure fun _ hw => hw.1
  | true =>
      refine Triple.assume (φ := w₀.cc.enableJournal = true) (P := Within L k w₀) (fun hon₀ => ?_)
        fun w hw => ⟨by rw [← hw.1.enableJournal, ← hw.2, hon], hw.1⟩
      -- the allocation shows that there is a pool
      refine Triple.bind (Q := fun _ w => Within L k w₀ w ∧ HasPool w₀) ?_ fun _ => ?_
      · refine Triple.at fun v hv => ?_
        have halloc := cfMalloc_tame (W := ∅) (hsafe.mono hv.blocks) 32 (v.cc.top, v.cc.below)
        refine ((halloc.allow fun _ _ => trivial).strengthen fun w hw => ?_).weaken fun _ w hw => ?_
        · rw [hw]
          exact Ctx.start L v
        · obtain ⟨hctx, _, pool, hpool, halive⟩ := hw
          refine ⟨hv.keeps hctx.toKeeps, pool, ?_, ?_⟩
          · rw [← hv.pool, hpool]
          · rw [← hv.deleted]
            exact halive
      · refine Triple.assume (fun hpool => ?_) fun _ hw => ⟨hw.2, hw.1⟩
        refine (Tame.within hsafe fun v hv => cfStrdup_tame hv arg).bind fun _ => ?_
        refine Triple.bind (Q := fun _ => Within L k w₀) ?_ fun _ => ?_
        · refine Triple.get.bind fun _ => ?_
          exact Triple.ite (fun _ => Triple.throw trivial) fun _ => Triple.pure fun _ hw => hw.1
        · refine Triple.modify fun w hw => ?_
          obtain ⟨pool, hpool, _⟩ := hpool
          obtain ⟨more, hmore, hnew⟩ := hw.entries
          have hget : w.cc.pool.getD 0 = pool := by rw [hw.pool, hpool, Option.getD_some]
          refine ⟨hw.pool, hw.pools, hw.enableJournal, hw.created, hw.deleted, hw.blocks, hw.owned,
            ?_, ⟨more ++ [⟨pool, type, arg⟩], ?_, fun ce hce => ?_⟩, hw.texts⟩
          · obtain ⟨items, hitems⟩ := hw.journalled
            exact ⟨items, hitems.journal, hitems.owner, hitems.undone⟩
          · dsimp only
            rw [hget, hmore, List.append_assoc]
          · rcases List.mem_append.mp hce with hce | hce
            · exact hnew ce hce
            · rw [List.mem_singleton.mp hce]
              exact ⟨hon₀, hpool⟩

theorem Within.more (h : Within L k w₀ w) (hk : k ≤ k') : Within L k' w₀ w := by
  refine { h with texts := fun hroom => ?_ }
  have htexts := h.texts (by omega)
  omega

theorem InitialisedFor.inside (h : InitialisedFor L (k + 1) w₀) (hv : Within L k w₀ v) :
    Initialised L v := by
  intro hL
  obtain ⟨hpos, hroom⟩ := h hL
  have htexts := hv.texts (by omega)
  omega

/-- A text that is read inside a transaction. -/
theorem Within.text {x : Cf Bool} (hsafe : Safe env extent L w₀) (hinit : InitialisedFor L (k + 1) w₀)
    (hx : ∀ v, Safe env extent L v → Initialised L v →
      Triple (fun _ => True) (· = v) x fun _ => AfterText L v) :
    Triple (fun _ => True) (Within L k w₀) x fun _ => Within L (k + 1) w₀ := by
  refine Triple.at fun v hv => ?_
  exact (hx v (hsafe.mono hv.blocks) (hinit.inside hv)).weaken fun _ w hw => hv.trans hw.1

theorem reloadEntries_within (hsafe : Safe env extent L w₀) (entries : List ConfEntry)
    (hinit : InitialisedFor L (k + entries.length) w₀) :
    Triple (fun _ => True) (Within L k w₀) (reloadEntries env entries) fun _ =>
      Within L (k + entries.length) w₀ := by
  induction entries generalizing k with
  | nil => exact Triple.pure fun _ hw => hw
  | cons ce entries ih =>
      rw [List.length_cons, Nat.add_comm entries.length, ← Nat.add_assoc] at hinit ⊢
      have hone : InitialisedFor L (k + 1) w₀ := by
        intro hL
        obtain ⟨hpos, hroom⟩ := hinit hL
        omega
      refine (Within.text hsafe hone fun v hv hi => loadEntry_within hv hi ce).bind fun failed => ?_
      refine Triple.ite (fun _ => Triple.pure fun _ hw => hw.more (Nat.le_add_right _ _)) fun _ => ?_
      exact (cfRememberEntry_within hsafe ce.type ce.arg).bind fun _ => ih hinit

/-- The number of texts that `cf_reload` reads. -/
def sourceCount (file : Option CStr) (entries : List ConfEntry) : Nat :=
  match file with
  | some _ => 1
  | none => entries.length

theorem reloadSources_within (hsafe : Safe env extent L w₀) (file : Option CStr)
    (entries : List ConfEntry) (hinit : InitialisedFor L (sourceCount file entries) w₀) :
    Triple (fun _ => True) (· = w₀) (reloadSources env file entries) fun _ =>
      Within L (sourceCount file entries) w₀ := by
  have hstart : ∀ w, w = w₀ → Within L 0 w₀ w := fun w hw => hw ▸ Within.refl L w
  cases file with
  | some file =>
      exact (loadFile_within hsafe (fun hL => (hinit hL).1) file).weaken fun _ _ hw => hw.1
  | none =>
      have hrun := reloadEntries_within hsafe entries (k := 0) (by rw [Nat.zero_add]; exact hinit)
      rw [Nat.zero_add] at hrun
      exact hrun.strengthen hstart

/-- The fields of the context that no transaction looks at. -/
theorem Within.setFlags (h : Within L k w₀ w) (postpone : Nat) (everything loaded : Bool) :
    Within L k w₀ { w with cc := { w.cc with
      postponeCommit := postpone, everythingCommitted := everything, configLoaded := loaded } } := by
  obtain ⟨items, hitems⟩ := h.journalled
  exact ⟨h.pool, h.pools, h.enableJournal, h.created, h.deleted, h.blocks, h.owned,
    ⟨items, hitems.journal, hitems.owner, hitems.undone⟩, h.entries, h.texts⟩

theorem cfCloseGroup_within (hsafe : Safe env extent L w₀) :
    Triple (fun _ => True) (Within L k w₀) (cfCloseGroup env) fun _ => Within L k w₀ := by
  refine (Triple.get.weaken fun _ _ hw => hw.1).bind fun u => ?_
  refine Triple.ite (fun _ => Triple.throw trivial) fun _ => ?_
  refine Triple.bind (Q := fun _ => Within L k w₀) ?_ fun _ => ?_
  · exact Triple.modify fun w hw =>
      hw.setFlags (w.cc.postponeCommit - 1) w.cc.everythingCommitted w.cc.configLoaded
  · refine Triple.ite (fun _ => ?_) fun _ => Triple.pure fun _ hw => hw
    exact Tame.within hsafe fun v hv => maybeCommit_tame hv

/-! ## The ends of a transaction -/

/-- After `cf_journal_swap`. -/
def World.swapped (w : World) : World :=
  { w with
    heap := { w.heap with mem := (exchange w.heap.mem w.cc.journal []).1 }
    cc := { w.cc with journal := (exchange w.heap.mem w.cc.journal []).2 } }

/-- After `cf_journal_new_transaction` without a pool. -/
def World.begun (w : World) : World := { w with cc := { w.cc with journal := [] } }

/-- After `cf_journal_new_transaction` with a pool. -/
def World.opened (w : World) : World :=
  { w with created := w.created + 1, cc := { w.cc with pool := some w.created, journal := [] } }

/-- An older journal is put behind the current one. -/
def World.joined (w : World) (oldj : List JournalItem) : World :=
  { w with cc := { w.cc with journal := w.cc.journal ++ oldj } }

/-- The pool is kept, with its record in it. -/
def World.recorded (w : World) : World :=
  { w with cc := { w.cc with pools := ⟨w.cc.pool.getD 0, w.cc.pool.getD 0⟩ :: w.cc.pools } }

/-- An older journal takes the place of the current one. -/
def World.restored (w : World) (oldj : List JournalItem) : World :=
  { w.swapped with cc := { w.cc with journal := oldj } }

/-- The pool of the transaction goes, and the one before is current again. -/
def World.poolDropped (w : World) : World :=
  { w.without (w.cc.pool.getD 0) with
    cc := { w.cc with pool := w.cc.pools.head?.map (·.pool) } }

theorem cfJournalSwap_triple :
    Triple (fun _ => True) (· = v) cfJournalSwap fun _ w => w = v.swapped := by
  refine Triple.bindAt (fun u u' hget => ?_) fun _ _ => trivial
  cases hget
  exact Triple.ite (fun _ => Triple.throw trivial) fun _ => fun w hw => by subst hw; rfl

theorem cfJournalCommitTransaction_triple (hsafe : Safe env extent L w₀) (oldj : List JournalItem) :
    Triple (fun _ => True) (Within L k w₀) (cfJournalCommitTransaction env true oldj) fun _ w =>
      ∃ u, Within L k w₀ u ∧ w = u.recorded.joined oldj := by
  refine Triple.bind (Q := fun _ w => ∃ u, Within L k w₀ u ∧ w = u.recorded) ?_ fun _ => ?_
  · refine (Tame.within hsafe fun v hv => (cfMalloc_tame hv 16).any).bind fun _ => ?_
    exact Triple.modify fun w hw => ⟨w, hw, rfl⟩
  · refine Triple.modify fun w hw => ?_
    obtain ⟨u, hu, rfl⟩ := hw
    exact ⟨u, hu, rfl⟩

/-- What a rollback leaves: nothing is done where there is no journal. -/
def World.rolledBack (w : World) (newPool : Bool) (oldj : List JournalItem) : World :=
  if w.cc.enableJournal then
    if newPool then (w.restored oldj).poolDropped else w.restored oldj
  else w

theorem cfJournalRollbackTransaction_triple (newPool : Bool) (oldj : List JournalItem) :
    Triple (fun _ => True) (· = v) (cfJournalRollbackTransaction newPool oldj) fun _ w =>
      w = v.rolledBack newPool oldj := by
  refine Triple.bindAt (fun u u' hget => ?_) fun _ _ => trivial
  cases hget
  unfold World.rolledBack
  cases v.cc.enableJournal with
  | false => exact Triple.pure fun _ hw => hw
  | true =>
      refine cfJournalSwap_triple.bind fun _ => ?_
      refine Triple.bind (Q := fun _ w => w = v.restored oldj)
        (Triple.modify fun w hw => by subst hw; rfl) fun _ => ?_
      cases newPool with
      | false => exact Triple.pure fun _ hw => hw
      | true =>
          refine Triple.bindAt (fun u u' hget => ?_) fun _ _ => trivial
          cases hget
          intro w hw
          subst hw
          rfl

/-! ## Old pools -/

/-- No block of a pool holds a protected address. -/
def Unpooled (L : Set Nat) (w : World) : Prop :=
  (∀ a ∈ L, w.Live a) ∧ ∀ o ∈ w.owned, Free L o.2.1 o.2.2

theorem Unpooled.without (h : Unpooled L w) (pool : Nat) : Unpooled L (w.without pool) := by
  refine ⟨fun a ha => ?_, fun o ho => h.2 o (List.mem_of_mem_filter ho)⟩
  obtain ⟨b, hb, hab⟩ := h.1 a ha
  refine ⟨b, List.mem_filter.mpr ⟨hb, decide_eq_true fun howned => ?_⟩, hab⟩
  exact h.2 (pool, b) howned a hab ha

/-- Memory inside a transaction is new to the pools. -/
theorem Unpooled.within (h : Unpooled L v) (hw : Within L k v w) : Unpooled L w := by
  refine ⟨fun a ha => (h.1 a ha).mono hw.blocks, fun o ho a ha hL => ?_⟩
  rcases hw.owned ⟨a, hL⟩ o ho with hold | hnew
  · exact h.2 o hold a ha hL
  · exact hnew a ha (h.1 a hL)

/-- The pools of the records are deleted in turn. -/
def World.withoutAll (w : World) (pools : List OldPool) : World :=
  pools.foldl (fun w p => w.without p.pool) w

/-- All pools on record are deleted, after `cf_journal_delete`. -/
def World.emptied (w : World) : World :=
  { w.withoutAll w.cc.pools with cc := { w.cc with pools := [] } }

theorem deletePools_triple (pools : List OldPool) :
    Triple (fun _ => True) (· = v) (deletePools pools) fun _ w =>
      w = { v.withoutAll pools with cc := { v.cc with pools := [] } } := by
  induction pools generalizing v with
  | nil => exact Triple.modify fun w hw => by subst hw; rfl
  | cons p pools ih =>
      refine Triple.bindAt (fun u u' hget => ?_) fun _ _ => trivial
      cases hget
      refine Triple.ite (fun _ => Triple.throw trivial) fun _ => ?_
      exact Triple.bind (Q := fun _ w => w = v.without p.pool)
        (Triple.modify fun w hw => by subst hw; rfl) fun _ => ih

theorem Unpooled.withoutAll (h : Unpooled L w) (pools : List OldPool) :
    Unpooled L (w.withoutAll pools) := by
  induction pools generalizing w with
  | nil => exact h
  | cons p pools ih => exact ih (h.without p.pool)

/-! ## Calls -/

/-- `cf_load`: its text, and the end of the transaction. -/
theorem cfLoad_triple (hsafe : Safe env extent L v) (hinit : Initialised L v) (file : CStr) :
    Triple (fun _ => True) (· = v) (cfLoad env file) fun failed w =>
      ∃ u, Within L 1 v.opened u ∧
        if failed then u.cc.confEntries = v.cc.confEntries ∧ w = u.rolledBack true v.cc.journal
        else Within L 0 (u.recorded.joined v.cc.journal) w := by
  refine Triple.bind (Q := fun oldj w => oldj = v.cc.journal ∧ w = v.opened) ?_ fun oldj => ?_
  · rintro w rfl
    exact ⟨rfl, rfl⟩
  refine Triple.assume (fun hold => ?_) fun _ hw => hw
  subst hold
  have hopened : Safe env extent L v.opened := hsafe.mono fun _ hb => hb
  refine (loadFile_within hopened hinit file).bind fun failed => ?_
  refine Triple.ite (fun hfailed => ?_) fun hfailed => ?_
  · refine Triple.at fun u hu => (cfJournalRollbackTransaction_triple true _).bind fun _ => ?_
    exact Triple.pure fun w hw => ⟨u, hu.1, hu.2, hw⟩
  · refine Triple.bind ((cfJournalCommitTransaction_triple hopened _).strengthen
      fun _ hw => hw.1) fun _ => ?_
    refine Triple.at fun w₁ hw₁ => ?_
    obtain ⟨u, hu, hw₁⟩ := hw₁
    have hsafe₁ : Safe env extent L w₁ := by
      rw [hw₁]
      exact hopened.mono hu.blocks
    refine Triple.bind ((cfRememberEntry_within (k := 0) hsafe₁ .file file).strengthen
      fun w hw => ?_) fun _ => ?_
    · rw [hw]
      exact Within.refl L w₁
    refine Triple.bind (Q := fun _ => Within L 0 w₁) (Triple.modify fun w hw => ?_) fun _ => ?_
    · exact hw.setFlags w.cc.postponeCommit w.cc.everythingCommitted true
    · exact Triple.pure fun w hw => ⟨u, hu, hw₁ ▸ hw⟩

/-- `cf_set`: a text that is put into the current pool. -/
theorem cfSet_triple (hsafe : Safe env extent L v) (hinit : Initialised L v) (string : CStr) :
    Triple (fun _ => True) (· = v) (cfSet env string) fun failed w =>
      ∃ u, Within L 1 v.begun u ∧
        if failed then u.cc.confEntries = v.cc.confEntries ∧ w = u.rolledBack false v.cc.journal
        else Within L 0 (u.joined v.cc.journal) w := by
  refine Triple.bind (Q := fun oldj w => oldj = v.cc.journal ∧ w = v.begun) ?_ fun oldj => ?_
  · rintro w rfl
    exact ⟨rfl, rfl⟩
  refine Triple.assume (fun hold => ?_) fun _ hw => hw
  subst hold
  have hbegun : Safe env extent L v.begun := hsafe.mono fun _ hb => hb
  refine (parseFastbuf_within hbegun hinit string).bind fun failed => ?_
  refine Triple.ite (fun hfailed => ?_) fun hfailed => ?_
  · refine Triple.at fun u hu => (cfJournalRollbackTransaction_triple false _).bind fun _ => ?_
    exact Triple.pure fun w hw => ⟨u, hu.1, hu.2, hw⟩
  · refine Triple.at fun u hu => ?_
    refine Triple.bind (Q := fun _ w => w = u.joined v.cc.journal) ?_ fun _ => ?_
    · rintro w rfl
      rfl
    have hsafe₁ : Safe env extent L (u.joined v.cc.journal) := hbegun.mono hu.1.blocks
    refine Triple.bind ((cfRememberEntry_within (k := 0) hsafe₁ .string string).strengthen
      fun w hw => ?_) fun _ => ?_
    · rw [hw]
      exact Within.refl L _
    · exact Triple.pure fun w hw => ⟨u, hu.1, hw⟩

/-- The world in which `cf_reload` reads its texts: the initial values, and no sources. -/
def World.reopened (w : World) : World :=
  { w.swapped.opened with cc := { w.swapped.opened.cc with
    everythingCommitted := false, confEntries := [], postponeCommit := w.cc.postponeCommit + 1 } }

/-- After a failed `cf_reload`. -/
def World.reverted (u w : World) : World :=
  { (u.rolledBack true w.swapped.cc.journal).swapped with
    cc := { (u.rolledBack true w.swapped.cc.journal).swapped.cc with
      confEntries := w.cc.confEntries } }

theorem cfReload_triple (hsafe : Safe env extent L v) (hpools : Unpooled L v) (file : Option CStr)
    (hinit : InitialisedFor L (sourceCount file v.cc.confEntries) v) :
    Triple (fun _ => True) (· = v) (cfReload env file) fun failed w =>
      v.cc.enableJournal = true ∧
      ∃ u, Within L (sourceCount file v.cc.confEntries) v.reopened u ∧
        if failed then w = u.reverted v
        else ∃ u', Within L 0 u.emptied u' ∧ w = u'.recorded.joined [] := by
  refine Triple.bindAt (fun before w hget => ?_) fun _ _ => trivial
  cases hget
  refine Triple.ite (fun _ => Triple.throw trivial) fun hon => ?_
  rw [Bool.not_eq_true, Bool.not_eq_false] at hon
  refine cfJournalSwap_triple.bind fun _ => ?_
  refine Triple.bind (Q := fun oldj w => oldj = v.swapped.cc.journal ∧ w = v.swapped.opened) ?_
    fun oldj => ?_
  · rintro w rfl
    exact ⟨rfl, rfl⟩
  refine Triple.assume (fun hold => ?_) fun _ hw => hw
  subst hold
  refine Triple.bind (Q := fun _ w => w = v.swapped.opened) ?_ fun _ => ?_
  · refine Triple.get.bind fun _ => ?_
    exact Triple.ite (fun _ => Triple.throw trivial) fun _ => Triple.pure fun _ hw => hw.1
  refine Triple.bind (Q := fun _ w => w = { v.swapped.opened with cc := { v.swapped.opened.cc with
    everythingCommitted := false, confEntries := [] } }) ?_ fun _ => ?_
  · exact Triple.modify fun w hw => by subst hw; rfl
  refine Triple.bind (Q := fun _ w => w = v.reopened) ?_ fun _ => ?_
  · exact Triple.modify fun w hw => by subst hw; rfl
  have hopened : Safe env extent L v.reopened := hsafe.mono fun _ hb => hb
  refine (reloadSources_within hopened file v.cc.confEntries hinit).bind fun failed => ?_
  refine (cfCloseGroup_within hopened).bind fun unclosed => ?_
  refine Triple.ite (fun hfailed => ?_) fun hfailed => ?_
  · refine Triple.bind (Q := fun _ => Within L (sourceCount file v.cc.confEntries) v.reopened) ?_
      fun _ => Triple.at fun u hu => ?_
    · exact Triple.modify fun w hw =>
        hw.setFlags w.cc.postponeCommit v.cc.everythingCommitted w.cc.configLoaded
    · refine (cfJournalRollbackTransaction_triple true _).bind fun _ => ?_
      refine Triple.at fun r hr => cfJournalSwap_triple.bind fun _ => ?_
      refine Triple.bind (Q := fun _ w => w = u.reverted v) ?_ fun _ => ?_
      · refine Triple.modify fun w hw => ?_
        rw [hw, hr]
        rfl
      · exact Triple.pure fun w hw => ⟨hon, u, hu, hw⟩
  · refine Triple.at fun u hu => ?_
    refine Triple.bind (Q := fun _ w => w = u.emptied) ?_ fun _ => Triple.at fun d hd => ?_
    · refine Triple.bindAt (fun u₁ u₂ hget => ?_) fun _ _ => trivial
      cases hget
      exact deletePools_triple _
    · have hpools' : Unpooled L v.reopened := ⟨hpools.1, hpools.2⟩
      have hlive := (Unpooled.withoutAll (hpools'.within hu) u.cc.pools).1
      have hsafe' : Safe env extent L d := by
        rw [hd]
        exact ⟨hsafe.alloc, hsafe.declared, hsafe.user, hlive⟩
      refine Triple.bind ((cfJournalCommitTransaction_triple (k := 0) hsafe' []).strengthen
        fun w hw => ?_) fun _ => Triple.pure fun w hw => ?_
      · rw [hw]
        exact Within.refl L d
      · obtain ⟨u', hu', hw'⟩ := hw
        rw [hd] at hu'
        exact ⟨hon, u, hu, u', hu', hw'⟩

/-- `cf_revert`: the values that the journal holds, and no pools. -/
theorem cfRevert_triple :
    Triple (fun _ => True) (· = v) cfRevert fun _ w => w = v.swapped.emptied := by
  refine cfJournalSwap_triple.bind fun _ => ?_
  refine Triple.bindAt (fun u₁ u₂ hget => ?_) fun _ _ => trivial
  cases hget
  exact deletePools_triple _

/-- The calls of a program on its configuration. -/
inductive Call where
  | load (file : CStr)
  | set (string : CStr)
  | reload (file : Option CStr)
  | revert

def Call.run (env : Env) : Call → Cf Bool
  | .load file => cfLoad env file
  | .set string => cfSet env string
  | .reload file => cfReload env file
  | .revert => do
      cfRevert
      pure false

/-- A call, and the files that are there when it is made. -/
structure Event where
  call : Call
  files : CStr → FileResult

def Env.withFiles (env : Env) (files : CStr → FileResult) : Env := { env with files := files }

/-- A history goes on after a call that returns, whatever it returns. -/
def callStep (env : Env) (r : Except CfFault World) (e : Event) : Except CfFault World := do
  let w ← r
  let result ← e.call.run (env.withFiles e.files) w
  pure result.2

/-- What is true of the world, if the last call has returned. -/
def Returned (P : World → Prop) (r : Except CfFault World) : Prop := ∀ w, r = .ok w → P w

theorem callStep_ok {e : Event} (h : callStep env (.ok v) e = .ok w) :
    ∃ result, e.call.run (env.withFiles e.files) v = .ok (result, w) := by
  change (e.call.run (env.withFiles e.files) v >>= fun result => pure result.2) = .ok w at h
  cases hrun : e.call.run (env.withFiles e.files) v with
  | error fault =>
      rw [hrun] at h
      cases h
  | ok result =>
      rw [hrun] at h
      cases h
      exact ⟨result.1, rfl⟩

end OpenAAA.Opt
