import OpenAAA.Opt.Transactions
import OpenAAA.Lib.Runs

/-!
Lifetimes of memory pools over histories of calls. The items of the journal, the
remembered sources and the records of old pools lie in pools themselves. Between two
calls everything is in a pool that is on record, and with a journal the current pool is
the last one recorded.
-/

namespace OpenAAA.Opt

open Memory Alloc UndoLog Hoare

/-- The pool was created, and `mp_delete` has not been called on it. -/
def World.Alive (w : World) (pool : Nat) : Prop := pool < w.created ∧ pool ∉ w.deleted

/-- Whatever the context refers to is in a pool that is alive, and no pool was deleted twice. -/
structure Owned (w : World) : Prop where
  journal : ∀ i ∈ w.cc.journal, w.Alive i.owner
  confEntries : ∀ ce ∈ w.cc.confEntries, w.Alive ce.pool
  pools : ∀ p ∈ w.cc.pools, w.Alive p.home ∧ w.Alive p.pool
  pool : ∀ p, w.cc.pool = some p → w.Alive p
  once : w.deleted.Nodup

/-- The pools on record. -/
def World.held (w : World) : List Nat := w.cc.pools.map (·.pool)

/-- Between two calls. -/
structure PoolsOk (w : World) : Prop where
  once : w.deleted.Nodup
  old : ∀ p ∈ w.deleted, p < w.created
  distinct : w.held.Nodup
  pools : ∀ p ∈ w.cc.pools, p.home = p.pool ∧ w.Alive p.pool
  pool : ∀ p, w.cc.pool = some p → w.Alive p
  journal : ∀ i ∈ w.cc.journal, i.owner ∈ w.held
  confEntries : ∀ ce ∈ w.cc.confEntries, ce.pool ∈ w.held
  current : w.cc.enableJournal = true → w.cc.pool = w.held.head?
  disabled : w.cc.enableJournal = false → w.cc.journal = [] ∧ w.cc.confEntries = []

variable {L : Set Nat} {k : Nat} {v w u : World} {env : Env}

theorem PoolsOk.held_alive (h : PoolsOk w) {p : Nat} (hp : p ∈ w.held) : w.Alive p := by
  obtain ⟨record, hrecord, rfl⟩ := List.mem_map.mp hp
  exact (h.pools record hrecord).2

theorem PoolsOk.owned (h : PoolsOk w) : Owned w where
  journal := fun i hi => h.held_alive (h.journal i hi)
  confEntries := fun ce hce => h.held_alive (h.confEntries ce hce)
  pools := fun p hp => by
    obtain ⟨hhome, halive⟩ := h.pools p hp
    exact ⟨hhome ▸ halive, halive⟩
  pool := h.pool
  once := h.once

/-! ## Inside a transaction -/

theorem Within.held (h : Within L k v w) : w.held = v.held := by
  unfold World.held
  rw [h.pools]

theorem Within.alive (h : Within L k v w) {p : Nat} (hp : v.Alive p) : w.Alive p := by
  unfold World.Alive
  rw [h.created, h.deleted]
  exact hp

/-- The items since the start are in its pool, and there is a journal. -/
theorem Within.mem_journal (h : Within L k v w) {i : JournalItem} (hi : i ∈ w.cc.journal) :
    i ∈ v.cc.journal ∨ v.cc.enableJournal = true ∧ v.cc.pool = some i.owner := by
  obtain ⟨items, hitems⟩ := h.journalled
  rw [hitems.journal] at hi
  rcases List.mem_append.mp hi with hi | hi
  · exact Or.inr ⟨(hitems.owner i hi).enabled, (hitems.owner i hi).pool⟩
  · exact Or.inl hi

theorem Within.mem_confEntries (h : Within L k v w) {ce : ConfEntry}
    (hce : ce ∈ w.cc.confEntries) :
    ce ∈ v.cc.confEntries ∨ v.cc.enableJournal = true ∧ v.cc.pool = some ce.pool := by
  obtain ⟨more, hmore, hnew⟩ := h.entries
  rw [hmore] at hce
  rcases List.mem_append.mp hce with hce | hce
  · exact Or.inl hce
  · exact Or.inr (hnew ce hce)

/-- Without a journal nothing is kept. -/
theorem Within.disabled (hw : Within L k v w)
    (h : v.cc.enableJournal = false → v.cc.journal = [] ∧ v.cc.confEntries = [])
    (hoff : w.cc.enableJournal = false) : w.cc.journal = [] ∧ w.cc.confEntries = [] := by
  rw [hw.enableJournal] at hoff
  obtain ⟨hjournal, hentries⟩ := h hoff
  refine ⟨List.eq_nil_iff_forall_not_mem.mpr fun i hi => ?_,
    List.eq_nil_iff_forall_not_mem.mpr fun ce hce => ?_⟩
  · rcases hw.mem_journal hi with hold | ⟨hon, _⟩
    · rw [hjournal] at hold
      cases hold
    · rw [hoff] at hon
      cases hon
  · rcases hw.mem_confEntries hce with hold | ⟨hon, _⟩
    · rw [hentries] at hold
      cases hold
    · rw [hoff] at hon
      cases hon

/-- The current pool is on record where there is a journal. -/
theorem PoolsOk.current_held (h : PoolsOk w) {p : Nat} (hon : w.cc.enableJournal = true)
    (hp : w.cc.pool = some p) : p ∈ w.held := by
  rw [h.current hon] at hp
  exact List.mem_of_mem_head? hp

theorem PoolsOk.within (h : PoolsOk v) (hw : Within L k v w) : PoolsOk w where
  once := by rw [hw.deleted]; exact h.once
  old := by rw [hw.deleted, hw.created]; exact h.old
  distinct := by rw [hw.held]; exact h.distinct
  pools := by
    rw [hw.pools]
    intro p hp
    exact ⟨(h.pools p hp).1, hw.alive (h.pools p hp).2⟩
  pool := by
    rw [hw.pool]
    exact fun p hp => hw.alive (h.pool p hp)
  journal := by
    intro i hi
    rw [hw.held]
    rcases hw.mem_journal hi with hold | ⟨hon, hpool⟩
    · exact h.journal i hold
    · exact h.current_held hon hpool
  confEntries := by
    intro ce hce
    rw [hw.held]
    rcases hw.mem_confEntries hce with hold | ⟨hon, hpool⟩
    · exact h.confEntries ce hold
    · exact h.current_held hon hpool
  current := by
    rw [hw.enableJournal, hw.pool, hw.held]
    exact h.current
  disabled := hw.disabled h.disabled

/-! ## The ends of a transaction -/

theorem PoolsOk.fresh (h : PoolsOk v) : v.created ∉ v.deleted ∧ v.created ∉ v.held := by
  refine ⟨fun hin => absurd (h.old _ hin) (lt_irrefl _), fun hin => ?_⟩
  exact absurd (h.held_alive hin).1 (lt_irrefl _)

/-- An exchange leaves the items where they are. -/
theorem PoolsOk.swapped (h : PoolsOk v) : PoolsOk v.swapped where
  once := h.once
  old := h.old
  distinct := h.distinct
  pools := h.pools
  pool := h.pool
  journal := by
    intro i hi
    rcases exchange_owner _ _ _ i hi with ⟨i', hi', howner⟩ | hnone
    · rw [← howner]
      exact h.journal i' hi'
    · cases hnone
  confEntries := h.confEntries
  current := h.current
  disabled := by
    intro hoff
    obtain ⟨hjournal, hentries⟩ := h.disabled hoff
    refine ⟨?_, hentries⟩
    unfold World.swapped
    rw [hjournal]
    rfl

theorem PoolsOk.begun (h : PoolsOk v) : PoolsOk v.begun :=
  ⟨h.once, h.old, h.distinct, h.pools, h.pool, fun _ hi => absurd hi List.not_mem_nil,
    h.confEntries, h.current, fun hoff => ⟨rfl, (h.disabled hoff).2⟩⟩

theorem PoolsOk.joined (h : PoolsOk w) {oldj : List JournalItem}
    (hold : ∀ i ∈ oldj, i.owner ∈ w.held) (hoff : w.cc.enableJournal = false → oldj = []) :
    PoolsOk (w.joined oldj) := by
  refine ⟨h.once, h.old, h.distinct, h.pools, h.pool, fun i hi => ?_, h.confEntries, h.current,
    fun hdisabled => ⟨?_, (h.disabled hdisabled).2⟩⟩
  · rcases List.mem_append.mp hi with hi | hi
    · exact h.journal i hi
    · exact hold i hi
  · change w.cc.journal ++ oldj = []
    rw [(h.disabled hdisabled).1, hoff hdisabled]
    rfl

/-- Inside a transaction with a pool of its own, which is not yet on record. -/
structure PoolOpen (n : Nat) (w : World) : Prop where
  once : w.deleted.Nodup
  old : ∀ p ∈ w.deleted, p < w.created
  distinct : w.held.Nodup
  pools : ∀ p ∈ w.cc.pools, p.home = p.pool ∧ w.Alive p.pool
  pool : w.cc.pool = some n
  alive : w.Alive n
  fresh : n ∉ w.held
  journal : ∀ i ∈ w.cc.journal, i.owner = n
  confEntries : ∀ ce ∈ w.cc.confEntries, ce.pool ∈ w.held ∨ ce.pool = n
  disabled : w.cc.enableJournal = false → w.cc.journal = [] ∧ w.cc.confEntries = []

theorem PoolsOk.opened (h : PoolsOk v) : PoolOpen v.created v.opened where
  once := h.once
  old := fun p hp => Nat.lt_succ_of_lt (h.old p hp)
  distinct := h.distinct
  pools := fun p hp =>
    ⟨(h.pools p hp).1, Nat.lt_succ_of_lt (h.pools p hp).2.1, (h.pools p hp).2.2⟩
  pool := rfl
  alive := ⟨Nat.lt_succ_self _, h.fresh.1⟩
  fresh := h.fresh.2
  journal := fun _ hi => absurd hi List.not_mem_nil
  confEntries := fun ce hce => Or.inl (h.confEntries ce hce)
  disabled := fun hoff => ⟨rfl, (h.disabled hoff).2⟩

theorem PoolsOk.reopened (h : PoolsOk v) : PoolOpen v.created v.reopened :=
  let hopened := h.swapped.opened
  ⟨hopened.once, hopened.old, hopened.distinct, hopened.pools, rfl, hopened.alive, hopened.fresh,
    hopened.journal, fun _ hce => absurd hce List.not_mem_nil, fun _ => ⟨rfl, rfl⟩⟩

variable {n : Nat}

theorem PoolOpen.within (h : PoolOpen n v) (hw : Within L k v w) : PoolOpen n w where
  once := by rw [hw.deleted]; exact h.once
  old := by rw [hw.deleted, hw.created]; exact h.old
  distinct := by rw [hw.held]; exact h.distinct
  pools := by
    rw [hw.pools]
    intro p hp
    exact ⟨(h.pools p hp).1, hw.alive (h.pools p hp).2⟩
  pool := hw.pool.trans h.pool
  alive := hw.alive h.alive
  fresh := by rw [hw.held]; exact h.fresh
  journal := by
    intro i hi
    rcases hw.mem_journal hi with hold | ⟨_, hpool⟩
    · exact h.journal i hold
    · rw [h.pool] at hpool
      exact (Option.some.inj hpool).symm
  confEntries := by
    intro ce hce
    rw [hw.held]
    rcases hw.mem_confEntries hce with hold | ⟨_, hpool⟩
    · exact h.confEntries ce hold
    · rw [h.pool] at hpool
      exact Or.inr (Option.some.inj hpool).symm
  disabled := hw.disabled h.disabled

/-- The pool is recorded, with all that the transaction made. -/
theorem PoolOpen.recorded (h : PoolOpen n w) : PoolsOk w.recorded := by
  have hget : w.cc.pool.getD 0 = n := by rw [h.pool, Option.getD_some]
  have hheld : w.recorded.held = n :: w.held := by
    unfold World.held World.recorded
    rw [hget]
    rfl
  refine ⟨h.once, h.old, ?_, fun p hp => ?_, fun p hp => ?_, fun i hi => ?_, fun ce hce => ?_,
    fun _ => ?_, h.disabled⟩
  · rw [hheld]
    exact List.nodup_cons.mpr ⟨h.fresh, h.distinct⟩
  · rcases List.mem_cons.mp hp with rfl | hp
    · exact ⟨rfl, hget ▸ h.alive⟩
    · exact h.pools p hp
  · have hp : w.cc.pool = some p := hp
    rw [h.pool] at hp
    exact Option.some.inj hp ▸ h.alive
  · rw [hheld, h.journal i hi]
    exact List.mem_cons_self
  · rw [hheld]
    rcases h.confEntries ce hce with hold | hnew
    · exact List.mem_cons_of_mem _ hold
    · exact hnew ▸ List.mem_cons_self
  · rw [hheld]
    exact h.pool

/-- Without a journal the pool stays, and nothing is in it. -/
theorem PoolOpen.left (h : PoolOpen n w) (hoff : w.cc.enableJournal = false) : PoolsOk w := by
  obtain ⟨hjournal, hentries⟩ := h.disabled hoff
  refine ⟨h.once, h.old, h.distinct, h.pools, fun p hp => ?_, ?_, ?_, fun hon => ?_, h.disabled⟩
  · rw [h.pool] at hp
    exact Option.some.inj hp ▸ h.alive
  · rw [hjournal]
    exact fun _ hi => absurd hi List.not_mem_nil
  · rw [hentries]
    exact fun _ hi => absurd hi List.not_mem_nil
  · rw [hoff] at hon
    cases hon

/-- Another list of remembered sources. -/
def World.withEntries (w : World) (entries : List ConfEntry) : World :=
  { w with cc := { w.cc with confEntries := entries } }

/-- A rollback puts back what was there before, and the pool goes. -/
theorem PoolOpen.dropped (h : PoolOpen n w) (hon : w.cc.enableJournal = true)
    (oldj : List JournalItem) (entries : List ConfEntry) (hold : ∀ i ∈ oldj, i.owner ∈ w.held)
    (hentries : ∀ ce ∈ entries, ce.pool ∈ w.held) :
    PoolsOk ((w.restored oldj).poolDropped.withEntries entries) := by
  have hget : w.cc.pool.getD 0 = n := by rw [h.pool, Option.getD_some]
  have hdeleted : ((w.restored oldj).poolDropped.withEntries entries).deleted = n :: w.deleted :=
    congrArg (· :: w.deleted) hget
  have halive : ∀ p ∈ w.held, ((w.restored oldj).poolDropped.withEntries entries).Alive p := by
    intro p hp
    obtain ⟨record, hrecord, rfl⟩ := List.mem_map.mp hp
    obtain ⟨hcreated, hlive⟩ := (h.pools record hrecord).2
    refine ⟨hcreated, ?_⟩
    rw [hdeleted]
    refine List.not_mem_cons_of_ne_of_not_mem (fun heq => h.fresh ?_) hlive
    rw [← heq]
    exact hp
  refine ⟨?_, ?_, h.distinct, fun p hp => ?_, fun p hp => ?_, hold, hentries, fun _ => ?_,
    fun hoff => ?_⟩
  · rw [hdeleted]
    exact List.nodup_cons.mpr ⟨h.alive.2, h.once⟩
  · rw [hdeleted]
    intro p hp
    rcases List.mem_cons.mp hp with rfl | hp
    · exact h.alive.1
    · exact h.old p hp
  · exact ⟨(h.pools p hp).1, halive _ (List.mem_map_of_mem hp)⟩
  · have hhead : w.held.head? = some p := by
      unfold World.held
      rw [List.head?_map]
      exact hp
    exact halive p (List.mem_of_mem_head? hhead)
  · exact List.head?_map.symm
  · have hoff : w.cc.enableJournal = false := hoff
    rw [hon] at hoff
    cases hoff

/-! ## Old pools -/

@[simp]
theorem World.withoutAll_cc (w : World) (pools : List OldPool) :
    (w.withoutAll pools).cc = w.cc := by
  induction pools generalizing w with
  | nil => rfl
  | cons p pools ih => exact ih (w.without p.pool)

@[simp]
theorem World.withoutAll_created (w : World) (pools : List OldPool) :
    (w.withoutAll pools).created = w.created := by
  induction pools generalizing w with
  | nil => rfl
  | cons p pools ih => exact ih (w.without p.pool)

theorem World.withoutAll_deleted (w : World) (pools : List OldPool) :
    (w.withoutAll pools).deleted = (pools.map (·.pool)).reverse ++ w.deleted := by
  induction pools generalizing w with
  | nil => rfl
  | cons p pools ih =>
      rw [List.map_cons, List.reverse_cons, List.append_assoc]
      exact ih (w.without p.pool)

theorem World.emptied_deleted (w : World) : w.emptied.deleted = w.held.reverse ++ w.deleted :=
  w.withoutAll_deleted w.cc.pools

theorem World.emptied_alive {p : Nat} : w.emptied.Alive p ↔ w.Alive p ∧ p ∉ w.held := by
  unfold World.Alive
  rw [World.emptied_deleted, List.mem_append, List.mem_reverse]
  have hcreated : w.emptied.created = w.created := w.withoutAll_created _
  rw [hcreated]
  tauto

theorem World.emptied_once (hdeleted : w.deleted.Nodup) (hheld : w.held.Nodup)
    (halive : ∀ p ∈ w.held, w.Alive p) : w.emptied.deleted.Nodup := by
  rw [World.emptied_deleted]
  refine List.nodup_append.mpr ⟨List.nodup_reverse.mpr hheld, hdeleted, fun p hp q hq heq => ?_⟩
  rw [heq, List.mem_reverse] at hp
  exact (halive q hp).2 hq

theorem World.emptied_old (hold : ∀ p ∈ w.deleted, p < w.created)
    (halive : ∀ p ∈ w.held, w.Alive p) : ∀ p ∈ w.emptied.deleted, p < w.emptied.created := by
  intro p hp
  rw [World.emptied_deleted] at hp
  have hcreated : w.emptied.created = w.created := w.withoutAll_created _
  rw [hcreated]
  rcases List.mem_append.mp hp with hp | hp
  · exact (halive p (List.mem_reverse.mp hp)).1
  · exact hold p hp

/-- After a reload only the new pool is left. -/
theorem PoolOpen.emptied (h : PoolOpen n w) (hentries : ∀ ce ∈ w.cc.confEntries, ce.pool = n) :
    PoolOpen n w.emptied := by
  have halive : ∀ p ∈ w.held, w.Alive p := by
    intro p hp
    obtain ⟨record, hrecord, rfl⟩ := List.mem_map.mp hp
    exact (h.pools record hrecord).2
  refine ⟨World.emptied_once h.once h.distinct halive, World.emptied_old h.old halive,
    List.nodup_nil, fun _ hp => absurd hp List.not_mem_nil, h.pool,
    World.emptied_alive.mpr ⟨h.alive, h.fresh⟩, List.not_mem_nil, h.journal,
    fun ce hce => Or.inr (hentries ce hce), h.disabled⟩

/-- `cf_revert` where the current pool is not on record. -/
theorem PoolsOk.emptied (h : PoolsOk w) (hpool : ∀ p, w.cc.pool = some p → p ∉ w.held) :
    PoolsOk w.emptied := by
  have halive : ∀ p ∈ w.held, w.Alive p := fun p hp => h.held_alive hp
  have hnothing : w.cc.journal = [] ∧ w.cc.confEntries = [] := by
    cases hon : w.cc.enableJournal with
    | false => exact h.disabled hon
    | true =>
        have hheld : w.held = [] := by
          cases hcase : w.held with
          | nil => rfl
          | cons p rest =>
              have hcurrent := h.current hon
              rw [hcase] at hcurrent
              exact absurd (hcase ▸ List.mem_cons_self) (hpool p hcurrent)
        refine ⟨List.eq_nil_iff_forall_not_mem.mpr fun i hi => ?_,
          List.eq_nil_iff_forall_not_mem.mpr fun ce hce => ?_⟩
        · exact absurd (h.journal i hi) (hheld ▸ List.not_mem_nil)
        · exact absurd (h.confEntries ce hce) (hheld ▸ List.not_mem_nil)
  refine ⟨World.emptied_once h.once h.distinct halive, World.emptied_old h.old halive,
    List.nodup_nil, fun _ hp => absurd hp List.not_mem_nil, fun p hp => ?_, ?_, ?_, fun hon => ?_,
    fun _ => hnothing⟩
  · exact World.emptied_alive.mpr ⟨h.pool p hp, hpool p hp⟩
  · intro i hi
    have hi : i ∈ w.cc.journal := hi
    rw [hnothing.1] at hi
    cases hi
  · intro ce hce
    have hce : ce ∈ w.cc.confEntries := hce
    rw [hnothing.2] at hce
    cases hce
  · cases hpool' : w.cc.pool with
    | none => exact hpool'
    | some p => exact absurd (h.current_held hon hpool') (hpool p hpool')

/-! ## Calls -/

/-- The current pool is not one of those on record. -/
def PoolApart (w : World) : Prop := ∀ p, w.cc.pool = some p → p ∉ w.held

theorem cfLoad_poolsOk (env : Env) (h : PoolsOk v) (file : CStr) :
    Triple (fun _ => True) (· = v) (cfLoad env file) fun _ => PoolsOk := by
  have hsafe := Safe.empty env (fun _ => 0) v
  refine (cfLoad_triple hsafe (fun hL => absurd hL Set.not_nonempty_empty) file).weaken
    fun failed w hw => ?_
  obtain ⟨u, hu, hend⟩ := hw
  have hopen := h.opened.within hu
  cases failed with
  | true =>
      obtain ⟨hentries, rfl⟩ := hend
      unfold World.rolledBack
      cases hon : u.cc.enableJournal with
      | false => exact hopen.left hon
      | true =>
          refine hopen.dropped hon _ u.cc.confEntries (fun i hi => ?_) fun ce hce => ?_
          · rw [hu.held]
            exact h.journal i hi
          · rw [hentries] at hce
            rw [hu.held]
            exact h.confEntries ce hce
  | false =>
      refine PoolsOk.within (PoolsOk.joined hopen.recorded (fun i hi => ?_) fun hoff => ?_) hend
      · have hheld : i.owner ∈ u.held := hu.held ▸ h.journal i hi
        exact List.mem_cons_of_mem _ hheld
      · have hoff : u.cc.enableJournal = false := hoff
        rw [hu.enableJournal] at hoff
        exact (h.disabled hoff).1

theorem cfSet_poolsOk (env : Env) (h : PoolsOk v) (string : CStr) :
    Triple (fun _ => True) (· = v) (cfSet env string) fun _ => PoolsOk := by
  have hsafe := Safe.empty env (fun _ => 0) v
  refine (cfSet_triple hsafe (fun hL => absurd hL Set.not_nonempty_empty) string).weaken
    fun failed w hw => ?_
  obtain ⟨u, hu, hend⟩ := hw
  have hok := h.begun.within hu
  have hold : ∀ i ∈ v.cc.journal, i.owner ∈ u.held := fun i hi => hu.held ▸ h.journal i hi
  have hoff : u.cc.enableJournal = false → v.cc.journal = [] := by
    intro hoff
    rw [hu.enableJournal] at hoff
    exact (h.disabled hoff).1
  cases failed with
  | true =>
      obtain ⟨hentries, rfl⟩ := hend
      unfold World.rolledBack
      cases hon : u.cc.enableJournal with
      | false => exact hok
      | true =>
          exact ⟨hok.once, hok.old, hok.distinct, hok.pools, hok.pool, hold, hok.confEntries,
            hok.current, fun hdisabled => ⟨hoff hdisabled, (hok.disabled hdisabled).2⟩⟩
  | false => exact (hok.joined hold hoff).within hend

theorem cfReload_poolsOk (env : Env) (h : PoolsOk v) (file : Option CStr) :
    Triple (fun _ => True) (· = v) (cfReload env file) fun _ => PoolsOk := by
  have hsafe := Safe.empty env (fun _ => 0) v
  have hpools : Unpooled ∅ v := ⟨fun a ha => absurd ha (Set.notMem_empty a), fun _ _ _ _ => id⟩
  refine (cfReload_triple hsafe hpools file (fun hL => absurd hL Set.not_nonempty_empty)).weaken
    fun failed w hw => ?_
  obtain ⟨hon, u, hu, hend⟩ := hw
  have hopen := h.reopened.within hu
  have honu : u.cc.enableJournal = true := hu.enableJournal.trans hon
  cases failed with
  | true =>
      have hback := (hopen.dropped honu v.swapped.cc.journal v.cc.confEntries (fun i hi => ?_)
        fun ce hce => ?_).swapped
      · rw [if_pos rfl] at hend
        rw [hend]
        unfold World.reverted World.rolledBack
        rw [if_pos honu]
        exact hback
      · rw [hu.held]
        exact h.swapped.journal i hi
      · rw [hu.held]
        exact h.confEntries ce hce
  | false =>
      obtain ⟨u', hu', rfl⟩ := hend
      have hentries : ∀ ce ∈ u.cc.confEntries, ce.pool = v.created := by
        intro ce hce
        rcases hu.mem_confEntries hce with hold | ⟨_, hpool⟩
        · cases hold
        · exact (Option.some.inj hpool).symm
      have hrecorded := ((hopen.emptied hentries).within hu').recorded
      exact hrecorded.joined (fun _ hi => absurd hi List.not_mem_nil) fun _ => rfl

/-- Nothing is dead before a `cf_revert`, so it returns. -/
theorem deletePools_returns {pools : List OldPool} (hnodup : (pools.map (·.pool)).Nodup)
    (halive : ∀ p ∈ pools, p.home = p.pool ∧ p.pool ∉ v.deleted) :
    ∃ w, deletePools pools v = .ok ((), w) := by
  induction pools generalizing v with
  | nil => exact ⟨_, rfl⟩
  | cons p pools ih =>
      obtain ⟨hhome, hlive⟩ := halive p List.mem_cons_self
      rw [List.map_cons, List.nodup_cons] at hnodup
      have hrest : ∀ q ∈ pools, q.home = q.pool ∧ q.pool ∉ (v.without p.pool).deleted := by
        intro q hq
        obtain ⟨hhome', hlive'⟩ := halive q (List.mem_cons_of_mem p hq)
        refine ⟨hhome', List.not_mem_cons_of_ne_of_not_mem (fun heq => hnodup.1 ?_) hlive'⟩
        rw [← heq]
        exact List.mem_map_of_mem hq
      obtain ⟨w, hw⟩ := ih hnodup.2 hrest
      refine ⟨w, ?_⟩
      change (if p.home ∈ v.deleted then throw .deadPool else mpDelete p.pool >>= fun _ =>
        deletePools pools : Cf Unit) v = _
      rw [if_neg (hhome ▸ hlive)]
      exact hw

theorem cfRevert_returns (h : PoolsOk v) : cfRevert v = .ok ((), v.swapped.emptied) := by
  have hswap : cfJournalSwap v = .ok ((), v.swapped) := by
    change (if ∃ item ∈ v.cc.journal, item.owner ∈ v.deleted then throw .deadPool
      else set v.swapped : Cf Unit) v = _
    rw [if_neg]
    · rfl
    · rintro ⟨i, hi, hdead⟩
      exact (h.held_alive (h.journal i hi)).2 hdead
  obtain ⟨w, hw⟩ := deletePools_returns (v := v.swapped) h.distinct
    fun p hp => ⟨(h.pools p hp).1, (h.pools p hp).2.2⟩
  have hrun : cfRevert v = .ok ((), w) := by
    change (cfJournalSwap v >>= fun r => cfJournalDelete r.2) = _
    rw [hswap]
    exact hw
  rw [hrun, cfRevert_triple.returned rfl hrun]

/-- A call that keeps the pools in order: any but `cf_revert`, and that one too if the current pool
is not on record. -/
def KeepsPools (r : Except CfFault World) (e : Event) : Prop :=
  ∀ w, r = .ok w → e.call = .revert → PoolApart w

theorem callStep_poolsOk (h : PoolsOk v) {e : Event} (hcall : e.call = .revert → PoolApart v)
    (hstep : callStep env (.ok v) e = .ok w) : PoolsOk w := by
  obtain ⟨result, hrun⟩ := callStep_ok hstep
  obtain ⟨call, files⟩ := e
  cases call with
  | load file => exact (cfLoad_poolsOk _ h file).returned rfl hrun
  | set string => exact (cfSet_poolsOk _ h string).returned rfl hrun
  | reload file => exact (cfReload_poolsOk _ h file).returned rfl hrun
  | revert =>
      have hrevert : Triple (fun _ => True) (· = v) (cfRevert >>= fun _ => pure false)
          fun _ w => w = v.swapped.emptied :=
        cfRevert_triple.bind fun _ => Triple.pure fun _ hw => hw
      rw [hrevert.returned rfl hrun]
      exact h.swapped.emptied (hcall rfl)

/-- A `cf_revert` that deletes the current pool leaves it dangling. -/
theorem callStep_revert_dangles (env : Env) (h : PoolsOk v) (files : CStr → FileResult)
    (hpool : ¬ PoolApart v) :
    ∃ w, callStep env (.ok v) ⟨.revert, files⟩ = .ok w ∧ ¬ Owned w := by
  refine ⟨v.swapped.emptied, ?_, fun howned => hpool fun p hp => ?_⟩
  · change ((cfRevert v >>= fun r => pure (false, r.2)) >>= fun r => pure r.2) = _
    rw [cfRevert_returns h]
    rfl
  · exact (World.emptied_alive.mp (howned.pool p hp)).2

/-- A context before its first call. Other contexts may have created and deleted pools. -/
structure NewContext (w : World) : Prop where
  pool : w.cc.pool = none
  pools : w.cc.pools = []
  journal : w.cc.journal = []
  confEntries : w.cc.confEntries = []
  once : w.deleted.Nodup
  old : ∀ p ∈ w.deleted, p < w.created

theorem NewContext.poolsOk (h : NewContext w) : PoolsOk w := by
  have hheld : w.held = [] := by
    unfold World.held
    rw [h.pools]
    rfl
  refine ⟨h.once, h.old, ?_, ?_, ?_, ?_, ?_, fun _ => ?_, fun _ => ⟨h.journal, h.confEntries⟩⟩
  · rw [hheld]
    exact List.nodup_nil
  · rw [h.pools]
    exact fun _ hp => absurd hp List.not_mem_nil
  · rw [h.pool]
    exact nofun
  · rw [h.journal]
    exact fun _ hi => absurd hi List.not_mem_nil
  · rw [h.confEntries]
    exact fun _ hce => absurd hce List.not_mem_nil
  · rw [h.pool, hheld]
    rfl

/-- All that the context refers to stays alive along a history, if and only if no `cf_revert`
deletes the current pool. -/
theorem history_owned_iff (env : Env) (w : World) (hw : NewContext w) (events : List Event) :
    Runs.Throughout (callStep env) (Returned Owned) (.ok w) events ↔
      Runs.EachStep (callStep env) KeepsPools (.ok w) events := by
  have hlegal : Runs.EachStep (callStep env) (fun _ _ => True) (.ok w) events :=
    Runs.eachStep_const.mpr fun _ _ => trivial
  refine Runs.throughout_iff_eachStep (I := Returned PoolsOk) (fun r hr v hv => (hr v hv).owned)
    ?_ ?_ ?_ hlegal
  · intro r e hr _ hkeeps v hv
    cases r with
    | error fault => cases hv
    | ok u => exact callStep_poolsOk (hr u rfl) (hkeeps u rfl) hv
  · intro r e hr _ hkeeps howned
    cases r with
    | error fault =>
        refine hkeeps fun w hw => ?_
        cases hw
    | ok u =>
        simp only [KeepsPools, not_forall] at hkeeps
        obtain ⟨u', hu', hrevert, hpool⟩ := hkeeps
        cases hu'
        obtain ⟨call, files⟩ := e
        subst hrevert
        obtain ⟨v, hv, hdangles⟩ := callStep_revert_dangles env (hr u rfl) files hpool
        exact hdangles (howned v hv)
  · rintro v hv
    cases hv
    exact hw.poolsOk

theorem keepsPools_of_no_revert {events : List Event} {r : Except CfFault World}
    (h : ∀ e ∈ events, e.call ≠ .revert) : Runs.EachStep (callStep env) KeepsPools r events :=
  (Runs.eachStep_const.mpr h).imp fun _ _ he _ _ hrevert => absurd hrevert he

/-- A context before its first call, with memory in use at `0x1000`. -/
def newWorld : World :=
  { freshWorld with created := 0, cc := { freshWorld.cc with pool := none } }

/-- A file that sets `x`. -/
def xFiles : CStr → FileResult := fun _ => .contents (bytesOf ['x', ' ', '5'])

theorem newWorld_new : NewContext newWorld :=
  ⟨rfl, rfl, rfl, rfl, List.nodup_nil, fun _ hp => absurd hp List.not_mem_nil⟩

theorem history_owned_without_revert :
    NewContext newWorld ∧
      Runs.Throughout (callStep listEnv) (Returned Owned) (.ok newWorld)
        [⟨.load (bytesOf ['f']), xFiles⟩, ⟨.set (bytesOf ['x', ' ', '7']), xFiles⟩,
          ⟨.reload none, xFiles⟩] := by
  refine ⟨newWorld_new, (history_owned_iff listEnv newWorld newWorld_new _).mpr ?_⟩
  refine keepsPools_of_no_revert fun e he => ?_
  fin_cases he
  · exact nofun
  · exact nofun
  · exact nofun

/-- The current pool was deleted. -/
def poolDangles : Except CfFault World → Bool
  | .ok w => w.cc.pool.any (· ∈ w.deleted)
  | .error _ => false

theorem not_owned_of_dangles {r : Except CfFault World} (h : poolDangles r = true) :
    ¬ Returned Owned r := by
  intro howned
  cases r with
  | error fault => cases h
  | ok w =>
      obtain ⟨p, hp, hdead⟩ := (Option.any_eq_true _ _).mp h
      exact ((howned w rfl).pool p hp).2 (of_decide_eq_true hdead)

/-- A file is loaded and everything is reverted: the current pool is gone. -/
theorem revert_leaves_dead_pool :
    ¬ Runs.Throughout (callStep listEnv) (Returned Owned) (.ok newWorld)
      [⟨.load (bytesOf ['f']), xFiles⟩, ⟨.revert, xFiles⟩] := by
  intro h
  refine not_owned_of_dangles ?_ h.last
  decide +kernel

end OpenAAA.Opt
