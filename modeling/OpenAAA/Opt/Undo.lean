import OpenAAA.Opt.Input

/-!
What interpreting a configuration may change. Fix a world and a set of protected
addresses. A later world keeps the first if the journal has grown by entries of the
current pool that take memory back to what it was on the protected addresses, and if
nothing else of the context has changed. A program is tame if it leads from worlds that
keep the first to such worlds and does not stop at an `assert(0)`. It may write on
addresses that are free, that is not protected, or that are in the journal already.
-/

namespace OpenAAA.Opt

open Memory Alloc UndoLog Hoare

def range (p n : Nat) : Set Nat := { a | p ≤ a ∧ a < p + n }

/-- The address lies in a block that is in use. -/
def World.Live (w : World) (a : Nat) : Prop := ∃ b ∈ w.heap.blocks, a ∈ range b.1 b.2

/-- What no line of a configuration changes. -/
structure Fixed (w₀ w : World) : Prop where
  pool : w.cc.pool = w₀.cc.pool
  pools : w.cc.pools = w₀.cc.pools
  confEntries : w.cc.confEntries = w₀.cc.confEntries
  enableJournal : w.cc.enableJournal = w₀.cc.enableJournal
  postponeCommit : w.cc.postponeCommit = w₀.cc.postponeCommit
  sectionsInitialized : w.cc.sectionsInitialized = w₀.cc.sectionsInitialized
  created : w.created = w₀.created
  deleted : w.deleted = w₀.deleted

theorem Fixed.refl (w : World) : Fixed w w := ⟨rfl, rfl, rfl, rfl, rfl, rfl, rfl, rfl⟩

theorem Fixed.of_eq {w w' : World} (hcc : w'.cc = w.cc) (hcreated : w'.created = w.created)
    (hdeleted : w'.deleted = w.deleted) : Fixed w w' := by
  refine ⟨?_, ?_, ?_, ?_, ?_, ?_, hcreated, hdeleted⟩ <;> rw [hcc]

theorem Fixed.trans {w₀ w w' : World} (h : Fixed w₀ w) (h' : Fixed w w') : Fixed w₀ w' where
  pool := h'.pool.trans h.pool
  pools := h'.pools.trans h.pools
  confEntries := h'.confEntries.trans h.confEntries
  enableJournal := h'.enableJournal.trans h.enableJournal
  postponeCommit := h'.postponeCommit.trans h.postponeCommit
  sectionsInitialized := h'.sectionsInitialized.trans h.sectionsInitialized
  created := h'.created.trans h.created
  deleted := h'.deleted.trans h.deleted

/-- An entry of the journal may be made now. -/
structure Makes (w : World) (i : JournalItem) : Prop where
  enabled : w.cc.enableJournal = true
  pool : w.cc.pool = some i.owner
  alive : i.owner ∉ w.deleted

/-- The entries since `w₀` belong to its pool, and undoing them gives the protected bytes back. -/
structure Journalled (L : Set Nat) (w₀ w : World) (items : List JournalItem) : Prop where
  journal : w.cc.journal = items ++ w₀.cc.journal
  owner : ∀ i ∈ items, Makes w₀ i
  undone : w₀.cc.enableJournal = true → ∀ a ∈ L, undo items w.heap.mem a = w₀.heap.mem a

theorem Makes.back {w₀ w : World} {i : JournalItem} (h : Makes w i) (hfixed : Fixed w₀ w) :
    Makes w₀ i where
  enabled := hfixed.enableJournal.symm.trans h.enabled
  pool := hfixed.pool.symm.trans h.pool
  alive := hfixed.deleted ▸ h.alive

structure Keeps (L : Set Nat) (w₀ w : World) : Prop extends Fixed w₀ w where
  blocks : w₀.heap.blocks ⊆ w.heap.blocks
  owned : L.Nonempty → ∀ o ∈ w.owned, o ∈ w₀.owned ∨ ∀ a ∈ range o.2.1 o.2.2, ¬ w₀.Live a
  journalled : ∃ items, Journalled L w₀ w items

/-- An entry made since `w₀` has saved the byte at `a`. -/
def Saved (w₀ w : World) (a : Nat) : Prop :=
  ∃ items, w.cc.journal = items ++ w₀.cc.journal ∧ Covered items a

variable {L W : Set Nat} {w₀ w w' : World}

theorem Keeps.refl (L : Set Nat) (w : World) : Keeps L w w where
  toFixed := Fixed.refl w
  blocks := fun _ h => h
  owned := fun _ _ h => Or.inl h
  journalled := ⟨[], rfl, fun _ h => absurd h List.not_mem_nil, fun _ _ _ => rfl⟩

theorem World.Live.mono {a : Nat} (h : w.Live a) (hblocks : w.heap.blocks ⊆ w'.heap.blocks) :
    w'.Live a := by
  obtain ⟨b, hb, ha⟩ := h
  exact ⟨b, hblocks hb, ha⟩

/-- One more step: new entries that take the step back, except where older ones do. -/
theorem Keeps.step (items : List JournalItem) (h : Keeps L w₀ w) (hfixed : Fixed w w')
    (hblocks : w.heap.blocks ⊆ w'.heap.blocks)
    (howned : L.Nonempty → ∀ o ∈ w'.owned, o ∈ w.owned ∨ ∀ a ∈ range o.2.1 o.2.2, ¬ w₀.Live a)
    (hjournal : w'.cc.journal = items ++ w.cc.journal)
    (hitems : ∀ i ∈ items, Makes w i)
    (hmem : w.cc.enableJournal = true → ∀ a ∈ L,
      undo items w'.heap.mem a = w.heap.mem a ∨ Saved w₀ w a) : Keeps L w₀ w' := by
  refine ⟨h.toFixed.trans hfixed, fun b hb => hblocks (h.blocks hb), fun hL o ho => ?_, ?_⟩
  · rcases howned hL o ho with hold | hnew
    · exact h.owned hL o hold
    · exact Or.inr hnew
  · obtain ⟨older, hold⟩ := h.journalled
    refine ⟨items ++ older, ?_, fun i hi => ?_, fun hon a ha => ?_⟩
    · rw [hjournal, hold.journal, List.append_assoc]
    · rcases List.mem_append.mp hi with hi | hi
      · exact (hitems i hi).back h.toFixed
      · exact hold.owner i hi
    · rw [undo_append, ← hold.undone hon a ha]
      rcases hmem (h.enableJournal.trans hon) a ha with hback | ⟨older', hjournal', hcov⟩
      · exact undo_congr hback
      · have heq : older' = older := List.append_cancel_right (hjournal'.symm.trans hold.journal)
        exact undo_covered (heq ▸ hcov)

theorem Saved.mono {a : Nat} {items : List JournalItem} (h : Saved w₀ w a)
    (hjournal : w'.cc.journal = items ++ w.cc.journal) : Saved w₀ w' a := by
  obtain ⟨older, hold, e, he, hcov⟩ := h
  refine ⟨items ++ older, by rw [hjournal, hold, List.append_assoc], e, ?_, hcov⟩
  exact List.mem_append_right _ he

abbrev StackOf := ItemStack × List ItemStack

/-- The world keeps the first one, the addresses of `W` may be written, and the stack is as given. -/
structure Ctx (L W : Set Nat) (w₀ : World) (st : StackOf) (w : World) : Prop extends
    Keeps L w₀ w where
  writable : w₀.cc.enableJournal = true → ∀ a ∈ W, a ∈ L → Saved w₀ w a
  stack : (w.cc.top, w.cc.below) = st

theorem Ctx.mono {W' : Set Nat} {st : StackOf} (h : Ctx L W w₀ st w)
    (hsub : ∀ a ∈ W', a ∈ L → a ∈ W) : Ctx L W' w₀ st w :=
  ⟨h.toKeeps, fun hon a ha hL => h.writable hon a (hsub a ha hL) hL, h.stack⟩

/-- `Keeps.step` for worlds with permissions and a stack. -/
theorem Ctx.step (items : List JournalItem) {st : StackOf} (h : Ctx L W w₀ st w)
    (hfixed : Fixed w w') (hblocks : w.heap.blocks ⊆ w'.heap.blocks)
    (howned : L.Nonempty → ∀ o ∈ w'.owned, o ∈ w.owned ∨ ∀ a ∈ range o.2.1 o.2.2, ¬ w₀.Live a)
    (hjournal : w'.cc.journal = items ++ w.cc.journal)
    (hitems : ∀ i ∈ items, Makes w i)
    (hmem : w.cc.enableJournal = true → ∀ a ∈ L,
      undo items w'.heap.mem a = w.heap.mem a ∨ a ∈ W)
    (hstack : (w'.cc.top, w'.cc.below) = (w.cc.top, w.cc.below)) : Ctx L W w₀ st w' where
  toKeeps := h.toKeeps.step items hfixed hblocks howned hjournal hitems fun hon a ha =>
    (hmem hon a ha).imp_right fun hW => h.writable (h.enableJournal.symm.trans hon) a hW ha
  writable := fun hon a ha hL => (h.writable hon a ha hL).mono hjournal
  stack := hstack.trans h.stack

/-- The faults of the code around the interpreter. -/
def Calm (e : CfFault) : Prop := e ≠ .assertZero ∧ e ≠ .stack

instance : DecidablePred Calm := fun e =>
  inferInstanceAs (Decidable (e ≠ .assertZero ∧ e ≠ .stack))

def Tame {α : Type} (L W : Set Nat) (w₀ : World) (x : Cf α) (Q : α → Prop) : Prop :=
  ∀ st, Triple Calm (Ctx L W w₀ st) x fun a w => Ctx L W w₀ st w ∧ Q a

/-- Nothing to say about the result. -/
def Any {α : Type} : α → Prop := fun _ => True

section Rules

variable {α β : Type} {x : Cf α} {f : α → Cf β} {Q Q' : α → Prop} {R : β → Prop}

theorem Tame.pure {a : α} (h : Q a) : Tame L W w₀ (pure a) Q :=
  fun _ => Triple.pure fun _ hs => ⟨hs, h⟩

theorem Tame.throw {e : CfFault} (h : Calm e) :
    Tame L W w₀ (throw e : Cf α) Q :=
  fun _ => Triple.throw h

theorem Tame.bind (hx : Tame L W w₀ x Q) (hf : ∀ a, Q a → Tame L W w₀ (f a) R) :
    Tame L W w₀ (x >>= f) R :=
  fun st => (hx st).bind fun a => Triple.assume (fun ha => hf a ha st) fun _ hs => ⟨hs.2, hs.1⟩

theorem Tame.weaken (hx : Tame L W w₀ x Q) (hQ : ∀ a, Q a → Q' a) : Tame L W w₀ x Q' :=
  fun st => (hx st).weaken fun a _ hs => ⟨hs.1, hQ a hs.2⟩

theorem Tame.any (hx : Tame L W w₀ x Q) : Tame L W w₀ x Any := hx.weaken fun _ _ => trivial

theorem Tame.ite {c : Prop} [Decidable c] {y : Cf α} (hx : c → Tame L W w₀ x Q)
    (hy : ¬ c → Tame L W w₀ y Q) : Tame L W w₀ (if c then x else y) Q := by
  split
  · next hc => exact hx hc
  · next hc => exact hy hc

theorem Tame.state : Tame L W w₀ (get : Cf World) Any :=
  fun _ => Triple.get.weaken fun _ _ hs => ⟨hs.1, trivial⟩

/-- A program that looks at the world first. -/
theorem Tame.withState {f : World → Cf β} (h : ∀ w, Keeps L w₀ w → Tame L W w₀ (f w) R) :
    Tame L W w₀ (get >>= f) R :=
  fun st => Triple.get.bind fun v => Triple.assume (fun hv => h v hv st) fun _ hs =>
    ⟨hs.2 ▸ hs.1.toKeeps, hs.1⟩

theorem Tame.whenSet {flag : Bool} {x : Cf Unit} (hx : flag = true → Tame L W w₀ x Any) :
    Tame L W w₀ (whenSet flag x) Any := by
  cases flag with
  | true => exact hx rfl
  | false => exact Tame.pure trivial

end Rules

/-! ## The program around the parser -/

/-- The items of a section lie in its instances: `extent` bounds them, and a node of a list is at
least as large. A static array is no larger than what the journal can hold in one entry. -/
structure Env.Declared (env : Env) (extent : Nat → Nat) : Prop where
  static : ∀ s, ∀ ci ∈ (env.sections s).cfg, ∀ type, ci.cls = .static type →
    0 ≤ ci.number ∧ journalItemSize + ci.number * cfTypeSize env type < 2 ^ 32
  dynamic : ∀ s, ∀ ci ∈ (env.sections s).cfg, ∀ type, ci.cls = .dynamic type →
    ci.ptr + 8 ≤ extent s
  subsection : ∀ s, ∀ ci ∈ (env.sections s).cfg, ∀ sec, ci.cls = .section sec →
    ci.ptr + extent sec ≤ extent s
  list : ∀ s, ∀ ci ∈ (env.sections s).cfg, ∀ sec, ci.cls = .list sec → ci.ptr + 16 ≤ extent s
  node : ∀ s, ∀ ci ∈ (env.sections s).cfg, ∀ sec, ci.cls = .list sec →
    16 ≤ (env.sections sec).size ∧ extent sec ≤ (env.sections sec).size ∧
      (env.sections sec).size < 2 ^ 32

/-- The code saves what it overwrites, except on `W`. -/
def Journals (W : Set Nat) (code : UserCode) : Prop :=
  ∀ w r, code w = some r → w.cc.enableJournal = true → ∀ a, w.Live a → a ∉ W →
    undo (journalled w.cc r.saved) r.mem a = w.heap.mem a

/-- What `conf.h` asks of parsers, hooks and user types. -/
structure Env.UserJournals (env : Env) (extent : Nat → Nat) : Prop where
  parser : ∀ par pars ptr, Journals ∅ (env.parser par pars ptr)
  commit : ∀ sec ptr, Journals ∅ (env.commit sec ptr)
  init : ∀ sec ptr, Journals (range ptr (extent sec)) (env.init sec ptr)
  copy : ∀ sec dest src, Journals (range dest (env.sections sec).size) (env.copy sec dest src)
  utype : ∀ u str ptr, Journals (range ptr (env.utypeSize u)) (env.utypeParser u str ptr)

/-- What protects addresses. Nothing is asked where there are none. -/
structure Safe (env : Env) (extent : Nat → Nat) (L : Set Nat) (w₀ : World) : Prop where
  alloc : L.Nonempty → ∃ align, env.alloc.HandsOutFresh align
  declared : L.Nonempty → env.Declared extent
  user : L.Nonempty → env.UserJournals extent
  live : ∀ a ∈ L, w₀.Live a

theorem Safe.empty (env : Env) (extent : Nat → Nat) (w₀ : World) : Safe env extent ∅ w₀ where
  alloc := fun h => absurd h Set.not_nonempty_empty
  declared := fun h => absurd h Set.not_nonempty_empty
  user := fun h => absurd h Set.not_nonempty_empty
  live := fun _ ha => absurd ha (Set.notMem_empty _)

/-- No protected address in the range. -/
def Free (L : Set Nat) (p n : Nat) : Prop := ∀ a ∈ range p n, a ∉ L

/-- The range may be written. -/
def Writes (L W : Set Nat) (p n : Nat) : Prop := ∀ a ∈ range p n, a ∈ L → a ∈ W

theorem Free.writes {p n : Nat} (h : Free L p n) : Writes L W p n :=
  fun a ha hL => absurd hL (h a ha)

theorem range_subset {p n q k : Nat} (hlow : q ≤ p) (hhigh : p + n ≤ q + k) :
    ∀ a ∈ range p n, a ∈ range q k := by
  intro a ha
  exact ⟨hlow.trans ha.1, lt_of_lt_of_le ha.2 hhigh⟩

theorem Writes.sub {p n q k : Nat} (h : Writes L W q k) (hlow : q ≤ p) (hhigh : p + n ≤ q + k) :
    Writes L W p n :=
  fun a ha => h a (range_subset hlow hhigh a ha)

theorem Free.sub {p n q k : Nat} (h : Free L q k) (hlow : q ≤ p) (hhigh : p + n ≤ q + k) :
    Free L p n :=
  fun a ha => h a (range_subset hlow hhigh a ha)

/-- No address of the range was in use. -/
def Unused (L : Set Nat) (w₀ : World) (p n : Nat) : Prop :=
  L.Nonempty → ∀ a ∈ range p n, ¬ w₀.Live a

theorem Unused.free {env : Env} {extent : Nat → Nat} {p n : Nat} (hsafe : Safe env extent L w₀)
    (h : Unused L w₀ p n) : Free L p n :=
  fun a ha hL => h ⟨a, hL⟩ a ha (hsafe.live a hL)

/-! ## Memory and pools -/

section Primitives

variable {env : Env} {extent : Nat → Nat}

theorem loadAt_tame (p n : Nat) : Tame L W w₀ (loadAt p n) Any :=
  Tame.state.bind fun _ _ => Tame.pure trivial

/-- A change of memory alone. -/
theorem Ctx.setMem {st : StackOf} (h : Ctx L W w₀ st w) {m : Mem}
    (hm : ∀ a ∈ L, m a = w.heap.mem a ∨ a ∈ W) :
    Ctx L W w₀ st { w with heap := { w.heap with mem := m } } := by
  refine h.step [] (Fixed.of_eq rfl rfl rfl) (fun _ hb => hb) (fun _ _ ho => Or.inl ho) rfl
    (fun _ hi => absurd hi List.not_mem_nil) (fun _ a ha => hm a ha) rfl

theorem storeAt_tame {p n : Nat} (v : Nat) (h : Writes L W p n) :
    Tame L W w₀ (storeAt p n v) Any := by
  intro st w hw
  refine ⟨hw.setMem fun a ha => ?_, trivial⟩
  by_cases hin : a ∈ range p n
  · exact Or.inr (h a hin ha)
  · refine Or.inl (store_outside ?_)
    by_contra hout
    exact hin ⟨by omega, by omega⟩

theorem writeAt_tame {p : Nat} {bytes : List Byte} (h : Writes L W p bytes.length) :
    Tame L W w₀ (writeAt p bytes) Any := by
  intro st w hw
  refine ⟨hw.setMem fun a ha => ?_, trivial⟩
  by_cases hin : a ∈ range p bytes.length
  · exact Or.inr (h a hin ha)
  · refine Or.inl (write_changesOnly w.heap.mem p bytes a ?_)
    by_contra hout
    exact hin ⟨by omega, by omega⟩

theorem memset_tame {p n : Nat} (h : Writes L W p n) : Tame L W w₀ (memset p n) Any :=
  writeAt_tame (by rw [List.length_replicate]; exact h)

theorem memcpy_tame {dest src n : Nat} (h : Writes L W dest n) :
    Tame L W w₀ (memcpy dest src n) Any :=
  Tame.state.bind fun _ _ => writeAt_tame (by rw [read_length]; exact h)

theorem memAlloc_tame (hsafe : Safe env extent L w₀) (n : Nat) :
    Tame L W w₀ (memAlloc env n) fun p => Unused L w₀ p n := by
  intro st w hw
  unfold memAlloc Heap.malloc
  cases halloc : env.alloc w.heap.requests w.heap.blocks n with
  | none => exact ⟨nofun, nofun⟩
  | some p =>
      refine ⟨?_, fun hL a ha hlive => ?_⟩
      · exact hw.step [] (Fixed.of_eq rfl rfl rfl) (fun b hb => List.mem_cons_of_mem _ hb)
          (fun _ _ ho => Or.inl ho) rfl (fun _ hi => absurd hi List.not_mem_nil)
          (fun _ _ _ => Or.inl rfl) rfl
      · obtain ⟨align, hfresh⟩ := hsafe.alloc hL
        obtain ⟨b, hb, hab⟩ := hlive.mono hw.blocks
        have hapart := (hfresh _ _ _ _ halloc).2.2.2 b hb
        unfold Apart at hapart
        have hlow := ha.1
        have hhigh := ha.2
        have hblow := hab.1
        have hbhigh := hab.2
        omega

theorem mpAlloc_tame (hsafe : Safe env extent L w₀) (pool n : Nat) :
    Tame L W w₀ (mpAlloc env pool n) fun p => Unused L w₀ p n ∧ pool ∉ w₀.deleted := by
  refine Tame.withState fun v hv => Tame.ite (fun _ => Tame.throw (by decide)) fun hlive => ?_
  refine (memAlloc_tame hsafe n).bind fun p hp =>
    Tame.bind (Q := Any) ?_ fun _ _ => Tame.pure ⟨hp, hv.deleted ▸ hlive⟩
  intro st w hw
  refine ⟨hw.step [] (Fixed.of_eq rfl rfl rfl) (fun b hb => hb) (fun hL o ho => ?_) rfl
    (fun _ hi => absurd hi List.not_mem_nil) (fun _ _ _ => Or.inl rfl) rfl, trivial⟩
  rcases List.mem_cons.mp ho with rfl | ho
  · exact Or.inr (hp hL)
  · exact Or.inl ho

/-- There is a pool to allocate from. -/
def HasPool (w : World) : Prop := ∃ pool, w.cc.pool = some pool ∧ pool ∉ w.deleted

theorem poolAlloc_tame (hsafe : Safe env extent L w₀) (n : Nat) :
    Tame L W w₀ (poolAlloc env n) fun p => Unused L w₀ p n ∧ HasPool w₀ := by
  refine Tame.withState fun v hv => ?_
  cases hp : v.cc.pool with
  | none => exact Tame.throw (by decide)
  | some pool =>
      exact (mpAlloc_tame hsafe pool n).weaken fun p h =>
        ⟨h.1, pool, hv.pool.symm.trans hp, h.2⟩

theorem cfMalloc_tame (hsafe : Safe env extent L w₀) (size : Nat) :
    Tame L W w₀ (cfMalloc env size) fun p => Unused L w₀ p (size % 2 ^ 32) ∧ HasPool w₀ :=
  poolAlloc_tame hsafe _

theorem cfStrdup_tame (hsafe : Safe env extent L w₀) (s : CStr) :
    Tame L W w₀ (cfStrdup env s) Any := by
  refine (poolAlloc_tame hsafe _).bind fun p hp =>
    Tame.bind (Q := Any) ?_ fun _ _ => Tame.pure trivial
  refine writeAt_tame (Free.writes ((hp.1.free hsafe).sub le_rfl ?_))
  rw [List.length_take]
  omega

theorem cfPrintf_tame (hsafe : Safe env extent L w₀) (text : String) :
    Tame L W w₀ (cfPrintf env text) Any :=
  (poolAlloc_tame hsafe _).bind fun _ _ => Tame.pure trivial

/-- A block that is saved may be overwritten. -/
theorem Ctx.save {st : StackOf} {pool : Nat} (h : Ctx L W w₀ st w)
    (hon : w.cc.enableJournal = true) (hpool : w₀.cc.pool = some pool) (hlive : pool ∉ w₀.deleted)
    (p n : Nat) :
    Ctx L (W ∪ range p n) w₀ st { w with cc := { w.cc with
      journal := ⟨pool, p, Memory.read w.heap.mem p n⟩ :: w.cc.journal } } := by
  have hstep : Ctx L W w₀ st { w with cc := { w.cc with
      journal := ⟨pool, p, Memory.read w.heap.mem p n⟩ :: w.cc.journal } } := by
    refine h.step [⟨pool, p, Memory.read w.heap.mem p n⟩] ⟨rfl, rfl, rfl, rfl, rfl, rfl, rfl, rfl⟩
      (fun b hb => hb) (fun _ _ ho => Or.inl ho) rfl (fun i hi => ?_) (fun _ a _ => Or.inl ?_) rfl
    · rcases List.mem_singleton.mp hi with rfl
      exact ⟨hon, h.pool.trans hpool, h.deleted ▸ hlive⟩
    · rw [undo_saved]
      rfl
  obtain ⟨items, hitems⟩ := h.journalled
  refine ⟨hstep.toKeeps, fun hon a ha hL => ?_, hstep.stack⟩
  rcases ha with ha | ha
  · exact hstep.writable hon a ha hL
  · refine ⟨⟨pool, p, Memory.read w.heap.mem p n⟩ :: items, ?_, _, List.mem_cons_self, ha.1, ?_⟩
    · dsimp only
      rw [hitems.journal]
      rfl
    · dsimp only
      rw [read_length]
      exact ha.2

/-- After the call the block is in the journal. -/
theorem cfJournalBlock_saves (hsafe : Safe env extent L w₀) (p n : Nat) (st : StackOf) :
    Triple Calm (Ctx L W w₀ st) (cfJournalBlock env p n) fun _ => Ctx L (W ∪ range p n) w₀ st := by
  refine Triple.get.bind fun v => ?_
  cases hon : v.cc.enableJournal with
  | false =>
      refine Triple.pure fun w hw => ⟨hw.1.toKeeps, fun hon' => ?_, hw.1.stack⟩
      have hoff : w₀.cc.enableJournal = false := by
        rw [← hw.1.enableJournal, ← hw.2, hon]
      rw [hoff] at hon'
      cases hon'
  | true =>
      refine Triple.assume (φ := w₀.cc.enableJournal = true) (P := Ctx L W w₀ st) (fun hstart => ?_)
        fun w hw => ⟨by rw [← hw.1.enableJournal, ← hw.2, hon], hw.1⟩
      refine Triple.bind (cfMalloc_tame hsafe _ st) fun q => ?_
      refine Triple.ite (fun _ => Triple.throw (by decide)) fun _ => ?_
      refine Triple.modify fun w hw => ?_
      obtain ⟨hctx, _, pool, hpool, hlive⟩ := hw
      have hget : w.cc.pool.getD 0 = pool := by rw [hctx.pool, hpool, Option.getD_some]
      rw [hget]
      have hon' : w.cc.enableJournal = true := hctx.enableJournal.trans hstart
      exact hctx.save hon' hpool hlive p n

/-- The rest of a program may overwrite a block that it saves first. -/
theorem Tame.journal {α : Type} {x : Cf α} {Q : α → Prop} (hsafe : Safe env extent L w₀) (p n : Nat)
    (hx : Tame L (W ∪ range p n) w₀ x Q) :
    Tame L W w₀ (cfJournalBlock env p n >>= fun _ => x) Q :=
  fun st => (cfJournalBlock_saves hsafe p n st).bind fun _ =>
    (hx st).weaken fun _ _ hw => ⟨hw.1.mono fun _ ha _ => Or.inl ha, hw.2⟩

theorem mem_journalled {cc : CfContext} {saved : List (Nat × List Byte)} {i : JournalItem}
    (h : i ∈ journalled cc saved) : cc.enableJournal = true ∧ i.owner = cc.pool.getD 0 := by
  unfold journalled at h
  split at h
  · next hon =>
      obtain ⟨block, _, rfl⟩ := List.mem_map.mp h
      exact ⟨hon, rfl⟩
  · cases h

/-- User code that saves what it overwrites outside of `V`. -/
theorem Ctx.afterUser {st : StackOf} {code : UserCode} {V : Set Nat} {r : UserResult}
    (hsafe : Safe env extent L w₀) (h : Ctx L W w₀ st w) (hcode : L.Nonempty → Journals V code)
    (hV : ∀ a ∈ V, a ∈ L → a ∈ W) (hr : code w = some r)
    (hblocks : ∀ b ∈ r.fromPool ++ r.fromHeap, ∀ b' ∈ w.heap.blocks, Apart b'.1 b'.2 b.1 b.2)
    (hpool : ∀ i ∈ journalled w.cc r.saved, Makes w i) :
    Ctx L W w₀ st (w.afterUser r) := by
  refine h.step (journalled w.cc r.saved) ⟨rfl, rfl, rfl, rfl, rfl, rfl, rfl, rfl⟩
    (fun b hb => List.mem_append_right _ hb) (fun _ o ho => ?_) rfl hpool (fun hon a ha => ?_) rfl
  · rcases List.mem_append.mp ho with hnew | hold
    · obtain ⟨b, hb, rfl⟩ := List.mem_map.mp hnew
      refine Or.inr fun a hab hlive => ?_
      obtain ⟨b', hb', hab'⟩ := hlive.mono h.blocks
      have hapart := hblocks b (List.mem_append_left _ hb) b' hb'
      unfold Apart at hapart
      have hlow := hab.1
      have hhigh := hab.2
      have hlow' := hab'.1
      have hhigh' := hab'.2
      dsimp only at hlow hhigh
      omega
    · exact Or.inl hold
  · by_cases hin : a ∈ V
    · exact Or.inr (hV a hin ha)
    · exact Or.inl (hcode ⟨a, ha⟩ w r hr hon a ((hsafe.live a ha).mono h.blocks) hin)

theorem callUser_tame (hsafe : Safe env extent L w₀) {code : UserCode} {V : Set Nat}
    (hcode : L.Nonempty → Journals V code) (hV : ∀ a ∈ V, a ∈ L → a ∈ W) :
    Tame L W w₀ (callUser code) Any := by
  intro st w hw
  unfold callUser
  cases hr : code w with
  | none => exact ⟨nofun, nofun⟩
  | some r =>
      dsimp only
      by_cases hover : ∃ b ∈ r.fromPool ++ r.fromHeap, ∃ b' ∈ w.heap.blocks,
          ¬ Apart b'.1 b'.2 b.1 b.2
      · rw [if_pos hover]
        exact ⟨nofun, nofun⟩
      · rw [if_neg hover]
        have hblocks : ∀ b ∈ r.fromPool ++ r.fromHeap, ∀ b' ∈ w.heap.blocks,
            Apart b'.1 b'.2 b.1 b.2 := by
          intro b hb b' hb'
          by_contra hapart
          exact hover ⟨b, hb, b', hb', hapart⟩
        by_cases hnone : r.fromPool = [] ∧ journalled w.cc r.saved = []
        · rw [if_pos hnone]
          refine ⟨hw.afterUser hsafe hcode hV hr hblocks fun i hi => ?_, trivial⟩
          rw [hnone.2] at hi
          cases hi
        · rw [if_neg hnone]
          cases hp : w.cc.pool with
          | none => exact ⟨nofun, nofun⟩
          | some pool =>
              dsimp only
              by_cases hdead : pool ∈ w.deleted
              · rw [if_pos hdead]
                exact ⟨nofun, nofun⟩
              · rw [if_neg hdead]
                refine ⟨hw.afterUser hsafe hcode hV hr hblocks fun i hi => ?_, trivial⟩
                obtain ⟨hon, howner⟩ := mem_journalled hi
                rw [hp, Option.getD_some] at howner
                exact ⟨hon, howner ▸ hp, howner ▸ hdead⟩

end Primitives

end OpenAAA.Opt
