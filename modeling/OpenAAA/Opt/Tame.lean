import OpenAAA.Opt.Undo

/-!
The functions of the interpreter are tame: each of them saves what it overwrites, or
writes where its caller lets it.
-/

namespace OpenAAA.Opt

open Memory Alloc UndoLog Hoare

variable {L W : Set Nat} {w₀ : World} {env : Env} {extent : Nat → Nat}

-- A word that a condition compares with zero is not unfolded into its bytes.
attribute [local irreducible] load

theorem Writes.of_nonempty {p n : Nat} (h : L.Nonempty → Writes L W p n) : Writes L W p n :=
  fun a ha hL => h ⟨a, hL⟩ a ha hL

/-! ## Single values -/

theorem lookupError_tame (hsafe : Safe env extent L w₀) (str : CStr) (table : List CStr) :
    Tame L W w₀ (lookupError env str table) Any :=
  (cfMalloc_tame hsafe _).bind fun _ _ => Tame.pure trivial

theorem cfParseLookup_tame (hsafe : Safe env extent L w₀) (str : CStr) {ptr : Nat}
    (table : List CStr) (h : Writes L W ptr 4) :
    Tame L W w₀ (cfParseLookup env str ptr table) Any := by
  unfold cfParseLookup
  split
  · exact (storeAt_tame _ h).bind fun _ _ => Tame.pure trivial
  · exact (lookupError_tame hsafe str table).bind fun _ _ =>
      (storeAt_tame _ h).bind fun _ _ => Tame.pure trivial

theorem storeParsed_tame {ptr size : Nat} (value : Option Nat) (h : Writes L W ptr size) :
    Tame L W w₀ (storeParsed ptr size value) Any := by
  cases value with
  | some v => exact storeAt_tame v h
  | none => exact Tame.pure trivial

theorem parseElement_tame (hsafe : Safe env extent L w₀) (type : CfType) (str : CStr) {ptr : Nat}
    (h : Writes L W ptr (cfTypeSize env type)) :
    Tame L W w₀ (parseElement env type str ptr) Any := by
  cases type with
  | lookup table => exact cfParseLookup_tame hsafe str table h
  | user u => exact callUser_tame hsafe (fun hL => (hsafe.user hL).utype u str ptr) h
  | string =>
      exact (cfStrdup_tame hsafe str).bind fun _ _ =>
        (storeAt_tame _ h).bind fun _ _ => Tame.pure trivial
  | int => exact (storeParsed_tame _ h).bind fun _ _ => Tame.pure trivial
  | u64 => exact (storeParsed_tame _ h).bind fun _ _ => Tame.pure trivial
  | double => exact (storeParsed_tame _ h).bind fun _ _ => Tame.pure trivial
  | ip => exact (storeParsed_tame _ h).bind fun _ _ => Tame.pure trivial

theorem parseAryFrom_tame (hsafe : Safe env extent L w₀) {type : CfType} {ptr number k i : Nat}
    {pars : List CStr}
    (h : ∀ j, j < i + k → Writes L W (ptr + j * cfTypeSize env type % 2 ^ 32)
      (cfTypeSize env type)) :
    Tame L W w₀ (parseAryFrom env type ptr number k i pars) Any := by
  induction k generalizing i pars with
  | zero => exact Tame.pure trivial
  | succ k ih =>
      cases pars with
      | nil => exact Tame.throw (by decide)
      | cons str pars =>
          refine (parseElement_tame hsafe type str (h i (by omega))).bind fun msg _ => ?_
          cases msg with
          | none => exact ih fun j hj => h j (by omega)
          | some msg =>
              exact Tame.ite (fun _ => cfPrintf_tame hsafe _) fun _ => Tame.pure trivial

theorem cfParseAry_tame (hsafe : Safe env extent L w₀) {type : CfType} {ptr number : Nat}
    {pars : List CStr}
    (h : ∀ j < number, Writes L W (ptr + j * cfTypeSize env type % 2 ^ 32) (cfTypeSize env type)) :
    Tame L W w₀ (cfParseAry env number pars ptr type) Any :=
  parseAryFrom_tame hsafe fun j hj => h j (by omega)

/-- The elements of an array lie in the room for them, wherever its offsets wrap. -/
theorem Writes.elements {ptr number size : Nat} (h : Writes L W ptr (number * size)) :
    ∀ j < number, Writes L W (ptr + j * size % 2 ^ 32) size := by
  intro j hj
  have hmod : j * size % 2 ^ 32 ≤ j * size := Nat.mod_le _ _
  have hroom : j * size + size ≤ number * size := by
    calc j * size + size = (j + 1) * size := by ring
      _ ≤ number * size := Nat.mul_le_mul_right _ hj
  exact h.sub (by omega) (by omega)

/-! ## Dynamic arrays -/

theorem garyInit_tame (hsafe : Safe env extent L w₀) (size elts : Nat) :
    Tame L W w₀ (garyInit env size elts) fun p => Free L p (elts * size) := by
  refine (memAlloc_tame hsafe _).bind fun h hh => ?_
  have hfree := hh.free hsafe
  have hhdr : garyHdrSize = 32 := rfl
  rw [hhdr] at hfree
  refine (storeAt_tame _ (hfree.sub le_rfl (by omega)).writes).bind fun _ _ => ?_
  refine (storeAt_tame _ (hfree.sub (by omega) (by omega)).writes).bind fun _ _ => ?_
  refine (storeAt_tame _ (hfree.sub (by omega) (by omega)).writes).bind fun _ _ => ?_
  refine (storeAt_tame _ (hfree.sub (by omega) (by omega)).writes).bind fun _ _ => ?_
  exact Tame.pure (hfree.sub (by omega) (by rw [hhdr, Nat.mul_comm elts]; omega))

theorem interpretSetDynamic_tame (hsafe : Safe env extent L w₀) (type : CfType) (number : Nat)
    (pars : List CStr) (ptr : Nat) :
    Tame L W w₀ (interpretSetDynamic env type number pars ptr) Any := by
  refine Tame.journal hsafe ptr 8 ?_
  refine (garyInit_tame hsafe _ number).bind fun p hp => ?_
  refine (storeAt_tame _ fun a ha _ => Or.inr ha).bind fun _ _ => ?_
  exact cfParseAry_tame hsafe (Writes.elements hp.writes)

theorem fillDynamic_tame (hsafe : Safe env extent L w₀) (type : CfType) {taken : Int}
    (pars : List CStr) (oldP : Nat) {oldNr newP : Nat} (op : CfOperation)
    (hfree : Free L newP ((oldNr + taken).toNat * cfTypeSize env type)) :
    Tame L W w₀ (fillDynamic env type taken pars oldP oldNr newP op) Any := by
  unfold fillDynamic
  dsimp only
  generalize hsize : cfTypeSize env type = size at hfree
  -- the room for the new elements comes after, or before, that for the old ones
  have hroom : ∀ n : Nat, taken = n →
      (oldNr + taken).toNat * size = oldNr * size + n * size := by
    intro n hn
    have hnat : (oldNr + taken).toNat = oldNr + n := by omega
    rw [hnat, Nat.add_mul]
  have hold : oldNr * size % 2 ^ 32 ≤ oldNr * size := Nat.mod_le _ _
  refine Tame.ite (fun _ => Tame.ite (fun _ => Tame.throw (by decide)) fun hpos => ?_) fun _ =>
    Tame.ite (fun _ => Tame.ite (fun _ => Tame.throw (by decide)) fun hpos => ?_) fun _ =>
      cfPrintf_tame hsafe _
  · rw [hroom taken.toNat (by omega)] at hfree
    refine (memcpy_tame (hfree.sub le_rfl (by omega)).writes).bind fun _ _ => ?_
    refine cfParseAry_tame hsafe ?_
    rw [hsize]
    exact Writes.elements (hfree.sub (by omega) (by omega)).writes
  · rw [hroom taken.toNat (by omega)] at hfree
    have hnew : taken.toNat * size % 2 ^ 32 ≤ taken.toNat * size := Nat.mod_le _ _
    refine (memcpy_tame (hfree.sub (by omega) (by omega)).writes).bind fun _ _ => ?_
    refine cfParseAry_tame hsafe ?_
    rw [hsize]
    exact Writes.elements (hfree.sub le_rfl (by omega)).writes

theorem interpretAddDynamic_tame (hsafe : Safe env extent L w₀) (item : CfItem) (type : CfType)
    (number : Int) (pars : List CStr) (ptr : Nat) (op : CfOperation) :
    Tame L W w₀ (interpretAddDynamic env item type number pars ptr op) Any := by
  refine (loadAt_tame ptr 8).bind fun oldP _ => ?_
  refine Tame.ite (fun _ => Tame.throw (by decide)) fun _ => ?_
  refine (loadAt_tame _ 8).bind fun elts _ => ?_
  refine Tame.ite (fun _ => Tame.throw (by decide)) fun _ => ?_
  refine (garyInit_tame hsafe _ _).bind fun newP hnew => ?_
  refine Tame.journal hsafe ptr 8 ?_
  refine (storeAt_tame _ fun a ha _ => Or.inr ha).bind fun _ _ => ?_
  exact (fillDynamic_tame hsafe type pars oldP op hnew).bind fun _ _ => Tame.pure trivial

/-! ## Lists -/

/-- Memory is as given. -/
def HasMem (m : Mem) (w : World) : Prop := w.heap.mem = m

/-- A program all of whose steps depend on what memory holds. -/
theorem Tame.withMem {α : Type} {x : Cf α} {Q : α → Prop}
    (h : ∀ m st, Triple Calm (fun w => Ctx L W w₀ st w ∧ HasMem m w) x fun a w =>
      Ctx L W w₀ st w ∧ Q a) : Tame L W w₀ x Q :=
  fun st w hw => h w.heap.mem st w ⟨hw, rfl⟩

theorem loadAt_value {P : World → Prop} {m : Mem} (p n : Nat) :
    Triple Calm (fun w => P w ∧ HasMem m w) (loadAt p n) fun v w =>
      v = load m p n ∧ P w ∧ HasMem m w :=
  Triple.get.bind fun v => Triple.pure fun w hw => by
    obtain ⟨⟨hP, hm⟩, rfl⟩ := hw
    exact ⟨by rw [hm], hP, hm⟩

theorem memAlloc_mem (env : Env) (m : Mem) (n : Nat) :
    Triple (fun _ => True) (HasMem m) (memAlloc env n) fun _ => HasMem m := by
  intro w hw
  unfold memAlloc Heap.malloc
  cases env.alloc w.heap.requests w.heap.blocks n with
  | none => trivial
  | some p => exact hw

theorem poolAlloc_mem (env : Env) (m : Mem) (n : Nat) :
    Triple (fun _ => True) (HasMem m) (poolAlloc env n) fun _ => HasMem m := by
  refine (Triple.get.weaken fun _ _ hw => hw.1).bind fun v => ?_
  cases v.cc.pool with
  | none => exact Triple.throw trivial
  | some pool =>
      refine (Triple.get.weaken fun _ _ hw => hw.1).bind fun v => ?_
      refine Triple.ite (fun _ => Triple.throw trivial) fun _ => ?_
      refine (memAlloc_mem env m n).bind fun p => ?_
      refine Triple.bind (Q := fun _ => HasMem m) (Triple.modify fun _ hw => hw) fun _ => ?_
      exact Triple.pure fun _ hw => hw

theorem cfJournalBlock_mem (env : Env) (m : Mem) (p n : Nat) :
    Triple (fun _ => True) (HasMem m) (cfJournalBlock env p n) fun _ => HasMem m := by
  refine (Triple.get.weaken fun _ _ hw => hw.1).bind fun v => ?_
  cases v.cc.enableJournal with
  | false => exact Triple.pure fun _ hw => hw
  | true =>
      refine (poolAlloc_mem env m _).bind fun _ => ?_
      exact Triple.ite (fun _ => Triple.throw trivial) fun _ => Triple.modify fun _ hw => hw

/-- Two blocks are saved, and memory is still as it was. -/
theorem saveTwo {st : StackOf} {m : Mem} (hsafe : Safe env extent L w₀) (p n q k : Nat) {x : Cf Unit}
    (hx : Triple Calm (fun w => Ctx L (W ∪ range p n ∪ range q k) w₀ st w ∧ HasMem m w) x
      fun _ => Ctx L (W ∪ range p n ∪ range q k) w₀ st) :
    Triple Calm (fun w => Ctx L W w₀ st w ∧ HasMem m w)
      (cfJournalBlock env p n >>= fun _ => cfJournalBlock env q k >>= fun _ => x)
      fun _ w => Ctx L W w₀ st w ∧ Any () := by
  refine ((cfJournalBlock_saves hsafe p n st).both (cfJournalBlock_mem env m p n)).bind fun _ => ?_
  refine ((cfJournalBlock_saves hsafe q k st).both (cfJournalBlock_mem env m q k)).bind fun _ => ?_
  exact hx.weaken fun _ w hw => ⟨hw.mono fun a ha _ => Or.inl (Or.inl ha), trivial⟩

theorem listInit_tame {p : Nat} (h : Writes L W p 16) : Tame L W w₀ (listInit p) Any :=
  (storeAt_tame _ (h.sub (by omega) (by omega))).bind fun _ _ =>
    storeAt_tame _ (h.sub le_rfl (by omega))

/-- The two blocks that a link is stored in. -/
theorem linkNodes_tame {what p q next prev : Nat} (hwhat : Writes L W what 16)
    (hp : Writes L W p 8) (hq : Writes L W q 8) :
    Tame L W w₀ (storeAt what 8 next >>= fun _ => storeAt (what + 8) 8 prev >>= fun _ =>
      storeAt p 8 what >>= fun _ => storeAt q 8 what) Any :=
  (storeAt_tame _ (hwhat.sub le_rfl (by omega))).bind fun _ _ =>
    (storeAt_tame _ (hwhat.sub (by omega) (by omega))).bind fun _ _ =>
      (storeAt_tame _ hp).bind fun _ _ => storeAt_tame _ hq

/-- The operations that `add_to_list` knows. -/
def CfOperation.OnList (op : CfOperation) : Prop :=
  op ≠ .close ∧ op ≠ .clear ∧ op ≠ .all ∧ op ≠ .reset

theorem insertAfter_tame (hsafe : Safe env extent L w₀) {place node : Nat}
    (hnode : Writes L W node 16) :
    Tame L W w₀ (loadAt place 8 >>= fun next => cfJournalBlock env (next + 8) 8 >>= fun _ =>
      cfJournalBlock env place 8 >>= fun _ => listInsertAfter node place) Any := by
  refine Tame.withMem fun m st => (loadAt_value place 8).bind fun next => ?_
  refine Triple.assume (fun hnext => ?_) fun _ hw => hw
  refine saveTwo hsafe _ _ _ _ ((loadAt_value place 8).bind fun before => ?_)
  refine Triple.assume (fun hbefore => ?_) fun _ hw => hw
  rw [hbefore, ← hnext]
  refine ((linkNodes_tame ?_ ?_ ?_ st).strengthen fun _ hw => hw.1).weaken fun _ _ hw => hw.1
  · exact fun a ha hL => Or.inl (Or.inl (hnode a ha hL))
  · exact fun a ha _ => Or.inl (Or.inr ha)
  · exact fun a ha _ => Or.inr ha

theorem insertBefore_tame (hsafe : Safe env extent L w₀) {place node : Nat}
    (hnode : Writes L W node 16) :
    Tame L W w₀ (loadAt (place + 8) 8 >>= fun prev => cfJournalBlock env prev 8 >>= fun _ =>
      cfJournalBlock env (place + 8) 8 >>= fun _ => listInsertBefore node place) Any := by
  refine Tame.withMem fun m st => (loadAt_value (place + 8) 8).bind fun prev => ?_
  refine Triple.assume (fun hprev => ?_) fun _ hw => hw
  refine saveTwo hsafe _ _ _ _ ((loadAt_value (place + 8) 8).bind fun after => ?_)
  refine Triple.assume (fun hafter => ?_) fun _ hw => hw
  rw [hafter, ← hprev]
  refine ((linkNodes_tame ?_ ?_ ?_ st).strengthen fun _ hw => hw.1).weaken fun _ _ hw => hw.1
  · exact fun a ha hL => Or.inl (Or.inl (hnode a ha hL))
  · exact fun a ha _ => Or.inr ha
  · exact fun a ha _ => Or.inl (Or.inr ha)

theorem removeNode_tame (hsafe : Safe env extent L w₀) (place : Nat) :
    Tame L W w₀ (loadAt (place + 8) 8 >>= fun prev => cfJournalBlock env prev 8 >>= fun _ =>
      loadAt place 8 >>= fun next => cfJournalBlock env (next + 8) 8 >>= fun _ =>
        listRemove place) Any := by
  refine Tame.withMem fun m st => (loadAt_value (place + 8) 8).bind fun prev => ?_
  refine Triple.assume (fun hprev => ?_) fun _ hw => hw
  refine ((cfJournalBlock_saves hsafe prev 8 st).both (cfJournalBlock_mem env m prev 8)).bind
    fun _ => ?_
  refine (loadAt_value place 8).bind fun next => Triple.assume (fun hnext => ?_) fun _ hw => hw
  refine ((cfJournalBlock_saves hsafe (next + 8) 8 st).both
    (cfJournalBlock_mem env m (next + 8) 8)).bind fun _ => ?_
  refine (loadAt_value (place + 8) 8).bind fun before => Triple.assume (fun hbefore => ?_)
    fun _ hw => hw
  refine (loadAt_value place 8).bind fun after => Triple.assume (fun hafter => ?_) fun _ hw => hw
  rw [hbefore, hafter, ← hprev, ← hnext]
  have hlink : Tame L (W ∪ range prev 8 ∪ range (next + 8) 8) w₀
      (storeAt prev 8 next >>= fun _ => storeAt (next + 8) 8 prev) Any :=
    (storeAt_tame _ fun a ha _ => Or.inl (Or.inr ha)).bind fun _ _ =>
      storeAt_tame _ fun a ha _ => Or.inr ha
  refine ((hlink st).strengthen fun _ hw => hw.1).weaken fun _ _ hw => ⟨hw.1.mono ?_, trivial⟩
  exact fun a ha _ => Or.inl (Or.inl ha)

theorem addToList_tame (hsafe : Safe env extent L w₀) (place : Nat) {node : Nat}
    {op : CfOperation} (hop : op.OnList) (hnode : op ≠ .edit → op ≠ .remove → Writes L W node 16) :
    Tame L W w₀ (addToList env place node op) Any := by
  cases op with
  | edit => exact Tame.pure trivial
  | remove => exact removeNode_tame hsafe place
  | after => exact insertAfter_tame hsafe (hnode nofun nofun)
  | prepend => exact insertAfter_tame hsafe (hnode nofun nofun)
  | copy => exact insertAfter_tame hsafe (hnode nofun nofun)
  | before => exact insertBefore_tame hsafe (hnode nofun nofun)
  | append => exact insertBefore_tame hsafe (hnode nofun nofun)
  | set => exact insertBefore_tame hsafe (hnode nofun nofun)
  | close => exact absurd rfl hop.1
  | clear => exact absurd rfl hop.2.1
  | all => exact absurd rfl hop.2.2.1
  | reset => exact absurd rfl hop.2.2.2

/-! ## Initialisation of sections -/

theorem initDynamic_tame {p : Nat} (h : Writes L W p 8) : Tame L W w₀ (initDynamic env p) Any :=
  (loadAt_tame p 8).bind fun _ _ =>
    Tame.ite (fun _ => storeAt_tame _ h) fun _ => Tame.pure trivial

theorem runInit_tame (hsafe : Safe env extent L w₀) {sec ptr : Nat}
    (h : Writes L W ptr (extent sec)) : Tame L W w₀ (runInit env sec ptr) Any := by
  refine Tame.ite (fun _ => ?_) fun _ => Tame.pure trivial
  refine (callUser_tame hsafe (fun hL => (hsafe.user hL).init sec ptr) h).bind fun msg _ => ?_
  cases msg with
  | none => exact Tame.pure trivial
  | some msg => exact Tame.throw (by decide)

theorem initItem_tame (hsafe : Safe env extent L w₀) {initSection : CStr → Nat → Nat → Cf Unit}
    (hinit : ∀ name sec ptr, Writes L W ptr (extent sec) →
      Tame L W w₀ (initSection name sec ptr) Any)
    {s ptr : Nat} {ci : CfItem} (hci : ci ∈ (env.sections s).cfg)
    (h : Writes L W ptr (extent s)) : Tame L W w₀ (initItem env initSection ptr ci) Any := by
  unfold initItem
  cases hcls : ci.cls with
  | «section» sec =>
      refine hinit ci.name sec _ (Writes.of_nonempty fun hL => h.sub (by omega) ?_)
      have hfit := (hsafe.declared hL).subsection s ci hci sec hcls
      omega
  | list sec =>
      refine listInit_tame (Writes.of_nonempty fun hL => h.sub (by omega) ?_)
      have hfit := (hsafe.declared hL).list s ci hci sec hcls
      omega
  | dynamic type =>
      refine initDynamic_tame (Writes.of_nonempty fun hL => h.sub (by omega) ?_)
      have hfit := (hsafe.declared hL).dynamic s ci hci type hcls
      omega
  | static type => exact Tame.pure trivial
  | parser par => exact Tame.pure trivial
  | bitmap type => exact Tame.pure trivial

theorem initItems_tame (hsafe : Safe env extent L w₀) {initSection : CStr → Nat → Nat → Cf Unit}
    (hinit : ∀ name sec ptr, Writes L W ptr (extent sec) →
      Tame L W w₀ (initSection name sec ptr) Any)
    {s ptr : Nat} {items : List CfItem} (hitems : ∀ ci ∈ items, ci ∈ (env.sections s).cfg)
    (h : Writes L W ptr (extent s)) : Tame L W w₀ (initItems env initSection ptr items) Any := by
  induction items with
  | nil => exact Tame.pure trivial
  | cons ci items ih =>
      refine (initItem_tame hsafe hinit (hitems ci List.mem_cons_self) h).bind fun _ _ => ?_
      exact ih fun ci' hci' => hitems ci' (List.mem_cons_of_mem ci hci')

theorem initFields_tame (hsafe : Safe env extent L w₀) (fuel : Nat) (name : CStr) {sec ptr : Nat}
    (h : Writes L W ptr (extent sec)) : Tame L W w₀ (initFields env fuel name sec ptr) Any := by
  induction fuel generalizing name sec ptr with
  | zero => exact Tame.throw (by decide)
  | succ fuel ih =>
      refine (initItems_tame hsafe (fun name sec ptr hw => ih name hw) (fun _ hci => hci) h).bind
        fun _ _ => ?_
      exact runInit_tame hsafe h

/-- A whole node is initialised. -/
theorem cfInitSection_tame (hsafe : Safe env extent L w₀) (name : CStr) {sec ptr : Nat}
    (h : Writes L W ptr (env.sections sec).size)
    (hextent : L.Nonempty → extent sec ≤ (env.sections sec).size) :
    Tame L W w₀ (cfInitSection env name sec ptr true) Any := by
  refine Tame.bind (Q := Any) (Tame.whenSet fun _ => ?_) fun _ _ => ?_
  · exact Tame.ite (fun _ => Tame.throw (by decide)) fun _ => memset_tame h
  · refine initFields_tame hsafe _ name (Writes.of_nonempty fun hL => h.sub le_rfl ?_)
    have hfit := hextent hL
    omega

/-! ## Items -/

/-- The item is declared in some section. -/
def Declares (env : Env) (item : CfItem) : Prop := ∃ s, item ∈ (env.sections s).cfg

theorem cfAddDirtyTo_tame (sec ptr : Nat) : Tame L W w₀ (cfAddDirtyTo sec ptr) Any := by
  intro st w hw
  refine ⟨hw.step [] ⟨rfl, rfl, rfl, rfl, rfl, rfl, rfl, rfl⟩ (fun _ hb => hb)
    (fun _ _ ho => Or.inl ho) rfl (fun _ hi => absurd hi List.not_mem_nil)
    (fun _ _ _ => Or.inl rfl) rfl, trivial⟩

/-- An interpreter of declared items that is tame and takes no more parameters than there are. -/
def TameItems (L W : Set Nat) (w₀ : World) (env : Env) (setItem : SetItem) : Prop :=
  ∀ item, Declares env item → ∀ number, 0 ≤ number → ∀ pars ptr allowDynamic,
    Tame L W w₀ (setItem item number pars ptr allowDynamic) fun r => r.2 ≤ number

theorem interpretItems_tame (hsafe : Safe env extent L w₀) {setItem : SetItem}
    (hset : TameItems L W w₀ env setItem) {items : List CfItem}
    (hitems : ∀ ci ∈ items, Declares env ci) (ptr : Nat) (allowDynamic : Bool) {number : Int}
    (hnumber : 0 ≤ number) (pars : List CStr) (processed : Int) :
    Tame L W w₀ (interpretItems env setItem ptr allowDynamic items number pars processed) fun r =>
      r.2 ≤ processed + number := by
  induction items generalizing number pars processed with
  | nil => exact Tame.pure (by dsimp only; omega)
  | cons ci rest ih =>
      refine (hset ci (hitems ci List.mem_cons_self) number hnumber _ _ _).bind
        fun result htaken => ?_
      obtain ⟨msg, taken⟩ := result
      dsimp only at htaken
      cases msg with
      | some msg =>
          exact (cfPrintf_tame hsafe _).bind fun _ _ => Tame.pure (by dsimp only; omega)
      | none =>
          refine Tame.ite (fun _ => Tame.pure (by dsimp only; omega)) fun _ => ?_
          refine (ih (fun ci' hci' => hitems ci' (List.mem_cons_of_mem ci hci')) (by omega) _ _).weaken
            fun r hr => ?_
          omega

theorem interpretSectionWith_tame (hsafe : Safe env extent L w₀) {setItem : SetItem}
    (hset : TameItems L W w₀ env setItem) (sec : Nat) {number : Int} (hnumber : 0 ≤ number)
    (pars : List CStr) (ptr : Nat) (allowDynamic : Bool) :
    Tame L W w₀ (interpretSectionWith env setItem sec number pars ptr allowDynamic) fun r =>
      r.2 ≤ number :=
  (cfAddDirtyTo_tame sec ptr).bind fun _ _ =>
    (interpretItems_tame hsafe hset (fun _ hci => ⟨sec, hci⟩) ptr allowDynamic hnumber pars
      0).weaken fun r hr => by omega

/-- A node for a list: its memory is unused, and it is as large as a section asks for. -/
theorem nodeAlloc_tame (hsafe : Safe env extent L w₀) {item : CfItem} {sec : Nat}
    (hitem : Declares env item) (hcls : item.cls = .list sec) :
    Tame L W w₀ (cfMalloc env (env.sections sec).size) fun node =>
      Free L node (env.sections sec).size := by
  refine (cfMalloc_tame hsafe _).weaken fun node hnode a ha hL => ?_
  obtain ⟨s, hs⟩ := hitem
  have hsize := ((hsafe.declared ⟨a, hL⟩).node s item hs sec hcls).2.2
  have hfree := hnode.1.free hsafe
  rw [Nat.mod_eq_of_lt hsize] at hfree
  exact hfree a ha hL

theorem Writes.links {item : CfItem} {sec p : Nat} (hsafe : Safe env extent L w₀)
    (hitem : Declares env item) (hcls : item.cls = .list sec)
    (h : Writes L W p (env.sections sec).size) : Writes L W p 16 := by
  refine Writes.of_nonempty fun hL => h.sub le_rfl ?_
  obtain ⟨s, hs⟩ := hitem
  have hsize := ((hsafe.declared hL).node s item hs sec hcls).1
  omega

theorem extent_le_size {item : CfItem} {sec : Nat} (hsafe : Safe env extent L w₀)
    (hitem : Declares env item) (hcls : item.cls = .list sec) (hL : L.Nonempty) :
    extent sec ≤ (env.sections sec).size := by
  obtain ⟨s, hs⟩ := hitem
  exact ((hsafe.declared hL).node s item hs sec hcls).2.1

theorem addListNodes_tame (hsafe : Safe env extent L w₀) {setItem : SetItem}
    (hset : TameItems L W w₀ env setItem) {item : CfItem} {sec : Nat} (hitem : Declares env item)
    (hcls : item.cls = .list sec) (name : CStr) (ptr : Nat) {op : CfOperation} (hop : op.OnList)
    (fuel index : Nat) {number : Int} (hnumber : 0 ≤ number) (pars : List CStr) (processed : Int) :
    Tame L W w₀ (addListNodes env setItem name sec ptr op fuel index number pars processed) fun r =>
      r.2 ≤ processed + number := by
  induction fuel generalizing index number pars processed with
  | zero => exact Tame.throw (by decide)
  | succ fuel ih =>
      refine Tame.ite (fun _ => Tame.pure (by dsimp only; omega)) fun _ => ?_
      refine (nodeAlloc_tame hsafe hitem hcls).bind fun node hnode => ?_
      refine (cfInitSection_tame hsafe name hnode.writes
        (extent_le_size hsafe hitem hcls)).bind fun _ _ => ?_
      refine (addToList_tame hsafe ptr hop fun _ _ =>
        Writes.links hsafe hitem hcls hnode.writes).bind fun _ _ => ?_
      refine (interpretSectionWith_tame hsafe hset sec hnumber pars node _).bind
        fun result htaken => ?_
      obtain ⟨msg, taken⟩ := result
      dsimp only at htaken
      cases msg with
      | some msg =>
          refine Tame.ite (fun _ => Tame.pure (by dsimp only; omega)) fun _ => ?_
          exact (cfPrintf_tame hsafe _).bind fun _ _ => Tame.pure (by dsimp only; omega)
      | none =>
          refine Tame.ite (fun _ => Tame.pure (by dsimp only; omega)) fun _ => ?_
          exact (ih _ (by omega) _ _).weaken fun r hr => by omega

theorem interpretAddListWith_tame (hsafe : Safe env extent L w₀) {setItem : SetItem}
    (hset : TameItems L W w₀ env setItem) {item : CfItem} {sec : Nat} (hitem : Declares env item)
    (hcls : item.cls = .list sec) (name : CStr) {number : Int} (hnumber : 0 ≤ number)
    (pars : List CStr) (ptr : Nat) {op : CfOperation}
    (hop : op.code < CfOperation.remove.code → op.OnList) :
    Tame L W w₀ (interpretAddListWith env setItem name sec number pars ptr op) fun r =>
      r.2 ≤ number := by
  refine Tame.ite (fun _ => ?_) fun hblock => ?_
  · exact (cfPrintf_tame hsafe _).bind fun _ _ => Tame.pure hnumber
  · refine Tame.ite (fun _ => Tame.pure hnumber) fun _ => ?_
    exact (addListNodes_tame hsafe hset hitem hcls name ptr (hop (not_le.mp hblock)) _ _ hnumber _
      _).weaken fun r hr => by omega

theorem bitIndex_tame (hsafe : Safe env extent L w₀) (type : CfType) (str : CStr) :
    Tame L W w₀ (bitIndex env type str) Any := by
  unfold bitIndex
  split
  · split
    · exact Tame.pure trivial
    · exact (lookupError_tame hsafe str _).bind fun _ _ => Tame.pure trivial
  · split
    · exact Tame.pure trivial
    · exact Tame.pure trivial
    · exact Tame.throw (by decide)

theorem addBits_tame (hsafe : Safe env extent L w₀) (type : CfType) {ptr : Nat} (op : CfOperation)
    (pars : List CStr) (h : Writes L W ptr 4) : Tame L W w₀ (addBits env type ptr op pars) Any := by
  induction pars with
  | nil => exact Tame.pure trivial
  | cons str pars ih =>
      refine (bitIndex_tame hsafe type str).bind fun result _ => ?_
      obtain ⟨msg, idx⟩ := result
      cases msg with
      | some msg => exact Tame.pure trivial
      | none =>
          refine Tame.ite (fun _ => Tame.pure trivial) fun _ => ?_
          exact (loadAt_tame ptr 4).bind fun _ _ => (storeAt_tame _ h).bind fun _ _ => ih

theorem journalBits_tame (hsafe : Safe env extent L w₀) (type : CfType) (ptr : Nat)
    (op : CfOperation) (pars : List CStr) (number : Int) :
    Tame L W w₀ (cfJournalBlock env ptr 4 >>= fun _ => addBits env type ptr op pars >>= fun msg =>
      pure (msg, number)) fun r => r.2 ≤ number :=
  Tame.journal hsafe ptr 4 ((addBits_tame hsafe type op pars fun _ ha _ => Or.inr ha).bind
    fun _ _ => Tame.pure le_rfl)

theorem interpretAddBitmap_tame (hsafe : Safe env extent L w₀) (type : CfType) {number : Int}
    (hnumber : 0 ≤ number) (pars : List CStr) (ptr : Nat) (op : CfOperation) :
    Tame L W w₀ (interpretAddBitmap env type number pars ptr op) fun r => r.2 ≤ number := by
  unfold interpretAddBitmap
  dsimp only
  refine Tame.ite (fun _ => ?_) fun _ => ?_
  · exact (cfPrintf_tame hsafe _).bind fun _ _ => Tame.pure hnumber
  · split
    · exact journalBits_tame hsafe _ ptr _ _ number
    · exact journalBits_tame hsafe _ ptr _ _ number
    · exact (cfPrintf_tame hsafe _).bind fun _ _ => Tame.pure hnumber

theorem dupPars_tame (hsafe : Safe env extent L w₀) (pars : List CStr) :
    Tame L W w₀ (dupPars env pars) Any := by
  induction pars with
  | nil => exact Tame.pure trivial
  | cons str pars ih => exact (cfStrdup_tame hsafe str).bind fun _ _ => ih

/-- The journal takes as much of a static array as the parameters can change. -/
theorem setStatic_tame (hsafe : Safe env extent L w₀) {item : CfItem} {type : CfType}
    (hitem : Declares env item) (hcls : item.cls = .static type) {number : Int}
    (hnumber : 0 ≤ number) (pars : List CStr) (ptr : Nat) :
    Tame L W w₀ (cfJournalBlock env ptr
      (toUint (min number item.number) * cfTypeSize env type % 2 ^ 32) >>= fun _ =>
        cfParseAry env (toUint (min number item.number)) pars ptr type >>= fun msg =>
          pure (msg, min number item.number)) fun r => r.2 ≤ number := by
  refine Tame.journal hsafe _ _ ((cfParseAry_tame hsafe fun j hj => ?_).bind fun _ _ =>
    Tame.pure (min_le_left _ _))
  refine Writes.of_nonempty fun hL => ?_
  obtain ⟨s, hs⟩ := hitem
  obtain ⟨hpos, hfit⟩ := (hsafe.declared hL).static s item hs type hcls
  generalize cfTypeSize env type = size at hfit hj ⊢
  generalize htaken : toUint (min number item.number) = taken at hj ⊢
  have hhdr : journalItemSize = 24 := rfl
  have hsmall : taken * size < 2 ^ 32 := by
    have hle : taken ≤ item.number.toNat := by
      rw [← htaken, toUint]
      omega
    have hnat : (item.number.toNat : Int) = item.number := Int.toNat_of_nonneg hpos
    have hbound : item.number.toNat * size < 2 ^ 32 := by
      rw [← hnat] at hfit
      rw [hhdr] at hfit
      have hcast : ((item.number.toNat * size : Nat) : Int) < 2 ^ 32 := by
        push_cast
        omega
      exact_mod_cast hcast
    exact lt_of_le_of_lt (Nat.mul_le_mul_right size hle) hbound
  rw [Nat.mod_eq_of_lt hsmall]
  exact Writes.elements (W := W ∪ range ptr (taken * size)) (fun a ha _ => Or.inr ha) j hj

theorem interpretSetItem_tame (hsafe : Safe env extent L w₀) (fuel : Nat) :
    TameItems L W w₀ env (interpretSetItem env fuel) := by
  induction fuel with
  | zero => exact fun _ _ _ _ _ _ _ => Tame.throw (by decide)
  | succ fuel ih =>
      intro item hitem number hnumber pars ptr allowDynamic
      rw [interpretSetItem]
      cases hcls : item.cls with
      | static type =>
          refine Tame.ite (fun _ => Tame.pure hnumber) fun _ => ?_
          exact setStatic_tame hsafe hitem hcls hnumber pars ptr
      | dynamic type =>
          refine Tame.ite (fun _ => ?_) fun _ => Tame.pure hnumber
          exact (interpretSetDynamic_tame hsafe type _ pars ptr).bind fun _ _ =>
            Tame.pure (min_le_left _ _)
      | parser par =>
          refine Tame.ite (fun _ => Tame.pure hnumber) fun _ => ?_
          refine Tame.ite (fun _ => Tame.pure hnumber) fun _ => ?_
          refine (dupPars_tame hsafe _).bind fun _ _ => ?_
          refine (callUser_tame hsafe (fun hL => (hsafe.user hL).parser par _ ptr) ?_).bind
            fun _ _ => Tame.pure (min_le_left _ _)
          exact fun a ha => absurd ha (Set.notMem_empty a)
      | «section» sec => exact interpretSectionWith_tame hsafe ih sec hnumber pars ptr allowDynamic
      | list sec =>
          refine Tame.ite (fun _ => ?_) fun _ => Tame.pure hnumber
          refine interpretAddListWith_tame hsafe ih hitem hcls item.name hnumber pars ptr
            fun _ => ?_
          exact ⟨nofun, nofun, nofun, nofun⟩
      | bitmap type =>
          refine Tame.ite (fun _ => ?_) fun _ => Tame.pure hnumber
          exact interpretAddBitmap_tame hsafe type hnumber pars ptr .set

theorem interpretSection_tame (hsafe : Safe env extent L w₀) (sec : Nat) {number : Int}
    (hnumber : 0 ≤ number) (pars : List CStr) (ptr : Nat) (allowDynamic : Bool) :
    Tame L W w₀ (interpretSection env sec number pars ptr allowDynamic) fun r => r.2 ≤ number :=
  interpretSectionWith_tame hsafe (interpretSetItem_tame hsafe _) sec hnumber pars ptr allowDynamic

theorem clearStrings_tame (hsafe : Safe env extent L w₀) {item : CfItem} (hitem : Declares env item)
    (hcls : item.cls = .static .string) (ptr : Nat) :
    Tame L W w₀ (cfJournalBlock env ptr (toUint (item.number * 8)) >>= fun _ =>
      if item.number < 0 then throw CfFault.overrun
      else memset ptr (item.number * 8).toNat >>= fun _ => pure none) (Any (α := Msg)) := by
  refine Tame.journal hsafe _ _ (Tame.ite (fun _ => Tame.throw (by decide)) fun _ => ?_)
  refine (memset_tame (Writes.of_nonempty fun hL a ha _ => Or.inr ?_)).bind fun _ _ =>
    Tame.pure trivial
  obtain ⟨s, hs⟩ := hitem
  have hfit := ((hsafe.declared hL).static s item hs .string hcls).2
  have hhdr : journalItemSize = 24 := rfl
  have hstring : cfTypeSize env .string = 8 := rfl
  rw [hhdr, hstring] at hfit
  have hlen : toUint (item.number * 8) = (item.number * 8).toNat := by
    rw [toUint]
    omega
  rw [hlen]
  exact ha

theorem interpretSetAll_tame (hsafe : Safe env extent L w₀) {item : CfItem}
    (hitem : Declares env item) (ptr : Nat) (op : CfOperation) :
    Tame L W w₀ (interpretSetAll env item ptr op) Any := by
  unfold interpretSetAll
  cases hcls : item.cls with
  | bitmap type =>
      refine Tame.journal hsafe ptr 4 ?_
      exact (storeAt_tame _ fun _ ha _ => Or.inr ha).bind fun _ _ => Tame.pure trivial
  | list sec =>
      refine Tame.ite (fun _ => Tame.pure trivial) fun _ => Tame.journal hsafe ptr 16 ?_
      exact (listInit_tame fun _ ha _ => Or.inr ha).bind fun _ _ => Tame.pure trivial
  | dynamic type =>
      refine Tame.ite (fun _ => Tame.pure trivial) fun _ => Tame.journal hsafe ptr 8 ?_
      exact (storeAt_tame _ fun _ ha _ => Or.inr ha).bind fun _ _ => Tame.pure trivial
  | static type =>
      refine Tame.ite (fun _ => Tame.pure trivial) fun _ => ?_
      cases type with
      | string => exact clearStrings_tame hsafe hitem hcls ptr
      | int => exact Tame.pure trivial
      | u64 => exact Tame.pure trivial
      | double => exact Tame.pure trivial
      | ip => exact Tame.pure trivial
      | lookup table => exact Tame.pure trivial
      | user u => exact Tame.pure trivial
  | parser par => exact Tame.ite (fun _ => Tame.pure trivial) fun _ => Tame.pure trivial
  | «section» sec => exact Tame.ite (fun _ => Tame.pure trivial) fun _ => Tame.pure trivial

/-! ## Selectors -/

theorem strEqFrom_tame (m : Mem) (fuel p q : Nat) : Tame L W w₀ (strEqFrom m fuel p q) Any := by
  induction fuel generalizing p q with
  | zero => exact Tame.throw (by decide)
  | succ fuel ih =>
      refine Tame.ite (fun _ => Tame.pure trivial) fun _ => ?_
      exact Tame.ite (fun _ => Tame.pure trivial) fun _ => ih _ _

theorem cmpItems_tame (i1 i2 : Nat) (item : CfItem) :
    Tame L W w₀ (cmpItems env i1 i2 item) Any := by
  unfold cmpItems
  split
  · refine (loadAt_tame _ 8).bind fun _ _ => (loadAt_tame _ 8).bind fun _ _ => ?_
    refine Tame.ite (fun _ => Tame.throw (by decide)) fun _ => ?_
    exact Tame.state.bind fun _ _ => strEqFrom_tame _ _ _ _
  · exact Tame.state.bind fun _ _ => Tame.pure trivial
  · exact Tame.throw (by decide)

theorem agreeOn_tame (n query : Nat) (items : List CfItem) :
    Tame L W w₀ (agreeOn env n query items) Any := by
  induction items with
  | nil => exact Tame.pure trivial
  | cons ci rest ih =>
      exact (cmpItems_tame n query ci).bind fun _ _ =>
        Tame.ite (fun _ => ih) fun _ => Tame.pure trivial

theorem findNodeFrom_tame (list query : Nat) (items : List CfItem) (fuel n : Nat) :
    Tame L W w₀ (findNodeFrom env list query items fuel n) Any := by
  induction fuel generalizing n with
  | zero => exact Tame.throw (by decide)
  | succ fuel ih =>
      refine Tame.ite (fun _ => Tame.pure trivial) fun _ => ?_
      refine (agreeOn_tame n query items).bind fun _ _ => ?_
      exact Tame.ite (fun _ => Tame.pure trivial) fun _ =>
        (loadAt_tame n 8).bind fun _ _ => ih _

theorem findListNode_tame (list query sec mask : Nat) :
    Tame L W w₀ (findListNode env list query sec mask) Any :=
  (loadAt_tame list 8).bind fun _ _ => findNodeFrom_tame _ _ _ _ _

/-! ## Lines -/

theorem cfFindSubitem_declares {sec index : Nat} {name : CStr} {ci : CfItem}
    (h : cfFindSubitem env sec name = some (ci, index)) : Declares env ci := by
  have hmem := List.mem_of_find?_eq_some h
  exact ⟨sec, List.fst_mem_of_mem_zipIdx hmem⟩

theorem findPath_tame (hsafe : Safe env extent L w₀) (sec ptr : Nat) (parts : List CStr) :
    Tame L W w₀ (findPath env sec ptr parts) fun r => ∀ f, r.2 = some f → Declares env f.item := by
  induction parts generalizing sec ptr with
  | nil => exact Tame.pure nofun
  | cons name parts ih =>
      refine (Tame.whenSet fun _ => cfAddDirtyTo_tame sec ptr).bind fun _ _ => ?_
      cases hfind : cfFindSubitem env sec name with
      | none =>
          refine Tame.ite (fun _ => Tame.pure nofun) fun _ => ?_
          exact (cfPrintf_tame hsafe _).bind fun _ _ => Tame.pure nofun
      | some found =>
          obtain ⟨ci, index⟩ := found
          have hci := cfFindSubitem_declares hfind
          refine Tame.ite (fun _ => Tame.pure ?_) fun _ => ?_
          · intro f hf
            rw [← Option.some.inj hf]
            exact hci
          · split
            · exact ih _ _
            · exact (cfPrintf_tame hsafe _).bind fun _ _ => Tame.pure nofun

theorem findItem_tame (hsafe : Safe env extent L w₀) (currSec : Option Nat) (name : CStr)
    (ptr : Nat) :
    Tame L W w₀ (findItem env currSec name ptr) fun r =>
      ∀ f, r.2 = some f → Declares env f.item := by
  have hfrom : ∀ sec name, Tame L W w₀ (findItem.findFrom env ptr sec name) fun r =>
      ∀ f, r.2 = some f → Declares env f.item := by
    intro sec name
    cases sec with
    | none => exact Tame.pure nofun
    | some sec => exact findPath_tame hsafe sec ptr _
  cases name with
  | nil => exact hfrom currSec []
  | cons b rest => exact Tame.ite (fun _ => findPath_tame hsafe _ _ _) fun _ => hfrom _ _

theorem interpretAdd_tame (hsafe : Safe env extent L w₀) (name : CStr) {item : CfItem}
    (hitem : Declares env item) {number : Int} (hnumber : 0 ≤ number) (pars : List CStr) (ptr : Nat)
    {op : CfOperation} (hop : op.code < CfOperation.remove.code → op.OnList) :
    Tame L W w₀ (interpretAdd env name item number pars ptr op) Any := by
  unfold interpretAdd
  cases hcls : item.cls with
  | dynamic type => exact interpretAddDynamic_tame hsafe item type number pars ptr op
  | list sec =>
      exact (interpretAddListWith_tame hsafe (interpretSetItem_tame hsafe _) hitem hcls item.name
        hnumber pars ptr hop).any
  | bitmap type => exact (interpretAddBitmap_tame hsafe type hnumber pars ptr op).any
  | static type => exact (cfPrintf_tame hsafe _).bind fun _ _ => Tame.pure trivial
  | parser par => exact (cfPrintf_tame hsafe _).bind fun _ _ => Tame.pure trivial
  | «section» sec => exact (cfPrintf_tame hsafe _).bind fun _ _ => Tame.pure trivial

theorem interpretOperation_tame (hsafe : Safe env extent L w₀) (name : CStr) {op : CfOperation}
    (hop : op ≠ .close) {found : Found} (hfound : Declares env found.item) {number : Int}
    (hnumber : 0 ≤ number) (pars : List CStr) :
    Tame L W w₀ (interpretOperation env name op found number pars) Any := by
  have hset := fun op => interpretSetAll_tame (W := W) hsafe hfound found.ptr op
  have hadd := fun (op : CfOperation) (hop : op.code < CfOperation.remove.code → op.OnList) =>
    interpretAdd_tame (W := W) hsafe name hfound hnumber pars found.ptr hop
  cases op with
  | close => exact absurd rfl hop
  | clear => exact (hset _).bind fun _ _ => Tame.pure trivial
  | all => exact (hset _).bind fun _ _ => Tame.pure trivial
  | set => exact (interpretSetItem_tame hsafe _ _ hfound _ hnumber _ _ _).any
  | reset =>
      refine (hset .clear).bind fun msg _ => ?_
      cases msg with
      | some msg => exact Tame.pure trivial
      | none => exact hadd .append fun _ => ⟨nofun, nofun, nofun, nofun⟩
  | append => exact hadd _ fun _ => ⟨nofun, nofun, nofun, nofun⟩
  | prepend => exact hadd _ fun _ => ⟨nofun, nofun, nofun, nofun⟩
  | remove => exact hadd _ fun _ => ⟨nofun, nofun, nofun, nofun⟩
  | edit => exact hadd _ fun _ => ⟨nofun, nofun, nofun, nofun⟩
  | after => exact hadd _ fun _ => ⟨nofun, nofun, nofun, nofun⟩
  | before => exact hadd _ fun _ => ⟨nofun, nofun, nofun, nofun⟩
  | copy => exact hadd _ fun _ => ⟨nofun, nofun, nofun, nofun⟩

/-! ## Commits -/

theorem commitNodes_tame {commit : Nat → Cf Msg} (hcommit : ∀ n, Tame L W w₀ (commit n) Any)
    (list fuel n : Nat) : Tame L W w₀ (commitNodes commit list fuel n) Any := by
  induction fuel generalizing n with
  | zero => exact Tame.throw (by decide)
  | succ fuel ih =>
      refine Tame.ite (fun _ => Tame.pure trivial) fun _ => (hcommit n).bind fun msg _ => ?_
      cases msg with
      | some msg => exact Tame.pure trivial
      | none => exact (loadAt_tame n 8).bind fun _ _ => ih _

theorem commitPart_tame {commit : Nat → Nat → Cf Msg}
    (hcommit : ∀ sec ptr, Tame L W w₀ (commit sec ptr) Any) (ptr : Nat) (ci : CfItem) :
    Tame L W w₀ (commitPart env commit ptr ci) Any := by
  unfold commitPart
  split
  · refine (hcommit _ _).bind fun msg _ => ?_
    cases msg with
    | some msg => exact Tame.pure trivial
    | none => exact Tame.pure trivial
  · exact (loadAt_tame _ 8).bind fun _ _ => commitNodes_tame (hcommit _) _ _ _
  · exact Tame.pure trivial

theorem commitParts_tame {commit : Nat → Nat → Cf Msg}
    (hcommit : ∀ sec ptr, Tame L W w₀ (commit sec ptr) Any) (ptr : Nat) (items : List CfItem) :
    Tame L W w₀ (commitParts env commit ptr items) Any := by
  induction items with
  | nil => exact Tame.pure trivial
  | cons ci rest ih =>
      refine (commitPart_tame hcommit ptr ci).bind fun msg _ => ?_
      cases msg with
      | some msg => exact Tame.pure trivial
      | none => exact ih

theorem commitHook_tame (hsafe : Safe env extent L w₀) (commitAll : Bool) (sec ptr : Nat) :
    Tame L W w₀ (commitHook env commitAll sec ptr) Any := by
  refine Tame.state.bind fun _ _ => Tame.ite (fun _ => ?_) fun _ => Tame.pure trivial
  exact callUser_tame hsafe (fun hL => (hsafe.user hL).commit sec ptr) fun a ha =>
    absurd ha (Set.notMem_empty a)

theorem commitIn_tame (hsafe : Safe env extent L w₀) (commitAll : Bool) (fuel sec ptr : Nat) :
    Tame L W w₀ (commitIn env commitAll fuel sec ptr) Any := by
  induction fuel generalizing sec ptr with
  | zero => exact Tame.throw (by decide)
  | succ fuel ih =>
      refine (commitParts_tame ih ptr _).bind fun msg _ => ?_
      cases msg with
      | some msg => exact Tame.pure trivial
      | none => exact commitHook_tame hsafe commitAll sec ptr

/-- A change of the fields that only commits look at. -/
theorem Ctx.setCommits {st : StackOf} {w : World} (h : Ctx L W w₀ st w) (dirty : DirtyList)
    (everything : Bool) :
    Ctx L W w₀ st { w with cc := { w.cc with dirty := dirty, everythingCommitted := everything } } :=
  h.step [] ⟨rfl, rfl, rfl, rfl, rfl, rfl, rfl, rfl⟩ (fun _ hb => hb) (fun _ _ ho => Or.inl ho) rfl
    (fun _ hi => absurd hi List.not_mem_nil) (fun _ _ _ => Or.inl rfl) rfl

theorem sortDirtyIn_tame : Tame L W w₀ sortDirtyIn Any := by
  intro st w hw
  unfold sortDirtyIn
  cases sortDirty w.cc.dirty with
  | error fault => exact ⟨nofun, nofun⟩
  | ok dirty => exact ⟨hw.setCommits dirty w.cc.everythingCommitted, trivial⟩

theorem commitAllIn_tame (hsafe : Safe env extent L w₀) (cm : CommitMode) :
    Tame L W w₀ (commitAllIn env cm) Any := by
  refine sortDirtyIn_tame.bind fun _ _ => Tame.ite (fun _ => Tame.pure trivial) fun _ => ?_
  refine (commitIn_tame hsafe _ _ _ _).bind fun msg _ => ?_
  cases msg with
  | some msg => exact Tame.pure trivial
  | none =>
      refine Tame.bind (Q := Any) ?_ fun _ _ => Tame.pure trivial
      exact fun st w hw => ⟨hw.setCommits _ w.cc.everythingCommitted, trivial⟩

theorem maybeCommit_tame (hsafe : Safe env extent L w₀) :
    Tame L W w₀ (maybeCommit env) Any := by
  refine Tame.state.bind fun _ _ => (commitAllIn_tame hsafe _).bind fun failed _ => ?_
  refine Tame.ite (fun _ => Tame.pure trivial) fun _ => ?_
  refine Tame.bind (Q := Any) ?_ fun _ _ => Tame.pure trivial
  exact fun st w hw => ⟨hw.setCommits w.cc.dirty _, trivial⟩

end OpenAAA.Opt
