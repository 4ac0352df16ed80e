import OpenAAA.Mem.Hlist
import OpenAAA.Mem.ListRuns

/-!
The operations on `hlist` as operations on finite sequences. Beside the chains a program
knows nodes that are in none: those that were initialised or removed with `hlist_del_init`,
and those that `hlist_del` left poisoned.
-/

namespace OpenAAA.Hlist

open Rings Chains Intrusive Runs

/-- Why a node is in no chain. -/
inductive Loose where
  | initialised
  | deleted
deriving DecidableEq

/-- The chains, and the known nodes outside them. -/
structure Book where
  chains : Seqs
  loose : Nat → Option Loose

/-- The operations, with the arguments of the source. -/
inductive Op where
  | hashInit (list size : Nat)
  | initHlistNode (n : Nat)
  | hlistAddHead (n h : Nat)
  | hlistAddBefore (n next : Nat)
  | hlistAddAfter (n next : Nat)
  | hlistDel (n : Nat)
  | hlistDelInit (n : Nat)
  | hashDel (n : Nat)
  | hlistMoveList (old n : Nat)

def exec (l : Links) : Op → Links
  | .hashInit list size => hashInit l list size
  | .initHlistNode n => initHlistNode l n
  | .hlistAddHead n h => hlistAddHead l n h
  | .hlistAddBefore n next => hlistAddBefore l n next
  | .hlistAddAfter n next => hlistAddAfter l n next
  | .hlistDel n => hlistDel l n
  | .hlistDelInit n => hlistDelInit l n
  | .hashDel n => hashDel l n
  | .hlistMoveList old n => hlistMoveList l old n

namespace Book

/-- The heads of a table get empty chains. -/
def clear (A : Seqs) (list size : Nat) : Seqs :=
  (List.range size).foldl (fun A i => A.set (list + 8 * i) []) A

/-- A node that was outside the chains is in one. -/
def take (B : Book) (n : Nat) (chains : Seqs) : Book :=
  ⟨chains, Function.update B.loose n none⟩

/-- A node is in no chain, for a reason. -/
def drop (B : Book) (n : Nat) (why : Loose) : Book :=
  ⟨B.chains.erase n, Function.update B.loose n (some why)⟩

/-- What the operations do to the sequences. -/
def exec (B : Book) : Op → Book
  | .hashInit list size => { B with chains := clear B.chains list size }
  | .initHlistNode n => B.drop n .initialised
  | .hlistAddHead n h => B.take n (B.chains.insertAfter h [n])
  | .hlistAddBefore n next => B.take n (B.chains.insertBefore next [n])
  | .hlistAddAfter n next => B.take next (B.chains.insertAfter n [next])
  | .hlistDel n => B.drop n .deleted
  | .hlistDelInit n => B.drop n .initialised
  | .hashDel n => B.drop n .initialised
  | .hlistMoveList old n => { B with chains := (B.chains.set old []).set n (B.chains.nodes old) }

/-- An address that may become a node: it is not null, and no head or node of a chain. -/
def Free (B : Book) (n : Nat) : Prop := n ≠ 0 ∧ ¬ B.chains.Held n

/-- What the callers of the operations owe: nodes put in are detached, positions are heads or nodes
of chains, nodes taken out are in a chain or, for `hlist_del_init`, known to be in none, and a head
that is filled is empty. -/
def Legal (B : Book) : Op → Prop
  | .hashInit list size =>
      ∀ i < size, list + 8 * i ≠ 0 ∧ B.chains.Detached (list + 8 * i) ∧ B.loose (list + 8 * i) = none
  | .initHlistNode n => B.Free n
  | .hlistAddHead n h => B.Free n ∧ B.chains.IsHead h
  | .hlistAddBefore n next => B.Free n ∧ B.chains.Member next
  | .hlistAddAfter n next => B.Free next ∧ B.chains.Member n
  | .hlistDel n => B.chains.Member n
  | .hlistDelInit n => B.chains.Member n ∨ B.loose n = some .initialised
  | .hashDel n => B.chains.Member n ∨ B.loose n = some .initialised
  | .hlistMoveList old n => B.chains.IsHead old ∧ B.chains n = some [] ∧ n ≠ old

end Book

/-- The links hold the chains, and tell why a known node is in none. -/
structure Keeps (l : Links) (B : Book) : Prop where
  threads : Threads l B.chains
  initialised : ∀ n, B.loose n = some .initialised → l.prev n = 0
  deleted : ∀ n, B.loose n = some .deleted → l.prev n ≠ 0
  apart : ∀ n, B.loose n ≠ none → ¬ B.chains.Held n

variable {l : Links} {A : Seqs} {B : Book} {n p m : Nat}

/-! ## Held nodes -/

theorem held_of_erase (h : (A.erase n).Held m) : A.Held m := by
  obtain ⟨k, ns, hk, hin⟩ := h
  obtain ⟨ms, hms, rfl⟩ := Option.map_eq_some_iff.mp hk
  refine ⟨k, ms, hms, ?_⟩
  rcases List.mem_cons.mp hin with rfl | hin
  · simp
  · exact List.mem_cons_of_mem _ (List.mem_of_mem_erase hin)

theorem erase_of_not_held (hn : ¬ A.Held n) : A.erase n = A := by
  funext k
  cases hk : A k with
  | none => simp [Seqs.erase, hk]
  | some ns =>
      have hnot : n ∉ k :: ns := fun hin => hn ⟨k, ns, hk, hin⟩
      rw [Seqs.erase_apart hk hnot]

theorem held_of_member (h : A.Member n) : A.Held n := by
  obtain ⟨k, ns, hk, hin⟩ := h
  exact ⟨k, ns, hk, List.mem_cons_of_mem _ hin⟩

theorem held_of_isHead (h : A.IsHead n) : A.Held n := by
  obtain ⟨ns, hk⟩ := h
  exact ⟨n, ns, hk, by simp⟩

section Kept

variable (hT : Threads l A)
include hT

/-- A node of no chain is not led to. -/
theorem next_ne (hp : A.Held p) (hm : ¬ A.Held m) (hzero : m ≠ 0) : l.next p ≠ m := by
  obtain ⟨k, ns, hk, hin⟩ := hp
  obtain ⟨us, vs, hsplit⟩ := List.append_of_mem hin
  have hstrung := hT.strung k ns hk
  rw [hsplit] at hstrung
  rw [hstrung.next_eq]
  rcases headD_mem_or vs with hend | hfirst
  · rw [hend]
    exact hzero.symm
  · rintro heq
    refine hm ⟨k, ns, hk, ?_⟩
    rw [hsplit, ← heq]
    simp only [List.mem_append, List.mem_cons]
    exact Or.inr (Or.inr hfirst)

/-- The back link of a node of no chain stays. -/
theorem prev_link (a : Nat) (hp : A.Held p) (hm : ¬ A.Held m) :
    (link l a (l.next p)).prev m = l.prev m := by
  by_cases hzero : m = 0
  · by_cases hend : l.next p = 0
    · rw [hend]
      rfl
    · exact link_prev_of_ne fun heq => hend (heq.symm.trans hzero)
  · exact link_prev_of_ne (next_ne hT hp hm hzero).symm

/-- A node of a chain has a back link. -/
theorem prev_ne_zero (hn : A.Member n) : l.prev n ≠ 0 ∧ l.next (l.prev n) = n := by
  obtain ⟨k, ns, hk, hin⟩ := hn
  obtain ⟨front, us, vs, rfl, hfront⟩ := hT.exists_prev hk hin
  have hsplit : k :: (front ++ n :: vs) = us ++ l.prev n :: n :: vs := by
    rw [← List.cons_append, hfront, ← List.append_cons]
  have hnull := hT.nonnull k _ hk
  have hstrung := hT.strung k _ hk
  rw [hsplit] at hnull hstrung
  exact ⟨fun heq => hnull (by simp [heq]), (strung_append.mp hstrung).2.1.1⟩

end Kept

/-! ## One step -/

section Steps

variable (hK : Keeps l B)
include hK

theorem keeps_take (hn : B.Free n) (hp : B.chains.Held p) :
    Keeps ((link l n (l.next p)).join p n) (B.take n (B.chains.insertAfter p [n])) := by
  have hother {m : Nat} {why : Loose} (hm : (B.take n (B.chains.insertAfter p [n])).loose m = some why) :
      m ≠ n ∧ B.loose m = some why := by
    by_cases heq : m = n
    · subst heq
      simp [Book.take] at hm
    · exact ⟨heq, by simpa [Book.take, heq] using hm⟩
  have hprev {m : Nat} {why : Loose} (hne : m ≠ n) (hm : B.loose m = some why) :
      ((link l n (l.next p)).join p n).prev m = l.prev m := by
    rw [join_prev_of_ne hne]
    exact prev_link hK.threads n hp (hK.apart m (by simp [hm]))
  refine ⟨hK.threads.insertAfter hp hn.2 hn.1, ?_, ?_, ?_⟩
  · intro m hm
    obtain ⟨hne, hm⟩ := hother hm
    rw [hprev hne hm]
    exact hK.initialised m hm
  · intro m hm
    obtain ⟨hne, hm⟩ := hother hm
    rw [hprev hne hm]
    exact hK.deleted m hm
  · intro m hm
    obtain ⟨why, hwhy⟩ := Option.ne_none_iff_exists'.mp hm
    obtain ⟨hne, hm⟩ := hother hwhy
    rw [Book.take, held_insertAfter hp, List.mem_singleton, not_or]
    exact ⟨hK.apart m (by simp [hm]), hne⟩

theorem keeps_drop {l' : Links} {why : Loose} (hT : Threads l' (B.chains.erase n))
    (hprev : ∀ m, m ≠ n → ¬ B.chains.Held m → l'.prev m = l.prev m)
    (hout : ¬ (B.chains.erase n).Held n) (hn : l'.prev n = 0 ↔ why = .initialised) :
    Keeps l' (B.drop n why) := by
  have hcases {m : Nat} {w : Loose} (hm : (B.drop n why).loose m = some w) :
      m = n ∧ w = why ∨ m ≠ n ∧ B.loose m = some w := by
    by_cases heq : m = n
    · subst heq
      have hw : why = w := by simpa [Book.drop] using hm
      exact Or.inl ⟨rfl, hw.symm⟩
    · exact Or.inr ⟨heq, by simpa [Book.drop, heq] using hm⟩
  refine ⟨hT, ?_, ?_, ?_⟩
  · intro m hm
    rcases hcases hm with ⟨rfl, rfl⟩ | ⟨hne, hm⟩
    · exact hn.mpr rfl
    · rw [hprev m hne (hK.apart m (by simp [hm]))]
      exact hK.initialised m hm
  · intro m hm
    rcases hcases hm with ⟨rfl, rfl⟩ | ⟨hne, hm⟩
    · exact fun hzero => by simpa using hn.mp hzero
    · rw [hprev m hne (hK.apart m (by simp [hm]))]
      exact hK.deleted m hm
  · intro m hm
    obtain ⟨w, hw⟩ := Option.ne_none_iff_exists'.mp hm
    rcases hcases hw with ⟨rfl, rfl⟩ | ⟨hne, hm⟩
    · exact hout
    · exact fun hheld => hK.apart m (by simp [hm]) (held_of_erase hheld)

/-- A node that is taken out, with any links of its own. -/
theorem keeps_unlink {why : Loose} (hn : B.chains.Member n) (v w : Nat)
    (hw : w = 0 ↔ why = .initialised) :
    Keeps (setPrev (setNext (hlistUnlink l n) n v) n w) (B.drop n why) := by
  obtain ⟨k, ns, hk, hin⟩ := hn
  obtain ⟨hT, hout⟩ := hK.threads.erase hk hin
  rw [hlistUnlink_eq]
  refine keeps_drop hK (hT.congr ?_) ?_ hout ?_
  · intro x hx
    have hne : x ≠ n := fun heq => hout (heq ▸ hx)
    simp [setNext, setPrev, hne]
  · intro m hne hm
    simp only [setNext, setPrev, Function.update_of_ne hne]
    exact prev_link hK.threads _ ⟨k, ns, hk, List.mem_cons_of_mem _ hin⟩ hm
  · simpa [setNext, setPrev] using hw

/-- A node of no chain is initialised. -/
theorem keeps_initHlistNode (hn : ¬ B.chains.Held n) :
    Keeps (initHlistNode l n) (B.drop n .initialised) := by
  have herase := erase_of_not_held hn
  refine keeps_drop hK ?_ ?_ ?_ ?_
  · rw [herase]
    refine hK.threads.congr fun x hx => ?_
    have hne : x ≠ n := fun heq => hn (heq ▸ hx)
    simp [initHlistNode, setNext, setPrev, hne]
  · intro m hne _
    simp [initHlistNode, setNext, setPrev, hne]
  · rwa [herase]
  · simp [initHlistNode, setNext, setPrev]

theorem keeps_hlistDelInit (hn : B.chains.Member n ∨ B.loose n = some .initialised) :
    Keeps (hlistDelInit l n) (B.drop n .initialised) := by
  rcases hn with hn | hn
  · have hback := (prev_ne_zero hK.threads hn).1
    rw [hlistDelInit, if_pos (by simpa [hlistUnhashed] using hback)]
    exact keeps_unlink hK hn 0 0 (by simp)
  · have hout := hK.apart n (by simp [hn])
    have hback := hK.initialised n hn
    rw [hlistDelInit, if_neg (by simpa [hlistUnhashed] using hback)]
    have hsame : B.drop n .initialised = B := by
      rw [Book.drop, erase_of_not_held hout, ← hn, Function.update_eq_self]
    rwa [hsame]

theorem keeps_hlistMoveList {old : Nat} (hold : B.chains.IsHead old) (hn : B.chains n = some [])
    (hne : n ≠ old) : Keeps (hlistMoveList l old n)
      { B with chains := (B.chains.set old []).set n (B.chains.nodes old) } := by
  obtain ⟨ns, hk⟩ := hold
  have hnodes : B.chains.nodes old = ns := by simp [Seqs.nodes, hk]
  have hheld : B.chains.Held old := ⟨old, ns, hk, by simp⟩
  have hprev {m : Nat} {why : Loose} (hm : B.loose m = some why) :
      (hlistMoveList l old n).prev m = l.prev m := by
    rw [hlistMoveList_eq, link_zero]
    exact prev_link hK.threads n hheld (hK.apart m (by simp [hm]))
  rw [hnodes]
  refine ⟨?_, ?_, ?_, ?_⟩
  · rw [hlistMoveList_eq]
    exact hK.threads.move hk hn hne
  · intro m hm
    rw [hprev hm]
    exact hK.initialised m hm
  · intro m hm
    rw [hprev hm]
    exact hK.deleted m hm
  · rintro m hm ⟨h, ms, hset, hin⟩
    refine hK.apart m hm ?_
    rcases set_cases hset with ⟨rfl, rfl⟩ | ⟨_, hset⟩
    · rcases List.mem_cons.mp hin with rfl | hin
      · exact ⟨m, [], hn, by simp⟩
      · exact ⟨old, ms, hk, List.mem_cons_of_mem _ hin⟩
    · rcases set_cases hset with ⟨rfl, rfl⟩ | ⟨_, hA⟩
      · exact ⟨h, ns, hk, by simpa using Or.inl (by simpa using hin)⟩
      · exact ⟨h, ms, hA, hin⟩

theorem keeps_initHlistHead (hzero : n ≠ 0) (hn : B.chains.Detached n) (hloose : B.loose n = none) :
    Keeps (initHlistHead l n) { B with chains := B.chains.set n [] } := by
  refine ⟨hK.threads.init hn hzero, hK.initialised, hK.deleted, ?_⟩
  rintro m hm ⟨h, ms, hset, hin⟩
  rcases set_cases hset with ⟨rfl, rfl⟩ | ⟨_, hA⟩
  · obtain rfl : m = h := by simpa using hin
    exact hm hloose
  · exact hK.apart m hm ⟨h, ms, hA, hin⟩

theorem keeps_hashInit (list size : Nat) (hlegal : B.Legal (.hashInit list size)) :
    Keeps (hashInit l list size) (B.exec (.hashInit list size)) := by
  have hdetached {A : Seqs} {x : Nat} (hx : A.Detached x) (y : Nat) : (A.set y []).Detached x := by
    intro h ns hset hin
    rcases set_cases hset with ⟨rfl, rfl⟩ | ⟨_, hA⟩
    · exact ⟨(List.mem_singleton.mp hin).symm, rfl⟩
    · exact hx h ns hA hin
  have hclear (k x : Nat) (hx : B.chains.Detached x) : (Book.clear B.chains list k).Detached x := by
    induction k with
    | zero => exact hx
    | succ k ih =>
        rw [Book.clear, List.range_succ, List.foldl_append]
        exact hdetached ih _
  induction size with
  | zero => exact hK
  | succ size ih =>
      have hhere := hlegal size (Nat.lt_succ_self size)
      have hstep := keeps_initHlistHead (ih fun i hi => hlegal i (Nat.lt_succ_of_lt hi)) hhere.1
        (hclear size _ hhere.2.1) hhere.2.2
      simpa [hashInit, Book.exec, Book.clear, List.range_succ] using hstep

/-- Every operation keeps the links and the sequences together. -/
theorem keeps_exec {op : Op} (hlegal : B.Legal op) : Keeps (exec l op) (B.exec op) := by
  cases op with
  | hashInit list size => exact keeps_hashInit hK list size hlegal
  | initHlistNode n => exact keeps_initHlistNode hK hlegal.2
  | hlistAddHead n h =>
      rw [exec, hlistAddHead_eq]
      exact keeps_take hK hlegal.1 (held_of_isHead hlegal.2)
  | hlistAddBefore n next =>
      obtain ⟨hfree, hmember⟩ := hlegal
      obtain ⟨hback, hprev⟩ := prev_ne_zero hK.threads hmember
      obtain ⟨k, ns, hk, hin⟩ := hmember
      have hne : n ≠ next := fun heq => hfree.2 ⟨k, ns, hk, heq ▸ List.mem_cons_of_mem _ hin⟩
      have hzero : next ≠ 0 := fun heq => hK.threads.nonnull k ns hk (heq ▸ List.mem_cons_of_mem _ hin)
      have hheld : B.chains.Held (l.prev next) := by
        obtain ⟨front, us, vs, rfl, hfront⟩ := hK.threads.exists_prev hk hin
        refine ⟨k, _, hk, ?_⟩
        rw [← List.cons_append, hfront]
        simp
      rw [exec, hlistAddBefore_eq hne hzero hprev, Book.exec, hK.threads.insertBefore_eq hk hin]
      exact keeps_take hK hfree hheld
  | hlistAddAfter n next =>
      obtain ⟨hfree, hmember⟩ := hlegal
      have hheld := held_of_member hmember
      have hne : next ≠ n := fun heq => hfree.2 (heq ▸ hheld)
      rw [exec, hlistAddAfter_eq hne (next_ne hK.threads hheld hfree.2 hfree.1)]
      exact keeps_take hK hfree hheld
  | hlistDel n => exact keeps_unlink hK hlegal _ _ (by decide)
  | hlistDelInit n => exact keeps_hlistDelInit hK hlegal
  | hashDel n => exact keeps_hlistDelInit hK hlegal
  | hlistMoveList old n => exact keeps_hlistMoveList hK hlegal.1 hlegal.2.1 hlegal.2.2

end Steps

/-! ## Runs -/

/-- What the links and the sequences have to do with each other. -/
structure Refines (s : Links × Book) : Prop where
  forward : ∀ h ns, s.2.chains h = some ns → Linked.Chain s.1.next 0 (s.1.next h) ns
  back : ∀ h ns us p n vs, s.2.chains h = some ns → h :: ns = us ++ p :: n :: vs → s.1.prev n = p
  once : ∀ h ns, s.2.chains h = some ns → (h :: ns).Nodup
  unshared : s.2.chains.Unshared
  unhashed : ∀ n, s.2.chains.Member n ∨ s.2.loose n ≠ none →
    (hlistUnhashed s.1 n = true ↔ s.2.loose n = some .initialised ∧ ¬ s.2.chains.Member n)
  hashed : ∀ n, s.2.chains.Member n → hashHashed s.1 n = true
  empty : ∀ h ns, s.2.chains h = some ns → (hlistEmpty s.1 h = true ↔ ns = [])

/-- The operations on the links beside those on the sequences. -/
def step (s : Links × Book) (op : Op) : Links × Book := (exec s.1 op, s.2.exec op)

theorem Refines.of_keeps (hK : Keeps l B) : Refines (l, B) where
  forward := by
    intro h ns hA
    have hstrung := hK.threads.strung h ns hA
    clear hA
    induction ns generalizing h with
    | nil => exact hstrung.last h (by simp)
    | cons n ns ih =>
        have hparts := (@strung_append l h n [] ns).mp hstrung
        exact ⟨hparts.2.1.1, ih n hparts.2.2⟩
  back := by
    intro h ns us p n vs hA hsplit
    have hstrung := hK.threads.strung h ns hA
    rw [hsplit] at hstrung
    exact (strung_append.mp hstrung).2.1.2
  once := hK.threads.nodup
  unshared := hK.threads.unshared
  unhashed := by
    intro n hn
    have hbit : hlistUnhashed l n = true ↔ l.prev n = 0 := by simp [hlistUnhashed]
    rw [hbit]
    constructor
    · intro hzero
      have hout : ¬ B.chains.Member n := fun hin => (prev_ne_zero hK.threads hin).1 hzero
      refine ⟨?_, hout⟩
      have hloose := hn.resolve_left hout
      obtain ⟨why, hwhy⟩ := Option.ne_none_iff_exists'.mp hloose
      cases why with
      | initialised => exact hwhy
      | deleted => exact absurd hzero (hK.deleted n hwhy)
    · exact fun h => hK.initialised n h.1
  hashed n hn := by simpa [hashHashed, hlistUnhashed] using (prev_ne_zero hK.threads hn).1
  empty := by
    intro h ns hA
    have hnext : l.next h = ns.headD 0 := @Strung.next_eq l h [] ns (hK.threads.strung h ns hA)
    have hbit : hlistEmpty l h = true ↔ ns.headD 0 = 0 := by simp [hlistEmpty, hnext]
    rw [hbit]
    cases ns with
    | nil => simp
    | cons n ns =>
        have hzero : n ≠ 0 := fun heq => hK.threads.nonnull h _ hA (by simp [heq])
        simpa using hzero

/-- Whatever operations a program performs on its chains, every state of the run has the chains
that the same operations on sequences give, with back links to the pointers that lead to the
nodes, and `hlist_unhashed` tells the nodes that were initialised or removed with
`hlist_del_init`. -/
theorem hlist_operations_refine_sequences (hK : Keeps l B) {ops : List Op}
    (hlegal : EachStep step (fun s op => s.2.Legal op) (l, B) ops) :
    Throughout step Refines (l, B) ops :=
  throughout_of_invariant (I := fun s : Links × Book => Keeps s.1 s.2) (fun _ hs => Refines.of_keeps hs)
    (fun _ _ hs hop => keeps_exec hs hop) hK hlegal

/-- A table of two heads; a node is put into the first chain, one behind it and one between them,
and the first is removed twice before the chain moves to the other head. -/
theorem hlist_operations_refine_sequences_move :
    let ops : List Op := [.hashInit 8 2, .hlistAddHead 100 8, .hlistAddAfter 100 200,
      .hlistAddBefore 300 200, .hashDel 100, .hashDel 100, .hlistMoveList 8 16]
    let start : Links × Book := (⟨fun _ => 0, fun _ => 7⟩, ⟨fun _ => none, fun _ => none⟩)
    EachStep step (fun s op => s.2.Legal op) start ops ∧
      (run step start ops).2.chains 16 = some [300, 200] ∧
      hlistUnhashed (run step start ops).1 100 = true ∧ Throughout step Refines start ops := by
  intro ops start
  -- the chains after each step
  have hinit : Book.clear start.2.chains 8 2 =
      fun h => if h = 8 then some [] else if h = 16 then some [] else none := by
    funext h
    by_cases h8 : h = 8 <;> by_cases h16 : h = 16 <;>
      simp [start, Book.clear, List.range_succ, Seqs.set, h8, h16]
  have hfirst : Seqs.insertAfter
      (fun h => if h = 8 then some [] else if h = 16 then some [] else none) 8 [100] =
      fun h => if h = 8 then some [100] else if h = 16 then some [] else none := by
    funext h
    by_cases h8 : h = 8 <;> by_cases h16 : h = 16 <;>
      simp [Seqs.insertAfter, Seqs.insertedAfter, h8, h16]
  have hsecond : Seqs.insertAfter
      (fun h => if h = 8 then some [100] else if h = 16 then some [] else none) 100 [200] =
      fun h => if h = 8 then some [100, 200] else if h = 16 then some [] else none := by
    funext h
    by_cases h8 : h = 8 <;> by_cases h16 : h = 16 <;>
      simp [Seqs.insertAfter, Seqs.insertedAfter, h8, h16]
  have hthird : Seqs.insertBefore
      (fun h => if h = 8 then some [100, 200] else if h = 16 then some [] else none) 200 [300] =
      fun h => if h = 8 then some [100, 300, 200] else if h = 16 then some [] else none := by
    funext h
    by_cases h8 : h = 8 <;> by_cases h16 : h = 16 <;>
      simp [Seqs.insertBefore, Seqs.insertedBefore, h8, h16]
  have herase : Seqs.erase
      (fun h => if h = 8 then some [100, 300, 200] else if h = 16 then some [] else none) 100 =
      fun h => if h = 8 then some [300, 200] else if h = 16 then some [] else none := by
    funext h
    by_cases h8 : h = 8 <;> by_cases h16 : h = 16 <;> simp [Seqs.erase, h8, h16]
  have hagain : Seqs.erase
      (fun h => if h = 8 then some [300, 200] else if h = 16 then some [] else none) 100 =
      fun h => if h = 8 then some [300, 200] else if h = 16 then some [] else none := by
    funext h
    by_cases h8 : h = 8 <;> by_cases h16 : h = 16 <;> simp [Seqs.erase, h8, h16]
  have hfree {x : Nat} {ns : List Nat} (hx : x ∉ 8 :: 16 :: ns) :
      ¬ Seqs.Held (fun h => if h = 8 then some ns else if h = 16 then some [] else none) x := by
    rintro ⟨h, ms, hA, hin⟩
    by_cases h8 : h = 8 <;> by_cases h16 : h = 16 <;> simp_all
  have hlegal : EachStep step (fun s op => s.2.Legal op) start ops := by
    simp only [ops, EachStep, step, Book.exec, Book.take, Book.drop, hinit, hfirst, hsecond, hthird,
      herase, hagain]
    refine ⟨?_, ?_, ?_, ?_, ?_, ?_, ?_, trivial⟩
    · simp [Book.Legal, Seqs.Detached, start]
    · exact ⟨⟨by decide, hfree (by decide)⟩, [], rfl⟩
    · exact ⟨⟨by decide, hfree (by decide)⟩, 8, [100], rfl, by simp⟩
    · exact ⟨⟨by decide, hfree (by decide)⟩, 8, [100, 200], rfl, by simp⟩
    · exact Or.inl ⟨8, [100, 300, 200], rfl, by simp⟩
    · exact Or.inr (by simp)
    · exact ⟨⟨[300, 200], rfl⟩, rfl, by decide⟩
  have hK : Keeps start.1 start.2 := by
    refine ⟨⟨?_, ?_, ?_, ?_⟩, ?_, ?_, ?_⟩ <;> simp [start, Seqs.Unshared]
  exact ⟨hlegal, by decide, by decide, hlist_operations_refine_sequences hK hlegal⟩

end OpenAAA.Hlist
