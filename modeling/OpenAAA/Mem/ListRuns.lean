import OpenAAA.Lib.Runs
import OpenAAA.Lib.Sequences
import OpenAAA.Mem.List

/-!
The operations of `mem/list.h` as operations on finite sequences. A program that
works on any number of lists is a run of `Op`; the abstract machine runs the same
operations on `Seqs`, where every list is the sequence of its nodes. Positions may
be heads or nodes of any list, and a node that was taken out may be put in again.
-/

namespace OpenAAA.Intrusive

open Rings

/-- The operations, with the arguments of the source. -/
inductive Op where
  | listInit (l : Nat)
  | listInsertAfter (what after : Nat)
  | listInsertBefore (what before : Nat)
  | listAddHead (l n : Nat)
  | listAddTail (l n : Nat)
  | listRemove (n : Nat)
  | listRemoveHead (l : Nat)
  | listInsertListAfter (what after : Nat)
  | listMove (target source : Nat)
  | dlistAdd (n head : Nat)
  | dlistAddTail (n head : Nat)
  | dlistDelInit (entry : Nat)
  | dlistMove (list head : Nat)
  | dlistMoveTail (list head : Nat)
  | dlistReplaceInit (old n : Nat)
  | dlistRotateLeft (head : Nat)
  | dlistCutPosition (list head entry : Nat)
  | listSpliceInit (list head : Nat)
  | dlistSpliceTailInit (list head : Nat)

def exec (l : Links) : Op → Links
  | .listInit head => listInit l head
  | .listInsertAfter what after => listInsertAfter l what after
  | .listInsertBefore what before => listInsertBefore l what before
  | .listAddHead head n => listAddHead l head n
  | .listAddTail head n => listAddTail l head n
  | .listRemove n => listRemove l n
  | .listRemoveHead head => (listRemoveHead l head).2
  | .listInsertListAfter what after => listInsertListAfter l what after
  | .listMove target source => listMove l target source
  | .dlistAdd n head => dlistAdd l n head
  | .dlistAddTail n head => dlistAddTail l n head
  | .dlistDelInit entry => dlistDelInit l entry
  | .dlistMove list head => dlistMove l list head
  | .dlistMoveTail list head => dlistMoveTail l list head
  | .dlistReplaceInit old n => dlistReplaceInit l old n
  | .dlistRotateLeft head => dlistRotateLeft l head
  | .dlistCutPosition list head entry => dlistCutPosition l list head entry
  | .listSpliceInit list head => listSpliceInit l list head
  | .dlistSpliceTailInit list head => dlistSpliceTailInit l list head

/-- The node returned; only `list_remove_head` returns one. -/
def returned (l : Links) : Op → Option Nat
  | .listRemoveHead head => (listRemoveHead l head).1
  | _ => none

end OpenAAA.Intrusive

namespace OpenAAA.Rings.Seqs

open Intrusive

/-- The nodes of the list of a head. -/
def nodes (A : Seqs) (h : Nat) : List Nat := (A h).getD []

/-- What the operations do to the sequences. A node put in is no head any more, and one taken
out by `dlist_del_init` or `dlist_replace_init` is the head of an empty list. -/
def exec (A : Seqs) : Op → Seqs
  | .listInit head => A.set head []
  | .listInsertAfter what after => (A.forget what).insertAfter after [what]
  | .listInsertBefore what before => (A.forget what).insertBefore before [what]
  | .listAddHead head n => (A.forget n).insertAfter head [n]
  | .listAddTail head n => (A.forget n).insertBefore head [n]
  | .listRemove n => A.erase n
  | .listRemoveHead head => A.set head (A.nodes head).tail
  | .listInsertListAfter what after => (A.set what []).insertAfter after (A.nodes what)
  | .listMove target source => (A.set target (A.nodes source)).set source []
  | .dlistAdd n head => (A.forget n).insertAfter head [n]
  | .dlistAddTail n head => (A.forget n).insertBefore head [n]
  | .dlistDelInit entry => (A.erase entry).set entry []
  | .dlistMove list head => (A.erase list).insertAfter head [list]
  | .dlistMoveTail list head => (A.erase list).insertBefore head [list]
  | .dlistReplaceInit old n => A.replace old n
  | .dlistRotateLeft head => A.set head ((A.nodes head).rotate 1)
  | .dlistCutPosition list head entry =>
      if entry = head then A
      else (A.set head ((A.nodes head).dropWhile (· ≠ entry)).tail).set list
        ((A.nodes head).takeWhile (· ≠ entry) ++ [entry])
  | .listSpliceInit list head => (A.set list []).insertAfter head (A.nodes list)
  | .dlistSpliceTailInit list head => (A.set list []).insertBefore head (A.nodes list)

def returned (A : Seqs) : Op → Option Nat
  | .listRemoveHead head => (A.nodes head).head?
  | _ => none

def IsHead (A : Seqs) (h : Nat) : Prop := ∃ ns, A h = some ns

/-- The node is in the list of a head. -/
def Member (A : Seqs) (x : Nat) : Prop := ∃ h ns, A h = some ns ∧ x ∈ ns

/-- What the callers of the operations owe: nodes put in are detached, nodes taken out or moved
are in a list, positions are heads or nodes of lists, spliced lists are not spliced into
themselves, and what is filled is empty. -/
def Legal (A : Seqs) : Op → Prop
  | .listInit head => A.Detached head
  | .listInsertAfter what after => A.Detached what ∧ A.Held after ∧ after ≠ what
  | .listInsertBefore what before => A.Detached what ∧ A.Held before ∧ before ≠ what
  | .listAddHead head n => A.Detached n ∧ A.IsHead head ∧ head ≠ n
  | .listAddTail head n => A.Detached n ∧ A.IsHead head ∧ head ≠ n
  | .listRemove n => A.Member n
  | .listRemoveHead head => A.IsHead head
  | .listInsertListAfter what after =>
      A.IsHead what ∧ A.Held after ∧ after ∉ what :: A.nodes what
  | .listMove target source => A.Detached target ∧ A.IsHead source ∧ target ≠ source
  | .dlistAdd n head => A.Detached n ∧ A.Held head ∧ head ≠ n
  | .dlistAddTail n head => A.Detached n ∧ A.Held head ∧ head ≠ n
  | .dlistDelInit entry => A.Member entry
  | .dlistMove list head => A.Member list ∧ A.Held head ∧ head ≠ list
  | .dlistMoveTail list head => A.Member list ∧ A.Held head ∧ head ≠ list
  | .dlistReplaceInit old n => A.Detached n ∧ A.Held old ∧ n ≠ old
  | .dlistRotateLeft head => A.IsHead head
  | .dlistCutPosition list head entry =>
      A list = some [] ∧ A.IsHead head ∧ list ≠ head ∧ entry ∈ head :: A.nodes head
  | .listSpliceInit list head => A.IsHead list ∧ A.Held head ∧ head ∉ list :: A.nodes list
  | .dlistSpliceTailInit list head => A.IsHead list ∧ A.Held head ∧ head ∉ list :: A.nodes list

end OpenAAA.Rings.Seqs

namespace OpenAAA.Intrusive

open Rings Runs

variable {l : Links} {A : Seqs} {x p k n : Nat} {ns : List Nat}

section Joins

variable (l)

theorem dlistAdd_eq : dlistAdd l x p = (l.join x (l.next p)).join p x := rfl

theorem dlistAddTail_eq : dlistAddTail l x p = (l.join x p).join (l.prev p) x := rfl

theorem listInsertAfter_eq (hne : x ≠ l.next p) :
    listInsertAfter l x p = (l.join x (l.next p)).join p x := by
  simp only [listInsertAfter, setNext, setPrev, Links.join]
  rw [Function.update_comm hne]

theorem listSpliceInit_eq (hk : l.next k ≠ k) : listSpliceInit l k p =
    ((l.join p (l.next k)).join (l.prev k) (l.next p)).join k k := by
  rw [listSpliceInit, dlistEmpty, if_neg (by simpa using hk)]
  rfl

theorem dlistCutBehind_eq (list head entry : Nat) : dlistCutBehind l list head entry =
    ((l.join list (l.next head)).join entry list).join head (l.next entry) := by
  simp [dlistCutBehind, setNext, setPrev, Links.join]

/-- The links read on the way are still those before the first assignment. -/
theorem listInsertListAfter_eq (hk : l.next k ≠ k) (hkp : k ≠ l.prev k) (hp : p ≠ l.prev k)
    (hpn : l.next p ≠ l.next k) : listInsertListAfter l k p =
      ((l.join p (l.next k)).join (l.prev k) (l.next p)).join k k := by
  rw [listInsertListAfter, listEmpty, if_neg (by simpa using hk)]
  simp only [listInit, setNext, setPrev, Links.join, Function.update_of_ne hp,
    Function.update_of_ne hkp, Links.mk.injEq]
  rw [Function.update_comm hp, Function.update_comm hpn.symm]
  exact ⟨rfl, rfl⟩

theorem dlistReplaceInit_eq (hk : l.next k ≠ k) : dlistReplaceInit l k x =
    ((l.join x (l.next k)).join (l.prev k) x).join k k := by
  simp [dlistReplaceInit, dlistReplace, initListHead, setNext, setPrev, Links.join,
    Function.update_of_ne hk.symm]

theorem dlistReplaceInit_eq_of_alone (hk : l.next k = k) : dlistReplaceInit l k x =
    (l.join x x).join k k := by
  simp only [dlistReplaceInit, dlistReplace, initListHead, setNext, setPrev, Links.join, hk,
    Function.update_self, Function.update_idem, Links.mk.injEq, true_and]
  exact update_update_update _ _ _ _ _ _

end Joins

/-- The two parts of a list that is cut behind one of its nodes. -/
theorem split_at_mem (hn : n ∈ ns) :
    ns = ns.takeWhile (· ≠ n) ++ n :: (ns.dropWhile (· ≠ n)).tail := by
  induction ns with
  | nil => simp at hn
  | cons m ns ih =>
      by_cases hm : m = n
      · simp [hm]
      · have htail := ih ((List.mem_cons.mp hn).resolve_left fun heq => hm heq.symm)
        rw [List.takeWhile_cons_of_pos (by simpa using hm),
          List.dropWhile_cons_of_pos (by simpa using hm), List.cons_append, ← htail]

section Steps

variable (hR : Represents l A)
include hR

/-- A node that is put in is not among the links at the position. -/
theorem next_ne_of_detached (hx : A.Detached x) (hp : A.Held p) (hne : p ≠ x) :
    l.next p ≠ x := by
  obtain ⟨k, ns, hk, hpk⟩ := hp
  rintro rfl
  obtain ⟨rfl, rfl⟩ := hx k ns hk (hR.links hk hpk).2.2.1
  exact hne (by simpa using hpk)

theorem prev_ne_of_detached (hx : A.Detached x) (hp : A.Held p) (hne : p ≠ x) :
    l.prev p ≠ x := by
  obtain ⟨k, ns, hk, hpk⟩ := hp
  rintro rfl
  obtain ⟨rfl, rfl⟩ := hx k ns hk (hR.links hk hpk).2.2.2
  exact hne (by simpa using hpk)

theorem held_prev (hp : A.Held p) : A.Held (l.prev p) ∧ l.next (l.prev p) = p := by
  obtain ⟨k, ns, hk, hpk⟩ := hp
  exact ⟨⟨k, ns, hk, (hR.links hk hpk).2.2.2⟩, (hR.links hk hpk).2.1⟩

theorem dlistAdd_represents (hx : A.Detached x) (hp : A.Held p) (hne : p ≠ x) :
    Represents (dlistAdd l x p) ((A.forget x).insertAfter p [x]) := by
  rw [dlistAdd_eq]
  exact hR.insertOne hx hp hne

/-- In front of `p` is behind the node in front of it. -/
theorem dlistAddTail_represents (hx : A.Detached x) (hp : A.Held p) (hne : p ≠ x) :
    Represents (dlistAddTail l x p) ((A.forget x).insertBefore p [x]) := by
  obtain ⟨hheld, hnext⟩ := held_prev hR hp
  have hin := hR.insertOne hx hheld (prev_ne_of_detached hR hx hp hne)
  rw [hnext] at hin
  rw [dlistAddTail_eq, (hR.forget x).insertBefore_eq ((held_forget hx).mpr ⟨hp, hne⟩)]
  exact hin

theorem listInsertAfter_represents (hx : A.Detached x) (hp : A.Held p) (hne : p ≠ x) :
    Represents (listInsertAfter l x p) ((A.forget x).insertAfter p [x]) := by
  rw [listInsertAfter_eq l (next_ne_of_detached hR hx hp hne).symm]
  exact hR.insertOne hx hp hne

theorem listInsertBefore_represents (hx : A.Detached x) (hp : A.Held p) (hne : p ≠ x) :
    Represents (listInsertBefore l x p) ((A.forget x).insertBefore p [x]) := by
  rw [listInsertBefore_eq l hne.symm, ← dlistAddTail_eq]
  exact dlistAddTail_represents hR hx hp hne

theorem listRemove_represents (hn : A.Member n) :
    Represents (listRemove l n) (A.erase n) ∧ ¬ (A.erase n).Held n := by
  obtain ⟨k, ns, hk, hin⟩ := hn
  exact hR.erase hk hin

theorem dlistDelInit_represents (hn : A.Member n) :
    Represents (dlistDelInit l n) ((A.erase n).set n []) := by
  obtain ⟨hout, hfree⟩ := listRemove_represents hR hn
  exact hout.init fun h ns hA hin => absurd ⟨h, ns, hA, hin⟩ hfree

theorem dlistMove_represents (hx : A.Member x) (hp : A.Held p) (hne : p ≠ x) :
    Represents (dlistMove l x p) ((A.erase x).insertAfter p [x]) := by
  obtain ⟨k, ns, hk, hin⟩ := hx
  obtain ⟨hout, hfree⟩ := hR.erase hk hin
  have hheld := (hR.held_erase hk hin).mpr ⟨hp, hne⟩
  have hadd := dlistAdd_represents hout (detached_of_not_held hfree) hheld hne
  rwa [forget_of_not_held hfree] at hadd

theorem dlistMoveTail_represents (hx : A.Member x) (hp : A.Held p) (hne : p ≠ x) :
    Represents (dlistMoveTail l x p) ((A.erase x).insertBefore p [x]) := by
  obtain ⟨k, ns, hk, hin⟩ := hx
  obtain ⟨hout, hfree⟩ := hR.erase hk hin
  have hheld := (hR.held_erase hk hin).mpr ⟨hp, hne⟩
  have hadd := dlistAddTail_represents hout (detached_of_not_held hfree) hheld hne
  rwa [forget_of_not_held hfree] at hadd

/-- `list_empty` and `dlist_empty` tell whether the list has nodes. -/
theorem next_eq_self_iff (hk : A k = some ns) : l.next k = k ↔ ns = [] := by
  have hring := hR.ring k ns hk
  cases ns with
  | nil => simpa using hring.path.1
  | cons n ns =>
      have hnext : l.next k = n := hring.path.1
      have hne : n ≠ k := fun heq => (List.nodup_cons.mp hring.nodup).1 (by simp [heq])
      simp [hnext, hne]

theorem next_of_cons (hk : A k = some (n :: ns)) : l.next k = n ∧ n ≠ k := by
  have hnext : l.next k = n := (hR.ring k _ hk).path.1
  refine ⟨hnext, ?_⟩
  intro heq
  have hnil := (next_eq_self_iff hR hk).mp (hnext.trans heq)
  simp at hnil

theorem listSpliceInit_represents (hk : A k = some ns) (hp : A.Held p) (hnot : p ∉ k :: ns) :
    Represents (listSpliceInit l k p) ((A.set k []).insertAfter p ns) := by
  by_cases hns : ns = []
  · subst hns
    have hempty := (next_eq_self_iff hR hk).mpr rfl
    rw [listSpliceInit, dlistEmpty, if_pos (by simpa using hempty), Seqs.set_of_eq hk,
      Seqs.insertAfter_nil]
    exact hR
  · rw [listSpliceInit_eq l (fun heq => hns ((next_eq_self_iff hR hk).mp heq))]
    exact hR.splice hk hns hp hnot

theorem dlistSpliceTailInit_represents (hk : A k = some ns) (hp : A.Held p) (hnot : p ∉ k :: ns) :
    Represents (dlistSpliceTailInit l k p) ((A.set k []).insertBefore p ns) := by
  obtain ⟨hheld, hnext⟩ := held_prev hR hp
  have hprev : l.prev p ∉ k :: ns := by
    intro hin
    have hback := (hR.links hk hin).2.2.1
    rw [hnext] at hback
    exact hnot hback
  have hinit := hR.init (x := k) fun h ms hA hin => hR.owner h k ms ns k hA hk hin (by simp)
  have hbefore := @Represents.insertBefore_eq _ _ ns _ hinit (held_set_of_not_mem hk hp hnot)
  have hpk : p ≠ k := fun heq => hnot (by simp [heq])
  rw [join_prev_of_ne hpk] at hbefore
  have hsplice := listSpliceInit_represents hR hk hheld hprev
  rw [hbefore]
  simpa [listSpliceInit, dlistSpliceTailInit, hnext] using hsplice

theorem listInsertListAfter_represents (hk : A k = some ns) (hp : A.Held p)
    (hnot : p ∉ k :: ns) :
    Represents (listInsertListAfter l k p) ((A.set k []).insertAfter p ns) := by
  have hlinks := hR.links hk (List.mem_cons_self (a := k))
  have hpk : p ≠ k := fun heq => hnot (by simp [heq])
  by_cases hempty : l.next k = k
  · have hns := (next_eq_self_iff hR hk).mp hempty
    subst hns
    rw [listInsertListAfter, listEmpty, if_pos (by simpa using hempty), Seqs.set_of_eq hk,
      Seqs.insertAfter_nil]
    exact hR
  · have hkp : k ≠ l.prev k := fun heq => hempty (by rw [heq]; exact hlinks.2.1.trans heq)
    have hpp : p ≠ l.prev k := fun heq => hnot (heq ▸ hlinks.2.2.2)
    have hpn : l.next p ≠ l.next k := by
      obtain ⟨h, ms, hA, hin⟩ := hp
      intro heq
      have hback := congrArg l.prev heq
      rw [(hR.links hA hin).1, hlinks.1] at hback
      exact hpk hback
    rw [listInsertListAfter_eq l hempty hkp hpp hpn]
    exact hR.splice hk (fun heq => hempty ((next_eq_self_iff hR hk).mpr heq)) hp hnot

theorem listMove_represents (hk : A k = some ns) (hx : A.Detached x) (hne : x ≠ k) :
    Represents (listMove l x k) ((A.set x ns).set k []) := by
  have hxk : x ∉ k :: ns := fun hin => hne (hx k ns hk hin).1.symm
  have hnew : Represents (listInit l x) (A.set x []) :=
    hR.init fun h ms hA hin => (hx h ms hA hin).1
  have hk' : A.set x [] k = some ns := by simpa [Seqs.set, hne.symm] using hk
  have hheld : (A.set x []).Held x := ⟨x, [], by simp [Seqs.set], by simp⟩
  have hspliced := listInsertListAfter_represents hnew hk' hheld hxk
  rw [hnew.insertAfter_new hk hne] at hspliced
  have hk'' : (A.set x ns).set k [] k = some [] := by simp [Seqs.set]
  have hlast := hspliced.init (x := k) fun h ms hA hin =>
    hspliced.owner h k ms [] k hA hk'' hin (by simp)
  rwa [Seqs.set_of_eq hk''] at hlast

theorem listRemoveHead_represents (hk : A k = some ns) :
    Represents (listRemoveHead l k).2 (A.set k ns.tail) ∧ (listRemoveHead l k).1 = ns.head? := by
  cases ns with
  | nil =>
      have hempty := (next_eq_self_iff hR hk).mpr rfl
      simp only [listRemoveHead, listHead, hempty, ne_eq, not_true_eq_false, if_false,
        List.tail_nil, List.head?_nil, Seqs.set_of_eq hk, and_true]
      exact hR
  | cons n ns =>
      obtain ⟨hnext, hne⟩ := next_of_cons hR hk
      have hout := (hR.erase hk (List.mem_cons_self (a := n))).1
      rw [hR.erase_eq (show A k = some ([] ++ n :: ns) from hk)] at hout
      simp only [listRemoveHead, listHead, hnext, ne_eq, hne, not_false_eq_true, if_true,
        List.tail_cons, List.head?_cons, and_true]
      exact hout

theorem dlistRotateLeft_represents (hk : A k = some ns) :
    Represents (dlistRotateLeft l k) (A.set k (ns.rotate 1)) := by
  cases ns with
  | nil =>
      have hempty := (next_eq_self_iff hR hk).mpr rfl
      rw [dlistRotateLeft, dlistEmpty, if_pos (by simpa using hempty), List.rotate_nil,
        Seqs.set_of_eq hk]
      exact hR
  | cons n ns =>
      obtain ⟨hnext, hne⟩ := next_of_cons hR hk
      have hmoved := dlistMoveTail_represents hR ⟨k, _, hk, List.mem_cons_self (a := n)⟩
        ⟨k, _, hk, List.mem_cons_self⟩ hne.symm
      have hout := (hR.erase hk (List.mem_cons_self (a := n))).1
      rw [hR.erase_eq (show A k = some ([] ++ n :: ns) from hk)] at hmoved hout
      have hk' : A.set k ns k = some ns := by simp [Seqs.set]
      rw [List.nil_append] at hmoved hout
      rw [hout.insertBefore_eq_set hk' (by simp)] at hmoved
      have hstate : (A.set k ns).set k (Seqs.insertedBefore k [n] k ns) =
          A.set k ((n :: ns).rotate 1) := by
        simp [Seqs.set, Seqs.insertedBefore]
      rw [hstate] at hmoved
      rw [dlistRotateLeft, dlistEmpty, hnext, if_neg (by simpa using hne)]
      exact hmoved

/-- In a list of one node that node is the only place to cut. -/
theorem eq_of_dlistIsSingular (hk : A k = some ns) (hn : n ∈ ns)
    (hsingular : dlistIsSingular l k = true) : l.next k = n := by
  have hns : ns ≠ [] := List.ne_nil_of_mem hn
  obtain ⟨hfirst, hlast⟩ := (hR.ring k ns hk).ends hns
  have hboth : l.next k = l.prev k := by
    simp only [dlistIsSingular, Bool.and_eq_true, beq_iff_eq] at hsingular
    exact hsingular.2
  obtain ⟨ms, rfl⟩ := List.head?_eq_some_iff.mp hfirst
  cases ms with
  | nil => exact (List.mem_singleton.mp hn).symm
  | cons m ms =>
      rw [List.getLast?_cons_cons, ← hboth] at hlast
      have hnodup := (List.nodup_cons.mp (hR.ring k _ hk).nodup).2
      exact absurd (List.mem_of_getLast? hlast) (List.nodup_cons.mp hnodup).1

/-- The cut before the first node: nothing is handed over. -/
theorem dlistCutPosition_head_represents (hx : A x = some []) :
    Represents (dlistCutPosition l x k k) A := by
  have hinit := hR.init (x := x) fun h ms hA hin => hR.owner h x ms [] x hA hx hin (by simp)
  rw [Seqs.set_of_eq hx] at hinit
  rw [dlistCutPosition]
  by_cases hempty : dlistEmpty l k = true
  · rw [if_pos hempty]
    exact hR
  · rw [if_neg hempty, if_neg (by simp), if_pos rfl]
    exact hinit

theorem dlistCutPosition_represents (hx : A x = some []) (hk : A k = some ns) (hne : x ≠ k)
    (hn : n ∈ ns) :
    Represents (dlistCutPosition l x k n) ((A.set k (ns.dropWhile (· ≠ n)).tail).set x
      (ns.takeWhile (· ≠ n) ++ [n])) := by
  have hempty : l.next k ≠ k :=
    fun heq => List.ne_nil_of_mem hn ((next_eq_self_iff hR hk).mp heq)
  have hnk : n ≠ k := fun heq => (List.nodup_cons.mp (hR.ring k ns hk).nodup).1 (heq ▸ hn)
  have hsingular : ¬ (dlistIsSingular l k && (l.next k != n && k != n)) = true := by
    intro hcond
    simp only [Bool.and_eq_true, bne_iff_ne] at hcond
    exact hcond.2.1 (eq_of_dlistIsSingular hR hk hn hcond.1)
  rw [dlistCutPosition, dlistEmpty, if_neg (by simpa using hempty), if_neg hsingular, if_neg hnk,
    dlistCutBehind_eq]
  rw [split_at_mem hn] at hk
  exact hR.cut hk hx hne

theorem dlistReplaceInit_represents (hx : A.Detached x) (hn : A.Held n) (hne : x ≠ n) :
    Represents (dlistReplaceInit l n x) (A.replace n x) := by
  obtain ⟨k, ns, hk, hin⟩ := hn
  rcases List.mem_cons.mp hin with rfl | hmem
  · by_cases hempty : l.next n = n
    · obtain rfl := (next_eq_self_iff hR hk).mp hempty
      rw [dlistReplaceInit_eq_of_alone l hempty]
      exact hR.replaceHead hk hx hne
    · rw [dlistReplaceInit_eq l hempty, hR.replace_head_eq hk hne]
      exact hR.handOver hk hx hne fun heq => hempty ((next_eq_self_iff hR hk).mpr heq)
  · obtain ⟨hreplaced, hnext⟩ := hR.replaceNode hk hmem hx hne
    rw [dlistReplaceInit_eq l hnext]
    exact hreplaced

end Steps

theorem exec_represents {op : Op} (hR : Represents l A) (hlegal : A.Legal op) :
    Represents (exec l op) (A.exec op) := by
  cases op with
  | listInit head => exact hR.init fun h ns hA hin => (hlegal h ns hA hin).1
  | listInsertAfter what after =>
      exact listInsertAfter_represents hR hlegal.1 hlegal.2.1 hlegal.2.2
  | listInsertBefore what before =>
      exact listInsertBefore_represents hR hlegal.1 hlegal.2.1 hlegal.2.2
  | listAddHead head n =>
      obtain ⟨hn, ⟨ns, hk⟩, hne⟩ := hlegal
      exact listInsertAfter_represents hR hn ⟨head, ns, hk, List.mem_cons_self⟩ hne
  | listAddTail head n =>
      obtain ⟨hn, ⟨ns, hk⟩, hne⟩ := hlegal
      exact listInsertBefore_represents hR hn ⟨head, ns, hk, List.mem_cons_self⟩ hne
  | listRemove n => exact (listRemove_represents hR hlegal).1
  | listRemoveHead head =>
      obtain ⟨ns, hk⟩ := hlegal
      have hout := (listRemoveHead_represents hR hk).1
      simpa [exec, Seqs.exec, Seqs.nodes, hk] using hout
  | listInsertListAfter what after =>
      obtain ⟨⟨ns, hk⟩, hp, hnot⟩ := hlegal
      simp only [Seqs.nodes, hk, Option.getD_some] at hnot
      have hin := listInsertListAfter_represents hR hk hp hnot
      simpa [exec, Seqs.exec, Seqs.nodes, hk] using hin
  | listMove target source =>
      obtain ⟨hx, ⟨ns, hk⟩, hne⟩ := hlegal
      have hin := listMove_represents hR hk hx hne
      simpa [exec, Seqs.exec, Seqs.nodes, hk] using hin
  | dlistAdd n head => exact dlistAdd_represents hR hlegal.1 hlegal.2.1 hlegal.2.2
  | dlistAddTail n head => exact dlistAddTail_represents hR hlegal.1 hlegal.2.1 hlegal.2.2
  | dlistDelInit entry => exact dlistDelInit_represents hR hlegal
  | dlistMove list head => exact dlistMove_represents hR hlegal.1 hlegal.2.1 hlegal.2.2
  | dlistMoveTail list head => exact dlistMoveTail_represents hR hlegal.1 hlegal.2.1 hlegal.2.2
  | dlistReplaceInit old n => exact dlistReplaceInit_represents hR hlegal.1 hlegal.2.1 hlegal.2.2
  | dlistRotateLeft head =>
      obtain ⟨ns, hk⟩ := hlegal
      have hout := dlistRotateLeft_represents hR hk
      simpa [exec, Seqs.exec, Seqs.nodes, hk] using hout
  | dlistCutPosition list head entry =>
      obtain ⟨hx, ⟨ns, hk⟩, hne, hin⟩ := hlegal
      simp only [Seqs.nodes, hk, Option.getD_some] at hin
      by_cases hhead : entry = head
      · subst hhead
        simpa [exec, Seqs.exec] using dlistCutPosition_head_represents hR (k := entry) hx
      · have hmem : entry ∈ ns := (List.mem_cons.mp hin).resolve_left hhead
        have hcut := dlistCutPosition_represents hR hx hk hne hmem
        simpa [exec, Seqs.exec, Seqs.nodes, hk, hhead] using hcut
  | listSpliceInit list head =>
      obtain ⟨⟨ns, hk⟩, hp, hnot⟩ := hlegal
      simp only [Seqs.nodes, hk, Option.getD_some] at hnot
      have hin := listSpliceInit_represents hR hk hp hnot
      simpa [exec, Seqs.exec, Seqs.nodes, hk] using hin
  | dlistSpliceTailInit list head =>
      obtain ⟨⟨ns, hk⟩, hp, hnot⟩ := hlegal
      simp only [Seqs.nodes, hk, Option.getD_some] at hnot
      have hin := dlistSpliceTailInit_represents hR hk hp hnot
      simpa [exec, Seqs.exec, Seqs.nodes, hk] using hin

/-- Every node that an operation is given. -/
def Op.args : Op → List Nat
  | .listInit head | .listRemoveHead head | .dlistRotateLeft head => [head]
  | .listRemove n | .dlistDelInit n => [n]
  | .listInsertAfter n p | .listInsertBefore n p | .listInsertListAfter n p => [n, p]
  | .listAddHead head n | .listAddTail head n => [head, n]
  | .listMove target source => [target, source]
  | .dlistAdd n p | .dlistAddTail n p | .dlistMove n p | .dlistMoveTail n p => [n, p]
  | .dlistReplaceInit old n => [old, n]
  | .dlistCutPosition list head entry => [list, head, entry]
  | .listSpliceInit list p | .dlistSpliceTailInit list p => [list, p]

/-- The nodes that come into a list, or get one of their own. -/
def Op.added : Op → List Nat
  | .listInit n | .listInsertAfter n _ | .listInsertBefore n _ | .listAddHead _ n
  | .listAddTail _ n | .dlistAdd n _ | .dlistAddTail n _ | .listMove n _
  | .dlistReplaceInit _ n => [n]
  | _ => []

/-- The nodes that no list has afterwards. -/
def removed (A : Seqs) : Op → List Nat
  | .listRemove n => [n]
  | .listRemoveHead head => (A.nodes head).head?.toList
  | _ => []

/-- A list that an operation is given no node of stays as it is. -/
theorem exec_apart {op : Op} {h : Nat} (hA : A h = some ns)
    (hapart : ∀ x ∈ op.args, x ∉ h :: ns) : A.exec op h = some ns := by
  cases op with
  | listInit head => exact Seqs.set_apart hA (hapart head (by simp [Op.args])) _
  | listInsertAfter n p | dlistAdd n p | listAddHead p n =>
      have hforget := Seqs.forget_apart hA (hapart n (by simp [Op.args]))
      exact Seqs.insertAfter_apart hforget (hapart p (by simp [Op.args]))
  | listInsertBefore n p | dlistAddTail n p | listAddTail p n =>
      have hforget := Seqs.forget_apart hA (hapart n (by simp [Op.args]))
      exact Seqs.insertBefore_apart hforget (hapart p (by simp [Op.args]))
  | listRemove n => exact Seqs.erase_apart hA (hapart n (by simp [Op.args]))
  | listRemoveHead head | dlistRotateLeft head =>
      exact Seqs.set_apart hA (hapart head (by simp [Op.args])) _
  | listInsertListAfter list p | listSpliceInit list p =>
      have hset := Seqs.set_apart hA (hapart list (by simp [Op.args])) []
      exact Seqs.insertAfter_apart hset (hapart p (by simp [Op.args]))
  | dlistSpliceTailInit list p =>
      have hset := Seqs.set_apart hA (hapart list (by simp [Op.args])) []
      exact Seqs.insertBefore_apart hset (hapart p (by simp [Op.args]))
  | listMove target source =>
      have hset := Seqs.set_apart hA (hapart target (by simp [Op.args])) (A.nodes source)
      exact Seqs.set_apart hset (hapart source (by simp [Op.args])) _
  | dlistDelInit n =>
      have herase := Seqs.erase_apart hA (hapart n (by simp [Op.args]))
      exact Seqs.set_apart herase (hapart n (by simp [Op.args])) _
  | dlistMove n p =>
      have herase := Seqs.erase_apart hA (hapart n (by simp [Op.args]))
      exact Seqs.insertAfter_apart herase (hapart p (by simp [Op.args]))
  | dlistMoveTail n p =>
      have herase := Seqs.erase_apart hA (hapart n (by simp [Op.args]))
      exact Seqs.insertBefore_apart herase (hapart p (by simp [Op.args]))
  | dlistReplaceInit old n =>
      exact replace_apart hA (hapart old (by simp [Op.args])) (hapart n (by simp [Op.args]))
  | dlistCutPosition list head entry =>
      rw [Seqs.exec]
      split
      · exact hA
      · have hset := Seqs.set_apart hA (hapart head (by simp [Op.args]))
          ((A.nodes head).dropWhile (· ≠ entry)).tail
        exact Seqs.set_apart hset (hapart list (by simp [Op.args])) _

section Held

variable {y : Nat}

theorem held_put (hx : A.Detached x) (hp : A.Held p) (hne : p ≠ x) :
    ((A.forget x).insertAfter p [x]).Held y ↔ A.Held y ∨ y = x := by
  rw [held_insertAfter ((held_forget hx).mpr ⟨hp, hne⟩), held_forget hx, List.mem_singleton]
  tauto

theorem held_splice (hk : A k = some ns) (hp : A.Held p) (hnot : p ∉ k :: ns) :
    ((A.set k []).insertAfter p ns).Held y ↔ A.Held y := by
  rw [held_insertAfter (held_set_of_not_mem hk hp hnot), held_set, held_iff hk]
  simp only [List.mem_cons, List.not_mem_nil, or_false]
  tauto

theorem held_moved (hR : Represents l A) (hx : A.Member x) (hp : A.Held p) (hne : p ≠ x) :
    ((A.erase x).insertAfter p [x]).Held y ↔ A.Held y := by
  obtain ⟨k, ns, hk, hin⟩ := hx
  have hheld : A.Held x := ⟨k, ns, hk, List.mem_cons_of_mem _ hin⟩
  rw [held_insertAfter ((hR.held_erase hk hin).mpr ⟨hp, hne⟩), hR.held_erase hk hin,
    List.mem_singleton]
  constructor
  · rintro (hy | rfl)
    · exact hy.1
    · exact hheld
  · intro hy
    by_cases heq : y = x
    · exact Or.inr heq
    · exact Or.inl ⟨hy, heq⟩

end Held

/-- No node is lost and none appears. -/
theorem held_exec {op : Op} {y : Nat} (hR : Represents l A) (hlegal : A.Legal op) :
    (A.exec op).Held y ↔ (A.Held y ∨ y ∈ op.added) ∧ y ∉ removed A op := by
  cases op with
  | listInit head =>
      have hforget := held_forget (y := y) hlegal
      simp only [Seqs.exec, Op.added, removed, held_set, hforget, List.mem_cons, List.not_mem_nil,
        or_false, not_false_eq_true, and_true]
      tauto
  | listInsertAfter n p | dlistAdd n p =>
      have hput := held_put (y := y) hlegal.1 hlegal.2.1 hlegal.2.2
      simpa [Seqs.exec, Op.added, removed] using hput
  | listInsertBefore n p | dlistAddTail n p =>
      have hput := held_put (y := y) hlegal.1 hlegal.2.1 hlegal.2.2
      simpa [Seqs.exec, Op.added, removed, held_insertBefore] using hput
  | listAddHead p n =>
      obtain ⟨hn, ⟨ns, hk⟩, hne⟩ := hlegal
      have hput := held_put (y := y) hn ⟨p, ns, hk, List.mem_cons_self⟩ hne
      simpa [Seqs.exec, Op.added, removed] using hput
  | listAddTail p n =>
      obtain ⟨hn, ⟨ns, hk⟩, hne⟩ := hlegal
      have hput := held_put (y := y) hn ⟨p, ns, hk, List.mem_cons_self⟩ hne
      simpa [Seqs.exec, Op.added, removed, held_insertBefore] using hput
  | listRemove n =>
      obtain ⟨k, ns, hk, hin⟩ := hlegal
      simpa [Seqs.exec, Op.added, removed] using hR.held_erase (y := y) hk hin
  | listRemoveHead head =>
      obtain ⟨ns, hk⟩ := hlegal
      cases ns with
      | nil => simp [Seqs.exec, Op.added, removed, Seqs.nodes, hk, Seqs.set_of_eq hk]
      | cons n ns =>
          have hout := hR.held_erase (y := y) hk (List.mem_cons_self (a := n))
          rw [hR.erase_eq (show A head = some ([] ++ n :: ns) from hk)] at hout
          simpa [Seqs.exec, Op.added, removed, Seqs.nodes, hk] using hout
  | listInsertListAfter list p | listSpliceInit list p =>
      obtain ⟨⟨ns, hk⟩, hp, hnot⟩ := hlegal
      simp only [Seqs.nodes, hk, Option.getD_some] at hnot
      have hsplice := held_splice (y := y) hk hp hnot
      simpa [Seqs.exec, Op.added, removed, Seqs.nodes, hk] using hsplice
  | dlistSpliceTailInit list p =>
      obtain ⟨⟨ns, hk⟩, hp, hnot⟩ := hlegal
      simp only [Seqs.nodes, hk, Option.getD_some] at hnot
      have hsplice := held_splice (y := y) hk hp hnot
      simpa [Seqs.exec, Op.added, removed, Seqs.nodes, hk, held_insertBefore] using hsplice
  | listMove target source =>
      obtain ⟨hx, ⟨ns, hk⟩, hne⟩ := hlegal
      have hmove := held_handOver (y := y) hk hx hne
      simpa [Seqs.exec, Op.added, removed, Seqs.nodes, hk] using hmove
  | dlistDelInit n =>
      obtain ⟨hout, hfree⟩ := listRemove_represents hR hlegal
      obtain ⟨k, ns, hk, hin⟩ := hlegal
      have hheld : A.Held n := ⟨k, ns, hk, List.mem_cons_of_mem _ hin⟩
      simp only [Seqs.exec, Op.added, removed, held_set, forget_of_not_held hfree,
        hR.held_erase hk hin, List.mem_cons, List.not_mem_nil, or_false, not_false_eq_true,
        and_true]
      constructor
      · rintro (rfl | hy)
        · exact hheld
        · exact hy.1
      · intro hy
        by_cases heq : y = n
        · exact Or.inl heq
        · exact Or.inr ⟨hy, heq⟩
  | dlistMove n p =>
      have hmove := held_moved (y := y) hR hlegal.1 hlegal.2.1 hlegal.2.2
      simpa [Seqs.exec, Op.added, removed] using hmove
  | dlistMoveTail n p =>
      have hmove := held_moved (y := y) hR hlegal.1 hlegal.2.1 hlegal.2.2
      simpa [Seqs.exec, Op.added, removed, held_insertBefore] using hmove
  | dlistReplaceInit old n =>
      have hreplace := hR.held_replace (y := y) hlegal.1 hlegal.2.1 hlegal.2.2
      simpa [Seqs.exec, Op.added, removed] using hreplace
  | dlistRotateLeft head =>
      obtain ⟨ns, hk⟩ := hlegal
      simp [Seqs.exec, Op.added, removed, Seqs.nodes, hk, held_set, held_iff hk]
  | dlistCutPosition list head entry =>
      obtain ⟨hx, ⟨ns, hk⟩, hne, hin⟩ := hlegal
      simp only [Seqs.nodes, hk, Option.getD_some] at hin
      by_cases hhead : entry = head
      · simp [Seqs.exec, Op.added, removed, hhead]
      · have hmem : entry ∈ ns := (List.mem_cons.mp hin).resolve_left hhead
        have hsplit := hk
        rw [split_at_mem hmem] at hsplit
        have hcut := held_cut (y := y) hsplit hx hne
        simpa [Seqs.exec, Op.added, removed, Seqs.nodes, hk, hhead] using hcut

/-- What the lists and their sequences have to do with each other. -/
structure Refines (s : Links × Seqs) : Prop where
  inverse : ∀ x, s.2.Held x → s.1.prev (s.1.next x) = x ∧ s.1.next (s.1.prev x) = x
  forwards : ∀ h ns fuel, s.2 h = some ns → ns.length < fuel → listWalk s.1 h fuel = some ns
  backwards : ∀ h ns fuel, s.2 h = some ns → ns.length < fuel →
    dlistForEachPrev s.1 h fuel = some ns.reverse
  once : ∀ h ns, s.2 h = some ns → (h :: ns).Nodup
  unshared : ∀ h k ns ms x, s.2 h = some ns → s.2 k = some ms → x ∈ h :: ns → x ∈ k :: ms → h = k

/-- What one operation does beside the change of its own lists. -/
structure Accounts (s : Links × Seqs) (op : Op) : Prop where
  returned : returned s.1 op = s.2.returned op
  held : ∀ x, (s.2.exec op).Held x ↔ (s.2.Held x ∨ x ∈ op.added) ∧ x ∉ removed s.2 op
  untouched : ∀ h ns, s.2 h = some ns → (∀ x ∈ op.args, x ∉ h :: ns) →
    s.2.exec op h = some ns ∧
      ∀ x ∈ h :: ns, (exec s.1 op).next x = s.1.next x ∧ (exec s.1 op).prev x = s.1.prev x

/-- The operations on the links beside those on the sequences. -/
def step (s : Links × Seqs) (op : Op) : Links × Seqs := (exec s.1 op, s.2.exec op)

theorem Refines.of_represents (hR : Represents l A) : Refines (l, A) where
  inverse := by
    rintro x ⟨h, ns, hA, hin⟩
    exact ⟨(hR.links hA hin).1, (hR.links hA hin).2.1⟩
  forwards h ns fuel hA hfuel := listWalk_of_isRing (hR.ring h ns hA) hfuel
  backwards h ns fuel hA hfuel :=
    listWalk_of_isRing (hR.ring h ns hA).flip (by simpa using hfuel)
  once h ns hA := (hR.ring h ns hA).nodup
  unshared := hR.owner

theorem Accounts.of_represents {op : Op} (hR : Represents l A) (hlegal : A.Legal op) :
    Accounts (l, A) op where
  returned := by
    cases op with
    | listRemoveHead head =>
        obtain ⟨ns, hk⟩ := hlegal
        have hret := (listRemoveHead_represents hR hk).2
        simpa [Intrusive.returned, Seqs.returned, Seqs.nodes, hk] using hret
    | _ => rfl
  held x := held_exec hR hlegal
  untouched := by
    intro h ns hA hapart
    have hsame := exec_apart hA hapart
    have hrow := isRing_iff_row.mp (hR.ring h ns hA)
    have hrow' := isRing_iff_row.mp ((exec_represents hR hlegal).ring h ns hsame)
    exact ⟨hsame, fun x hx => hrow.links_eq hrow' hx⟩

/-- Whatever operations a program performs on its lists, every state of the run holds the lists
that the same operations on sequences give, and no operation touches a list it is not given a
node of. -/
theorem list_operations_refine_sequences (hR : Represents l A) {ops : List Op}
    (hlegal : EachStep step (fun s op => s.2.Legal op) (l, A) ops) :
    Throughout step Refines (l, A) ops ∧ EachStep step Accounts (l, A) ops := by
  have hkeeps : ∀ s op, Represents s.1 s.2 → s.2.Legal op → True →
      Represents (step s op).1 (step s op).2 := fun s op hs hop _ => exec_represents hs hop
  have hall : EachStep step (fun _ _ => True) (l, A) ops := eachStep_const.mpr fun _ _ => trivial
  constructor
  · refine (throughout_iff_eachStep (I := fun s => Represents s.1 s.2)
      (fun s hs => Refines.of_represents hs) hkeeps ?_ hR hlegal).mpr hall
    exact fun s op _ _ hnot => absurd trivial hnot
  · exact eachStep_of_invariant hkeeps (fun s op hs hop => Accounts.of_represents hs hop) hR
      hlegal hall

/-- Two lists are made, one gets two nodes, and the first of them is cut off and put back behind
the second. -/
theorem list_operations_refine_sequences_cut :
    let ops : List Op := [.listInit 1, .listAddTail 1 10, .dlistAddTail 11 1, .listInit 2,
      .dlistCutPosition 2 1 10, .listSpliceInit 2 11]
    let start : Links × Seqs := (⟨id, id⟩, fun _ => none)
    EachStep step (fun s op => s.2.Legal op) start ops ∧ (run step start ops).2 1 = some [11, 10] ∧
      Throughout step Refines start ops ∧ EachStep step Accounts start ops := by
  intro ops start
  -- the lists after each step
  have hone : start.2.exec (.listInit 1) = fun h => if h = 1 then some [] else none := by
    funext h
    by_cases h1 : h = 1 <;> simp [start, Seqs.exec, Seqs.set, h1]
  have htwo : Seqs.exec (fun h => if h = 1 then some [] else none) (.listAddTail 1 10) =
      fun h => if h = 1 then some [10] else none := by
    funext h
    by_cases h1 : h = 1 <;> by_cases h10 : h = 10 <;>
      simp [Seqs.exec, Seqs.insertBefore, Seqs.forget, Seqs.insertedBefore, h1, h10]
  have hthree : Seqs.exec (fun h => if h = 1 then some [10] else none) (.dlistAddTail 11 1) =
      fun h => if h = 1 then some [10, 11] else none := by
    funext h
    by_cases h1 : h = 1 <;> by_cases h11 : h = 11 <;>
      simp [Seqs.exec, Seqs.insertBefore, Seqs.forget, Seqs.insertedBefore, h1, h11]
  have hfour : Seqs.exec (fun h => if h = 1 then some [10, 11] else none) (.listInit 2) =
      fun h => if h = 1 then some [10, 11] else if h = 2 then some [] else none := by
    funext h
    by_cases h1 : h = 1 <;> by_cases h2 : h = 2 <;> simp [Seqs.exec, Seqs.set, h1, h2]
  have hfive : Seqs.exec (fun h => if h = 1 then some [10, 11] else if h = 2 then some [] else none)
      (.dlistCutPosition 2 1 10) =
      fun h => if h = 1 then some [11] else if h = 2 then some [10] else none := by
    funext h
    by_cases h1 : h = 1 <;> by_cases h2 : h = 2 <;> simp [Seqs.exec, Seqs.set, Seqs.nodes, h1, h2]
  have hlegal : EachStep step (fun s op => s.2.Legal op) start ops := by
    simp only [ops, EachStep, step, hone, htwo, hthree, hfour, hfive]
    refine ⟨?_, ?_, ?_, ?_, ?_, ?_, trivial⟩
    · simp [Seqs.Legal, Seqs.Detached, start]
    · simp [Seqs.Legal, Seqs.Detached, Seqs.IsHead]
    · refine ⟨?_, ⟨1, [10], by simp⟩, by decide⟩
      simp [Seqs.Detached]
    · simp [Seqs.Legal, Seqs.Detached]
    · simp [Seqs.Legal, Seqs.IsHead, Seqs.nodes]
    · refine ⟨⟨[10], by simp⟩, ⟨1, [11], by simp⟩, by simp [Seqs.nodes]⟩
  have hR : Represents start.1 start.2 := by
    constructor <;> simp [start]
  exact ⟨hlegal, by decide, list_operations_refine_sequences hR hlegal⟩

end OpenAAA.Intrusive
