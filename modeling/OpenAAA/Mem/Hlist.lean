import OpenAAA.Lib.Chains
import OpenAAA.Lib.Linked
import OpenAAA.Lib.Runs
import OpenAAA.Mem.List

/-!
The `hlist` of `mem/list.h`, and the hash tables of `generic/hash/table.h` that are arrays
of them. The back link of a node is the address of the pointer that leads to it: `first` of a
head or `next` of another node. Each is the first field of its structure, so the address of
the pointer is that of the structure, and `next` of the model holds both.
-/

namespace OpenAAA.Intrusive

open Rings Chains

/-! ## The operations -/

/-- `ADDR_POISON1` -/
def addrPoison1 : Nat := 0x00100100

/-- `ADDR_POISON2` -/
def addrPoison2 : Nat := 0x00200200

/-- `init_hlist_head` -/
def initHlistHead (l : Links) (h : Nat) : Links := setNext l h 0

/-- `init_hlist_node` -/
def initHlistNode (l : Links) (h : Nat) : Links := setPrev (setNext l h 0) h 0

/-- `hlist_unhashed` -/
def hlistUnhashed (l : Links) (h : Nat) : Bool := l.prev h == 0

/-- `hlist_empty` -/
def hlistEmpty (l : Links) (h : Nat) : Bool := l.next h == 0

/-- `__hlist_del` -/
def hlistUnlink (l : Links) (n : Nat) : Links :=
  let next := l.next n
  let prev := l.prev n
  let l := setNext l prev next
  if next ≠ 0 then setPrev l next prev else l

/-- `hlist_del` -/
def hlistDel (l : Links) (n : Nat) : Links :=
  let l := hlistUnlink l n
  let l := setNext l n addrPoison1
  setPrev l n addrPoison2

/-- `hlist_del_init` -/
def hlistDelInit (l : Links) (n : Nat) : Links :=
  if ¬ hlistUnhashed l n then initHlistNode (hlistUnlink l n) n else l

/-- `hlist_add_head` -/
def hlistAddHead (l : Links) (n h : Nat) : Links :=
  let first := l.next h
  let l := setNext l n first
  let l := if first ≠ 0 then setPrev l first n else l
  let l := setNext l h n
  setPrev l n h

/-- `hlist_add_before` -/
def hlistAddBefore (l : Links) (n next : Nat) : Links :=
  let l := setPrev l n (l.prev next)
  let l := setNext l n next
  let l := setPrev l next n
  setNext l (l.prev n) n

/-- `hlist_add_after` -/
def hlistAddAfter (l : Links) (n next : Nat) : Links :=
  let l := setNext l next (l.next n)
  let l := setNext l n next
  let l := setPrev l next n
  if l.next next ≠ 0 then setPrev l (l.next next) next else l

/-- `hlist_move_list` -/
def hlistMoveList (l : Links) (old n : Nat) : Links :=
  let l := setNext l n (l.next old)
  let l := if l.next n ≠ 0 then setPrev l (l.next n) n else l
  setNext l old 0

/-- `__hash_init` -/
def hashInit (l : Links) (list size : Nat) : Links :=
  (List.range size).foldl (fun l i => initHlistHead l (list + 8 * i)) l

/-- `hash_hashed` -/
def hashHashed (l : Links) (node : Nat) : Bool := !hlistUnhashed l node

/-- `hash_del` -/
def hashDel (l : Links) (node : Nat) : Links := hlistDelInit l node

/-! ## As steps on chains -/

section Links

variable {l : Links} {n h p : Nat}

theorem hlistUnlink_eq (l : Links) (n : Nat) : hlistUnlink l n = link l (l.prev n) (l.next n) := by
  unfold hlistUnlink link
  by_cases hnext : l.next n = 0
  · simp [hnext, setNext]
  · simp [hnext, setNext, setPrev]

theorem hlistAddHead_eq (l : Links) (n h : Nat) :
    hlistAddHead l n h = (link l n (l.next h)).join h n := by
  unfold hlistAddHead link Links.join
  by_cases hfirst : l.next h = 0
  · simp [hfirst, setNext, setPrev]
  · simp [hfirst, setNext, setPrev]

/-- What leads to `next` is what its back link names. -/
theorem hlistAddBefore_eq {next : Nat} (hne : n ≠ next) (hzero : next ≠ 0)
    (hprev : l.next (l.prev next) = next) :
    hlistAddBefore l n next = (link l n (l.next (l.prev next))).join (l.prev next) n := by
  rw [hprev, link_of_ne l n hzero]
  simp only [hlistAddBefore, setNext, setPrev, Links.join, Links.mk.injEq,
    Function.update_of_ne hne, Function.update_self, true_and]
  exact Function.update_comm hne _ _ _

theorem hlistAddAfter_eq {next : Nat} (hne : next ≠ n) (hfresh : l.next n ≠ next) :
    hlistAddAfter l n next = (link l next (l.next n)).join n next := by
  simp only [hlistAddAfter, setNext, setPrev, Links.join, link, Function.update_of_ne hne,
    Function.update_self]
  by_cases hend : l.next n = 0
  · simp [hend]
  · simp only [ne_eq, hend, not_false_eq_true, if_true, if_false, Links.mk.injEq, true_and]
    exact Function.update_comm hfresh.symm _ _ _

theorem hlistMoveList_eq (l : Links) (old n : Nat) :
    hlistMoveList l old n = link (link l n (l.next old)) old 0 := by
  unfold hlistMoveList link
  by_cases hempty : l.next old = 0
  · simp [hempty, setNext]
  · simp [hempty, setNext, setPrev]

end Links

end OpenAAA.Intrusive
