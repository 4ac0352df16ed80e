import OpenAAA.Lib.Ring

/-!
`mem/list.h`: the circular lists that most of the library threads through its
records. The links of a node are its own, so the operations are assignments to
`next` and `prev`, in the order of the source.
-/

namespace OpenAAA.Intrusive

open Rings

def setNext (l : Links) (n v : Nat) : Links := { l with next := Function.update l.next n v }

def setPrev (l : Links) (n v : Nat) : Links := { l with prev := Function.update l.prev n v }

/-- `list_init` -/
def listInit (l : Links) (head : Nat) : Links := setNext (setPrev l head head) head head

/-- `list_empty` -/
def listEmpty (l : Links) (head : Nat) : Bool := l.next head == head

/-- `list_head` -/
def listHead (l : Links) (head : Nat) : Option Nat :=
  if l.next head ≠ head then some (l.next head) else none

/-- `list_next` -/
def listNext (l : Links) (head n : Nat) : Option Nat :=
  if l.next n ≠ head then some (l.next n) else none

/-- `list_insert_after` -/
def listInsertAfter (l : Links) (what after : Nat) : Links :=
  let before := l.next after
  let l := setNext l what before
  let l := setPrev l what after
  let l := setPrev l before what
  setNext l after what

/-- `list_insert_before` -/
def listInsertBefore (l : Links) (what before : Nat) : Links :=
  let after := l.prev before
  let l := setNext l what before
  let l := setPrev l what after
  let l := setPrev l before what
  setNext l after what

/-- `list_add_head` -/
def listAddHead (l : Links) (head n : Nat) : Links := listInsertAfter l n head

/-- `list_add_tail` -/
def listAddTail (l : Links) (head n : Nat) : Links := listInsertBefore l n head

/-- `list_remove` -/
def listRemove (l : Links) (n : Nat) : Links :=
  let before := l.prev n
  let after := l.next n
  let l := setNext l before after
  setPrev l after before

/-- `list_remove_head`, with the node it returns -/
def listRemoveHead (l : Links) (head : Nat) : Option Nat × Links :=
  match listHead l head with
  | some n => (some n, listRemove l n)
  | none => (none, l)

/-- `list_insert_list_after` -/
def listInsertListAfter (l : Links) (what after : Nat) : Links :=
  if listEmpty l what then l
  else
    let l := setNext l (l.prev what) (l.next after)
    let l := setPrev l (l.next after) (l.prev what)
    let l := setPrev l (l.next what) after
    let l := setNext l after (l.next what)
    listInit l what

/-- `list_move` -/
def listMove (l : Links) (target source : Nat) : Links :=
  let l := listInit l target
  let l := listInsertListAfter l source target
  listInit l source

/-- `init_list_head` -/
def initListHead (l : Links) (list : Nat) : Links := setPrev (setNext l list list) list list

/-- `__dlist_add`: `h` between `p` and `n` -/
def dlistAddBetween (l : Links) (h p n : Nat) : Links :=
  let l := setPrev l n h
  let l := setNext l h n
  let l := setPrev l h p
  setNext l p h

/-- `dlist_add` -/
def dlistAdd (l : Links) (n head : Nat) : Links := dlistAddBetween l n head (l.next head)

/-- `dlist_add_tail` -/
def dlistAddTail (l : Links) (n head : Nat) : Links := dlistAddBetween l n (l.prev head) head

/-- `__dlist_del` -/
def dlistDelBetween (l : Links) (prev next : Nat) : Links := setNext (setPrev l next prev) prev next

/-- `__dlist_del_entry` -/
def dlistDelEntry (l : Links) (entry : Nat) : Links :=
  dlistDelBetween l (l.prev entry) (l.next entry)

/-- `dlist_replace` -/
def dlistReplace (l : Links) (old n : Nat) : Links :=
  let l := setNext l n (l.next old)
  let l := setPrev l (l.next n) n
  let l := setPrev l n (l.prev old)
  setNext l (l.prev n) n

/-- `dlist_replace_init` -/
def dlistReplaceInit (l : Links) (old n : Nat) : Links := initListHead (dlistReplace l old n) old

/-- `dlist_del_init` -/
def dlistDelInit (l : Links) (entry : Nat) : Links := initListHead (dlistDelEntry l entry) entry

/-- `dlist_move` -/
def dlistMove (l : Links) (list head : Nat) : Links := dlistAdd (dlistDelEntry l list) list head

/-- `dlist_move_tail` -/
def dlistMoveTail (l : Links) (list head : Nat) : Links :=
  dlistAddTail (dlistDelEntry l list) list head

/-- `dlist_empty` -/
def dlistEmpty (l : Links) (head : Nat) : Bool := l.next head == head

/-- `dlist_rotate_left` -/
def dlistRotateLeft (l : Links) (head : Nat) : Links :=
  if dlistEmpty l head then l
  else
    let first := l.next head
    dlistMoveTail l first head

/-- `dlist_is_singular` -/
def dlistIsSingular (l : Links) (head : Nat) : Bool :=
  !dlistEmpty l head && l.next head == l.prev head

/-- `__dlist_cut_position` -/
def dlistCutBehind (l : Links) (list head entry : Nat) : Links :=
  let newFirst := l.next entry
  let l := setNext l list (l.next head)
  let l := setPrev l (l.next list) list
  let l := setPrev l list entry
  let l := setNext l entry list
  let l := setNext l head newFirst
  setPrev l newFirst head

/-- `dlist_cut_position` -/
def dlistCutPosition (l : Links) (list head entry : Nat) : Links :=
  if dlistEmpty l head then l
  else if dlistIsSingular l head && (l.next head != entry && head != entry) then l
  else if entry = head then initListHead l list
  else dlistCutBehind l list head entry

/-- `__dlist_splice` -/
def dlistSpliceBetween (l : Links) (list prev next : Nat) : Links :=
  let first := l.next list
  let last := l.prev list
  let l := setPrev l first prev
  let l := setNext l prev first
  let l := setNext l last next
  setPrev l next last

/-- `list_splice_init` -/
def listSpliceInit (l : Links) (list head : Nat) : Links :=
  if dlistEmpty l list then l
  else initListHead (dlistSpliceBetween l list head (l.next head)) list

/-- `dlist_splice_tail_init` -/
def dlistSpliceTailInit (l : Links) (list head : Nat) : Links :=
  if dlistEmpty l list then l
  else initListHead (dlistSpliceBetween l list (l.prev head) head) list

/-- The loop of `list_walk`, `dlist_for_each` and `dlist_for_each_prev`: the nodes from `n` on
before the head comes again. -/
def walk (next : Nat → Nat) (head : Nat) : Nat → Nat → Option (List Nat)
  | 0, _ => none
  | fuel + 1, n => if n = head then some [] else (walk next head fuel (next n)).map (n :: ·)

/-- `list_walk`, `dlist_for_each` -/
def listWalk (l : Links) (head fuel : Nat) : Option (List Nat) :=
  walk l.next head fuel (l.next head)

/-- `dlist_for_each_prev` -/
def dlistForEachPrev (l : Links) (head fuel : Nat) : Option (List Nat) :=
  walk l.prev head fuel (l.prev head)

theorem walk_path {l : Links} {a b fuel : Nat} {ns : List Nat} (h : Path l a ns b) (hb : b ∉ ns)
    (hfuel : ns.length < fuel) : walk l.next b fuel (l.next a) = some ns := by
  induction ns generalizing a fuel with
  | nil =>
      obtain ⟨fuel, rfl⟩ := Nat.exists_eq_succ_of_ne_zero (Nat.ne_of_gt hfuel)
      simp [walk, h.1]
  | cons n ns ih =>
      obtain ⟨fuel, rfl⟩ := Nat.exists_eq_succ_of_ne_zero (Nat.ne_of_gt (Nat.zero_lt_of_lt hfuel))
      simp only [List.mem_cons, not_or] at hb
      rw [h.1, walk, if_neg (fun heq => hb.1 heq.symm),
        ih h.2.2 hb.2 (by simpa using hfuel)]
      rfl

theorem listWalk_of_isRing {l : Links} {head fuel : Nat} {nodes : List Nat}
    (h : IsRing l head nodes) (hfuel : nodes.length < fuel) :
    listWalk l head fuel = some nodes :=
  walk_path h.path (List.nodup_cons.mp h.nodup).1 hfuel

/-- `list_head` is the first node of the list. -/
theorem listHead_of_isRing {l : Links} {head : Nat} {nodes : List Nat} (h : IsRing l head nodes) :
    listHead l head = nodes.head? := by
  have hnext := h.path.next_start
  cases nodes with
  | nil => simp [listHead, hnext]
  | cons n ns =>
      have hne : n ≠ head := fun heq => (List.nodup_cons.mp h.nodup).1 (by simp [heq])
      simp [listHead, hnext, hne]

/-- `list_next` is the node behind, if there is one. -/
theorem listNext_of_isRing {l : Links} {head n : Nat} {ns ms : List Nat}
    (h : IsRing l head (ns ++ n :: ms)) : listNext l head n = ms.head? := by
  have hnext := h.next_of_append
  cases ms with
  | nil => simp [listNext, hnext]
  | cons m ms =>
      have hne : m ≠ head := fun heq => (List.nodup_cons.mp h.nodup).1 (by simp [heq])
      simp [listNext, hnext, hne]

theorem listInsertBefore_eq (l : Links) {what before : Nat} (hne : what ≠ before) :
    listInsertBefore l what before = (l.join what before).join (l.prev before) what := by
  simp only [listInsertBefore, setNext, setPrev, Links.join]
  rw [Function.update_comm hne]

/-- Only the links of the new node, of the head and of the last node change. -/
theorem listAddTail_isRing {l : Links} {head n : Nat} {nodes : List Nat}
    (h : IsRing l head nodes) (hnew : n ∉ head :: nodes) :
    IsRing (listAddTail l head n) head (nodes ++ [n]) := by
  have hne : n ≠ head := fun heq => hnew (by simp [heq])
  rw [listAddTail, listInsertBefore_eq l hne]
  exact h.append hnew

/-- A ring that has neither the new node nor the head is not touched. -/
theorem listAddTail_frame {l : Links} {head n other : Nat} {nodes others : List Nat}
    (h : IsRing l head nodes) (hother : IsRing l other others)
    (hapart : ∀ m ∈ head :: nodes, m ∉ other :: others) (hnew : n ∉ other :: others) :
    IsRing (listAddTail l head n) other others := by
  have hlast : l.prev head ∈ head :: nodes := by
    rw [h.path.prev_end]
    exact List.getLast_mem _
  refine hother.congr ?_ ?_
  · intro m hm
    have hn : m ≠ n := fun heq => hnew (heq ▸ hm)
    have hp : m ≠ l.prev head := fun heq => hapart _ hlast (heq ▸ hm)
    simp [listAddTail, listInsertBefore, setNext, setPrev, hn, hp]
  · intro m hm
    have hn : m ≠ n := fun heq => hnew (heq ▸ hm)
    have hh : m ≠ head := fun heq => hapart _ (List.mem_cons_self) (heq ▸ hm)
    simp [listAddTail, listInsertBefore, setNext, setPrev, hn, hh]

end OpenAAA.Intrusive
