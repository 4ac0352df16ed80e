import OpenAAA.Lib.Ring
import Mathlib.Data.List.Chain

/-!
Collections of circular lists as finite sequences. `Seqs` maps each head to the
nodes of its list; `Represents` says that the links hold these lists, no two of
which share a node. Every change of the links is put together from four steps:
a list of one head is made, a head is given up, a chain of nodes is put in behind
a node, and a chain is taken out.
-/

namespace OpenAAA.Rings

/-- Each of the two nodes leads to the other. -/
def Linked (l : Links) (a b : Nat) : Prop := l.next a = b ∧ l.prev b = a

/-- The links read the other way. -/
def Links.flip (l : Links) : Links := ⟨l.prev, l.next⟩

/-- The nodes of a ring, from any of them on. -/
structure Row (l : Links) (ns : List Nat) : Prop where
  nodup : ns.Nodup
  chain : ns.IsChain (Linked l)
  closed : ∀ a ∈ ns.getLast?, ∀ b ∈ ns.head?, Linked l a b

variable {l l' : Links} {a b c d n p x y h k : Nat} {ns ms us vs xs ys : List Nat}

@[simp]
theorem join_next_self (l : Links) (a b : Nat) : (l.join a b).next a = b :=
  Function.update_self _ _ _

@[simp]
theorem join_prev_self (l : Links) (a b : Nat) : (l.join a b).prev b = a :=
  Function.update_self _ _ _

theorem join_next_of_ne (hx : x ≠ a) : (l.join a b).next x = l.next x :=
  Function.update_of_ne hx _ _

theorem join_prev_of_ne (hx : x ≠ b) : (l.join a b).prev x = l.prev x :=
  Function.update_of_ne hx _ _

theorem linked_join (l : Links) (a b : Nat) : Linked (l.join a b) a b := by
  simp [Linked]

/-- A link that is neither replaced at its start nor at its end stays. -/
theorem Linked.join (h : Linked l x y) (hx : x ≠ a) (hy : y ≠ b) : Linked (l.join a b) x y :=
  ⟨(join_next_of_ne hx).trans h.1, (join_prev_of_ne hy).trans h.2⟩

theorem join_comm (l : Links) (hac : a ≠ c) (hbd : b ≠ d) :
    (l.join a b).join c d = (l.join c d).join a b := by
  simp only [Links.join, Links.mk.injEq]
  exact ⟨Function.update_comm hac _ _ _, Function.update_comm hbd _ _ _⟩

/-- What is assigned at `a` last is what counts. -/
theorem update_update_update (f : Nat → Nat) (a b u v w : Nat) :
    Function.update (Function.update (Function.update f a u) b v) a w =
      Function.update (Function.update f b v) a w := by
  funext x
  by_cases hx : x = a
  · simp [hx]
  · simp [Function.update_apply, hx]

theorem path_iff_isChain : Path l a ns b ↔ (a :: ns ++ [b]).IsChain (Linked l) := by
  induction ns generalizing a with
  | nil => simp [Path, Linked]
  | cons n ns ih => simp [Path, Linked, ih, and_assoc]

theorem Path.flip (hpath : Path l a ns b) : Path l.flip b ns.reverse a := by
  have hback : (b :: ns.reverse ++ [a]) = (a :: ns ++ [b]).reverse := by simp
  rw [path_iff_isChain, hback, List.isChain_reverse]
  refine (path_iff_isChain.mp hpath).imp ?_
  intro x y hxy
  exact ⟨hxy.2, hxy.1⟩

theorem IsRing.flip (hring : IsRing l h ns) : IsRing l.flip h ns.reverse := by
  refine ⟨?_, hring.path.flip⟩
  simpa using hring.nodup

theorem isRing_iff_row : IsRing l h ns ↔ Row l (h :: ns) := by
  have hpath : Path l h ns h ↔ (h :: ns).IsChain (Linked l) ∧
      ∀ a ∈ (h :: ns).getLast?, Linked l a h := by
    rw [path_iff_isChain, List.isChain_append]
    simp
  constructor
  · intro hring
    have hparts := hpath.mp hring.path
    refine ⟨hring.nodup, hparts.1, ?_⟩
    intro a ha b hb
    have hbh : h = b := by simpa using hb
    rw [← hbh]
    exact hparts.2 a ha
  · intro hrow
    refine ⟨hrow.nodup, hpath.mpr ⟨hrow.chain, ?_⟩⟩
    intro a ha
    exact hrow.closed a ha h (by simp)

/-- A ring may be read from any of its nodes on. -/
theorem Row.rotate (hrow : Row l (us ++ vs)) : Row l (vs ++ us) := by
  by_cases hus : us = []
  · simpa [hus] using hrow
  by_cases hvs : vs = []
  · simpa [hvs] using hrow
  obtain ⟨hnodup, hchain, hclosed⟩ := hrow
  obtain ⟨hu, hv, hlink⟩ := List.isChain_append.mp hchain
  rw [List.getLast?_append_of_ne_nil us hvs, List.head?_append_of_ne_nil us hus] at hclosed
  refine ⟨List.nodup_append_comm.mp hnodup, List.isChain_append.mpr ⟨hv, hu, hclosed⟩, ?_⟩
  rw [List.getLast?_append_of_ne_nil vs hus, List.head?_append_of_ne_nil vs hvs]
  exact hlink

theorem Row.next_last (hrow : Row l (ns ++ [x])) :
    (ns ++ [x]).head? = some (l.next x) ∧ l.prev (l.next x) = x := by
  cases hc : (ns ++ [x]).head? with
  | none => simp at hc
  | some y =>
      have hlink := hrow.closed x (by simp) y hc
      rw [hlink.1]
      exact ⟨rfl, hlink.2⟩

theorem Row.prev_head (hrow : Row l (x :: ns)) :
    (x :: ns).getLast? = some (l.prev x) ∧ l.next (l.prev x) = x := by
  cases hc : (x :: ns).getLast? with
  | none => simp at hc
  | some y =>
      have hlink := hrow.closed y hc x (by simp)
      rw [hlink.2]
      exact ⟨rfl, hlink.1⟩

/-- A ring read from one of its nodes on, and up to it. -/
theorem Row.atNode (hrow : Row l (us ++ x :: vs)) :
    Row l (x :: (vs ++ us)) ∧ Row l (vs ++ us ++ [x]) := by
  refine ⟨hrow.rotate, ?_⟩
  rw [List.append_cons] at hrow
  rw [List.append_assoc]
  exact hrow.rotate

/-- The nodes of a ring determine its links. -/
theorem Row.links_eq (hrow : Row l ns) (hrow' : Row l' ns) (hx : x ∈ ns) :
    l'.next x = l.next x ∧ l'.prev x = l.prev x := by
  obtain ⟨us, vs, rfl⟩ := List.append_of_mem hx
  obtain ⟨hfrom, hto⟩ := hrow.atNode
  obtain ⟨hfrom', hto'⟩ := hrow'.atNode
  constructor
  · exact Option.some.inj (hto'.next_last.1.symm.trans hto.next_last.1)
  · exact Option.some.inj (hfrom'.prev_head.1.symm.trans hfrom.prev_head.1)

/-- A join that takes no link of a chain leaves the chain. -/
theorem isChain_join (hchain : ns.IsChain (Linked l)) (ha : a ∉ ns.dropLast) (hb : b ∉ ns.tail) :
    ns.IsChain (Linked (l.join a b)) := by
  induction hchain with
  | nil => exact List.IsChain.nil
  | singleton n => exact List.IsChain.singleton n
  | @cons_cons x y ns hxy _ ih =>
      simp only [List.dropLast_cons_cons, List.mem_cons, not_or] at ha
      simp only [List.tail_cons, List.mem_cons, not_or] at hb
      refine List.IsChain.cons_cons (hxy.join ?_ ?_) (ih ha.2 hb.2)
      · exact fun heq => ha.1 heq.symm
      · exact fun heq => hb.1 heq.symm

/-- A join outside a ring leaves the ring. -/
theorem Row.join (hrow : Row l ns) (ha : a ∉ ns) (hb : b ∉ ns) : Row (l.join a b) ns := by
  refine ⟨hrow.nodup, isChain_join hrow.chain ?_ ?_, ?_⟩
  · exact fun hin => ha (List.mem_of_mem_dropLast hin)
  · exact fun hin => hb (List.mem_of_mem_tail hin)
  · intro x hx y hy
    refine (hrow.closed x hx y hy).join ?_ ?_
    · exact fun heq => ha (heq ▸ List.mem_of_getLast? hx)
    · exact fun heq => hb (heq ▸ List.mem_of_head? hy)

theorem getLast_not_mem_dropLast (hnodup : ns.Nodup) (hlast : ns.getLast? = some b) :
    b ∉ ns.dropLast := by
  obtain ⟨us, rfl⟩ := List.getLast?_eq_some_iff.mp hlast
  rw [List.dropLast_concat]
  intro hin
  exact (List.nodup_append.mp hnodup).2.2 b hin b (by simp) rfl

theorem head_not_mem_tail (hnodup : ns.Nodup) (hfirst : ns.head? = some a) : a ∉ ns.tail := by
  obtain ⟨us, rfl⟩ := List.head?_eq_some_iff.mp hfirst
  exact (List.nodup_cons.mp hnodup).1

/-- A chain whose ends are joined is a ring. -/
theorem row_of_chain (hchain : ns.IsChain (Linked l)) (hnodup : ns.Nodup) (hfirst : ns.head? = some a)
    (hlast : ns.getLast? = some b) : Row (l.join b a) ns := by
  refine ⟨hnodup, ?_, ?_⟩
  · exact isChain_join hchain (getLast_not_mem_dropLast hnodup hlast)
      (head_not_mem_tail hnodup hfirst)
  · intro x hx y hy
    obtain rfl : b = x := by simpa [hlast] using hx
    obtain rfl : a = y := by simpa [hfirst] using hy
    exact linked_join l b a

/-- Two chains whose ends are joined both ways make one ring. -/
theorem row_of_chains (hx : xs.IsChain (Linked l)) (hy : ys.IsChain (Linked l))
    (hnodup : (xs ++ ys).Nodup) (hxa : xs.head? = some a) (hxb : xs.getLast? = some b)
    (hyc : ys.head? = some c) (hyd : ys.getLast? = some d) :
    Row ((l.join b c).join d a) (xs ++ ys) := by
  have hparts := List.nodup_append.mp hnodup
  have hapart : ∀ z ∈ xs, z ∉ ys := fun z hzx hzy => hparts.2.2 z hzx z hzy rfl
  have hxs := isChain_join hx (getLast_not_mem_dropLast hparts.1 hxb)
    (b := c) (fun hin => hapart c (List.mem_of_mem_tail hin) (List.mem_of_head? hyc))
  have hys := isChain_join hy (a := b)
    (fun hin => hapart b (List.mem_of_getLast? hxb) (List.mem_of_mem_dropLast hin))
    (head_not_mem_tail hparts.2.1 hyc)
  have hxy : (xs ++ ys).IsChain (Linked (l.join b c)) := by
    refine List.isChain_append.mpr ⟨hxs, hys, ?_⟩
    intro z hz w hw
    obtain rfl : b = z := by simpa [hxb] using hz
    obtain rfl : c = w := by simpa [hyc] using hw
    exact linked_join l b c
  exact row_of_chain hxy hnodup (by simp [hxa]) (by simp [hyd])

theorem IsRing.join (hring : IsRing l h ns) (ha : a ∉ h :: ns) (hb : b ∉ h :: ns) :
    IsRing (l.join a b) h ns :=
  isRing_iff_row.mpr ((isRing_iff_row.mp hring).join ha hb)

/-- The nodes of each head's list, for the nodes that are heads. -/
abbrev Seqs := Nat → Option (List Nat)

namespace Seqs

/-- The node is a head or in the list of one. -/
def Held (A : Seqs) (x : Nat) : Prop := ∃ h ns, A h = some ns ∧ x ∈ h :: ns

/-- The node is in no list, or it is the head of an empty one. -/
def Detached (A : Seqs) (x : Nat) : Prop := ∀ h ns, A h = some ns → x ∈ h :: ns → h = x ∧ ns = []

def insertedAfter (p : Nat) (ms : List Nat) (h : Nat) (ns : List Nat) : List Nat :=
  if h = p then ms ++ ns else ns.flatMap fun n => if n = p then n :: ms else [n]

def insertedBefore (p : Nat) (ms : List Nat) (h : Nat) (ns : List Nat) : List Nat :=
  if h = p then ns ++ ms else ns.flatMap fun n => if n = p then ms ++ [n] else [n]

theorem mem_insertedAfter :
    y ∈ h :: insertedAfter p ms h ns ↔ y ∈ h :: ns ∨ p ∈ h :: ns ∧ y ∈ ms := by
  by_cases hp : h = p
  · subst hp
    simp only [insertedAfter, if_true, List.mem_cons, List.mem_append, true_or, true_and]
    tauto
  · have hmem : ∀ n, (y ∈ if n = p then n :: ms else [n]) ↔ y = n ∨ n = p ∧ y ∈ ms := by
      intro n
      by_cases hn : n = p <;> simp [hn]
    simp only [insertedAfter, if_neg hp, List.mem_cons, List.mem_flatMap, hmem]
    constructor
    · rintro (hy | ⟨n, hn, hy | ⟨rfl, hy⟩⟩)
      · exact Or.inl (Or.inl hy)
      · exact Or.inl (Or.inr (hy ▸ hn))
      · exact Or.inr ⟨Or.inr hn, hy⟩
    · rintro ((hy | hy) | ⟨hph | hph, hy⟩)
      · exact Or.inl hy
      · exact Or.inr ⟨y, hy, Or.inl rfl⟩
      · exact absurd hph.symm hp
      · exact Or.inr ⟨p, hph, Or.inr ⟨rfl, hy⟩⟩

theorem mem_insertedBefore :
    y ∈ h :: insertedBefore p ms h ns ↔ y ∈ h :: insertedAfter p ms h ns := by
  have hmem : ∀ n, (y ∈ if n = p then ms ++ [n] else [n]) ↔ y ∈ if n = p then n :: ms else [n] := by
    intro n
    by_cases hn : n = p
    · simp [hn, or_comm]
    · simp [hn]
  by_cases hp : h = p
  · simp only [insertedBefore, insertedAfter, if_pos hp, List.mem_cons, List.mem_append]
    tauto
  · simp only [insertedBefore, insertedAfter, if_neg hp, List.mem_cons, List.mem_flatMap, hmem]

/-- `ms` put in behind `p`, in the list that holds `p`. -/
def insertAfter (A : Seqs) (p : Nat) (ms : List Nat) : Seqs := fun h =>
  (A h).map (insertedAfter p ms h)

/-- `ms` put in in front of `p`; in front of a head is at the end of its list. -/
def insertBefore (A : Seqs) (p : Nat) (ms : List Nat) : Seqs := fun h =>
  (A h).map (insertedBefore p ms h)

theorem flatMap_of_not_mem {f : Nat → List Nat} (hp : p ∉ ns) :
    (ns.flatMap fun n => if n = p then f n else [n]) = ns := by
  induction ns with
  | nil => rfl
  | cons n ns ih =>
      simp only [List.mem_cons, not_or] at hp
      rw [List.flatMap_cons, if_neg (fun heq => hp.1 heq.symm), ih hp.2]
      rfl

@[simp]
theorem insertedAfter_nil : insertedAfter p [] h ns = ns := by
  simp [insertedAfter]

theorem insertedAfter_of_not_mem (hp : p ∉ h :: ns) : insertedAfter p ms h ns = ns := by
  simp only [List.mem_cons, not_or] at hp
  rw [insertedAfter, if_neg (fun heq => hp.1 heq.symm), flatMap_of_not_mem hp.2]

theorem cons_insertedAfter (hnodup : (h :: ns).Nodup) (hsplit : h :: ns = us ++ p :: vs) :
    h :: insertedAfter p ms h ns = us ++ p :: (ms ++ vs) := by
  cases us with
  | nil =>
      obtain ⟨rfl, rfl⟩ : h = p ∧ ns = vs := by simpa using hsplit
      simp [insertedAfter]
  | cons u us =>
      obtain ⟨rfl, rfl⟩ : h = u ∧ ns = us ++ p :: vs := by simpa using hsplit
      obtain ⟨hhead, hns⟩ := List.nodup_cons.mp hnodup
      have hne : h ≠ p := fun heq => hhead (by simp [heq])
      have hus : p ∉ us := fun hin => (List.nodup_append.mp hns).2.2 p hin p (by simp) rfl
      have hvs : p ∉ vs := (List.nodup_cons.mp (List.nodup_append.mp hns).2.1).1
      rw [insertedAfter, if_neg hne, List.flatMap_append, List.flatMap_cons, if_pos rfl,
        flatMap_of_not_mem hus, flatMap_of_not_mem hvs]
      simp

theorem cons_insertedBefore (hnodup : (h :: ns).Nodup) (hsplit : h :: ns = us ++ p :: vs)
    (hus : us ≠ []) : h :: insertedBefore p ms h ns = us ++ (ms ++ p :: vs) := by
  obtain ⟨u, us', rfl⟩ := List.exists_cons_of_ne_nil hus
  obtain ⟨rfl, rfl⟩ : h = u ∧ ns = us' ++ p :: vs := by simpa using hsplit
  obtain ⟨hhead, hns⟩ := List.nodup_cons.mp hnodup
  have hne : h ≠ p := fun heq => hhead (by simp [heq])
  have hin : p ∉ us' := fun hin => (List.nodup_append.mp hns).2.2 p hin p (by simp) rfl
  have hvs : p ∉ vs := (List.nodup_cons.mp (List.nodup_append.mp hns).2.1).1
  rw [insertedBefore, if_neg hne, List.flatMap_append, List.flatMap_cons, if_pos rfl,
    flatMap_of_not_mem hin, flatMap_of_not_mem hvs]
  simp

theorem insertedBefore_of_not_mem (hp : p ∉ h :: ns) : insertedBefore p ms h ns = ns := by
  simp only [List.mem_cons, not_or] at hp
  rw [insertedBefore, if_neg (fun heq => hp.1 heq.symm), flatMap_of_not_mem hp.2]

def erase (A : Seqs) (n : Nat) : Seqs := fun h => (A h).map (List.erase · n)

/-- `new` takes the place of `old`, as a node or as a head, and `old` is left with an empty
list. -/
def replace (A : Seqs) (old new : Nat) : Seqs := fun h =>
  if h = old then some []
  else if h = new then A old
  else (A h).map (List.map fun n => if n = old then new else n)

def set (A : Seqs) (h : Nat) (ns : List Nat) : Seqs := Function.update A h (some ns)

/-- `x` is no head any more. -/
def forget (A : Seqs) (x : Nat) : Seqs := Function.update A x none

section Apart

variable {A : Seqs} (hA : A h = some ns) (hx : x ∉ h :: ns)
include hA hx

theorem forget_apart : A.forget x h = some ns := by
  have hne : h ≠ x := fun heq => hx (by simp [heq])
  rw [forget, Function.update_of_ne hne, hA]

theorem set_apart (ms : List Nat) : A.set x ms h = some ns := by
  have hne : h ≠ x := fun heq => hx (by simp [heq])
  rw [set, Function.update_of_ne hne, hA]

theorem insertAfter_apart : A.insertAfter x ms h = some ns := by
  rw [insertAfter, hA, Option.map_some, insertedAfter_of_not_mem hx]

theorem insertBefore_apart : A.insertBefore x ms h = some ns := by
  rw [insertBefore, hA, Option.map_some, insertedBefore_of_not_mem hx]

theorem erase_apart : A.erase x h = some ns := by
  have hnot : x ∉ ns := fun hin => hx (List.mem_cons_of_mem _ hin)
  rw [erase, hA, Option.map_some, List.erase_of_not_mem hnot]

end Apart

theorem set_of_eq {A : Seqs} (hk : A k = some ns) : A.set k ns = A := by
  rw [set, ← hk, Function.update_eq_self]

theorem insertAfter_nil (A : Seqs) : A.insertAfter p [] = A := by
  funext h
  cases hA : A h <;> simp [insertAfter, hA]

end Seqs

namespace Seqs

variable {A : Seqs}

/-- No two lists share a node. -/
def Unshared (A : Seqs) : Prop :=
  ∀ h k ns ms x, A h = some ns → A k = some ms → x ∈ h :: ns → x ∈ k :: ms → h = k

/-- One list may be changed alone where its nodes are in no other. -/
theorem Unshared.set (hA : A.Unshared)
    (hown : ∀ x ∈ k :: ns, ∀ h ms, A h = some ms → x ∈ h :: ms → h = k) :
    (A.set k ns).Unshared := by
  intro h h' ms ms' x hset hset' hx hx'
  by_cases hk : h = k <;> by_cases hk' : h' = k
  · rw [hk, hk']
  · subst hk
    obtain rfl : ns = ms := by simpa [Seqs.set] using hset
    exact (hown x hx h' ms' (by simpa [Seqs.set, hk'] using hset') hx').symm
  · subst hk'
    obtain rfl : ns = ms' := by simpa [Seqs.set] using hset'
    exact hown x hx' h ms (by simpa [Seqs.set, hk] using hset) hx
  · exact hA h h' ms ms' x (by simpa [Seqs.set, hk] using hset)
      (by simpa [Seqs.set, hk'] using hset') hx hx'

/-- A change that only concerns the list of `p` changes the list of its head. -/
theorem Unshared.map_eq_set (hA : A.Unshared) {f : Nat → List Nat → List Nat}
    (hk : A k = some ns) (hp : p ∈ k :: ns) (hf : ∀ h ms, p ∉ h :: ms → f h ms = ms) :
    (fun h => (A h).map (f h)) = A.set k (f k ns) := by
  funext h
  by_cases hh : h = k
  · subst hh
    simp [Seqs.set, hk]
  · cases hother : A h with
    | none => simp [Seqs.set, hh, hother]
    | some ms =>
        have hnot : p ∉ h :: ms := fun hin => hh (hA h k ms ns p hother hk hin hp)
        simp [Seqs.set, hh, hother, hf h ms hnot]

theorem Unshared.insertAfter_eq (hA : A.Unshared) (hk : A k = some ns) (hp : p ∈ k :: ns) :
    A.insertAfter p ms = A.set k (insertedAfter p ms k ns) :=
  hA.map_eq_set hk hp fun _ _ hnot => insertedAfter_of_not_mem hnot

theorem Unshared.insertBefore_eq (hA : A.Unshared) (hk : A k = some ns) (hp : p ∈ k :: ns) :
    A.insertBefore p ms = A.set k (insertedBefore p ms k ns) :=
  hA.map_eq_set hk hp fun _ _ hnot => insertedBefore_of_not_mem hnot

theorem Unshared.erase_eq (hA : A.Unshared) (hk : A k = some (us ++ n :: vs))
    (hnodup : (us ++ n :: vs).Nodup) : A.erase n = A.set k (us ++ vs) := by
  have hus : n ∉ us := fun hin => (List.nodup_append.mp hnodup).2.2 n hin n (by simp) rfl
  have hset : A.erase n = A.set k ((us ++ n :: vs).erase n) := by
    refine hA.map_eq_set (p := n) (f := fun _ ns => ns.erase n) hk (by simp) ?_
    intro h ms hnot
    exact List.erase_of_not_mem fun hin => hnot (List.mem_cons_of_mem _ hin)
  rw [hset, List.erase_append_right _ hus, List.erase_cons_head]

end Seqs

/-- The links hold the lists, which share no node. -/
structure Represents (l : Links) (A : Seqs) : Prop where
  ring : ∀ h ns, A h = some ns → IsRing l h ns
  owner : ∀ h k ns ms x, A h = some ns → A k = some ms → x ∈ h :: ns → x ∈ k :: ms → h = k

variable {A : Seqs}

open Seqs

/-- One list may be changed alone where the links keep the others and its nodes are in none. -/
theorem Represents.set (hR : Represents l A) (hring : IsRing l' k ns)
    (hkeep : ∀ h ms, A h = some ms → h ≠ k → IsRing l' h ms)
    (hown : ∀ x ∈ k :: ns, ∀ h ms, A h = some ms → x ∈ h :: ms → h = k) :
    Represents l' (A.set k ns) := by
  constructor
  · intro h ms hA
    by_cases hk : h = k
    · subst hk
      obtain rfl : ns = ms := by simpa [Seqs.set] using hA
      exact hring
    · exact hkeep h ms (by simpa [Seqs.set, hk] using hA) hk
  · exact Unshared.set hR.owner hown

theorem Represents.forget (hR : Represents l A) (x : Nat) : Represents l (A.forget x) := by
  have hof : ∀ h ns, A.forget x h = some ns → A h = some ns := by
    intro h ns hA
    by_cases hx : h = x
    · simp [Seqs.forget, hx] at hA
    · simpa [Seqs.forget, hx] using hA
  constructor
  · exact fun h ns hA => hR.ring h ns (hof h ns hA)
  · exact fun h k ns ms x hA hA' => hR.owner h k ns ms x (hof h ns hA) (hof k ms hA')

/-- A node that no other list holds becomes the head of an empty list. -/
theorem Represents.init (hR : Represents l A)
    (hx : ∀ h ns, A h = some ns → x ∈ h :: ns → h = x) :
    Represents (l.join x x) (A.set x []) := by
  refine hR.set isRing_nil ?_ ?_
  · intro h ms hA hne
    have hnot : x ∉ h :: ms := fun hin => hne (hx h ms hA hin)
    exact (hR.ring h ms hA).join hnot hnot
  · intro y hy h ms hA hin
    obtain rfl : y = x := by simpa using hy
    exact hx h ms hA hin

theorem Represents.insertAfter_eq (hR : Represents l A) (hk : A k = some ns) (hp : p ∈ k :: ns) :
    A.insertAfter p ms = A.set k (insertedAfter p ms k ns) :=
  Unshared.insertAfter_eq hR.owner hk hp

/-- The links of a node in a list are inverse to each other and stay in the list. -/
theorem Represents.links (hR : Represents l A) (hk : A k = some ns) (hp : p ∈ k :: ns) :
    l.prev (l.next p) = p ∧ l.next (l.prev p) = p ∧ l.next p ∈ k :: ns ∧ l.prev p ∈ k :: ns := by
  have hrow := isRing_iff_row.mp (hR.ring k ns hk)
  obtain ⟨us, vs, hsplit⟩ := List.append_of_mem hp
  rw [hsplit] at hrow ⊢
  obtain ⟨hfrom, hto⟩ := hrow.atNode
  have hnext := List.mem_of_head? hto.next_last.1
  have hprev := List.mem_of_getLast? hfrom.prev_head.1
  refine ⟨hto.next_last.2, hfrom.prev_head.2, ?_, ?_⟩
  · simp only [List.mem_append, List.mem_cons, List.not_mem_nil, or_false] at hnext ⊢
    tauto
  · simp only [List.mem_append, List.mem_cons] at hprev ⊢
    tauto

theorem Represents.insertBefore_eq_set (hR : Represents l A) (hk : A k = some ns)
    (hp : p ∈ k :: ns) : A.insertBefore p ms = A.set k (insertedBefore p ms k ns) :=
  Unshared.insertBefore_eq hR.owner hk hp

/-- In front of a node is behind the node in front of it. -/
theorem Represents.insertBefore_eq (hR : Represents l A) (hp : A.Held p) :
    A.insertBefore p ms = A.insertAfter (l.prev p) ms := by
  obtain ⟨k, ns, hk, hpk⟩ := hp
  have hring := hR.ring k ns hk
  have hrow := isRing_iff_row.mp hring
  rw [hR.insertBefore_eq_set hk hpk, hR.insertAfter_eq hk (hR.links hk hpk).2.2.2]
  apply congrArg (A.set k)
  apply List.cons_injective (a := k)
  obtain ⟨us, vs, hsplit⟩ := List.append_of_mem hpk
  rcases List.eq_nil_or_concat us with rfl | ⟨us, q, rfl⟩
  · obtain ⟨rfl, rfl⟩ : k = p ∧ ns = vs := by simpa using hsplit
    obtain ⟨ws, hws⟩ := List.getLast?_eq_some_iff.mp hrow.prev_head.1
    rw [insertedBefore, if_pos rfl, cons_insertedAfter hring.nodup hws, List.append_nil,
      ← List.cons_append, hws]
    simp
  · rw [List.concat_eq_append] at hsplit
    have hq : l.prev p = q := by
      have hchain := hrow.chain
      rw [hsplit] at hchain
      exact ((List.isChain_append.mp hchain).2.2 q (by simp) p (by simp)).2
    have hsplit' : k :: ns = us ++ q :: p :: vs := by simpa using hsplit
    rw [cons_insertedBefore hring.nodup hsplit (by simp), hq, cons_insertedAfter hring.nodup hsplit']
    simp

theorem Represents.erase_eq (hR : Represents l A) (hk : A k = some (us ++ n :: vs)) :
    A.erase n = A.set k (us ++ vs) :=
  Unshared.erase_eq hR.owner hk (List.nodup_cons.mp (hR.ring k _ hk).nodup).2

/-- A chain of nodes of no list is put in behind a node. -/
theorem Represents.insertAfter (hR : Represents l A) (hp : A.Held p)
    (hchain : ms.IsChain (Linked l)) (hnodup : ms.Nodup) (hms : ∀ x ∈ ms, ¬ A.Held x)
    (hfirst : ms.head? = some a) (hlast : ms.getLast? = some b) :
    Represents ((l.join b (l.next p)).join p a) (A.insertAfter p ms) := by
  obtain ⟨k, ns, hk, hpk⟩ := hp
  have hring := hR.ring k ns hk
  have hrow := isRing_iff_row.mp hring
  have ha : a ∈ ms := List.mem_of_head? hfirst
  have hb : b ∈ ms := List.mem_of_getLast? hlast
  obtain ⟨us, vs, hsplit⟩ := List.append_of_mem hpk
  -- the ring is read from the node behind `p` on, so that the new nodes come last
  have hturned : Row l (vs ++ (us ++ [p])) := by
    rw [hsplit, List.append_cons] at hrow
    exact hrow.rotate
  have hq : (vs ++ (us ++ [p])).head? = some (l.next p) := by
    rw [← List.append_assoc] at hturned ⊢
    exact hturned.next_last.1
  have hin : ∀ x, x ∈ vs ++ (us ++ [p]) ↔ x ∈ k :: ns := by
    intro x
    rw [hsplit]
    simp only [List.mem_append, List.mem_cons, List.not_mem_nil, or_false]
    tauto
  have hnext : l.next p ∈ k :: ns := (hin _).mp (List.mem_of_head? hq)
  have hheld : ∀ x ∈ k :: ns, A.Held x := fun x hx => ⟨k, ns, hk, hx⟩
  have hapart : ∀ x ∈ k :: ns, ∀ y ∈ ms, x ≠ y := by
    intro x hx y hy heq
    exact hms y hy (heq ▸ hheld x hx)
  have hclosed : Row ((l.join b (l.next p)).join p a) (vs ++ (us ++ [p]) ++ ms) := by
    rw [join_comm l (hapart p hpk b hb).symm (hapart _ hnext a ha)]
    refine row_of_chains hturned.chain hchain ?_ hq (by simp) hfirst hlast
    refine List.nodup_append.mpr ⟨hturned.nodup, hnodup, ?_⟩
    exact fun x hx y hy => hapart x ((hin x).mp hx) y hy
  rw [hR.insertAfter_eq hk hpk]
  have hinserted : k :: insertedAfter p ms k ns = _ := cons_insertedAfter hring.nodup hsplit
  refine hR.set ?_ ?_ ?_
  · rw [isRing_iff_row, hinserted]
    rw [List.append_assoc] at hclosed
    simpa using hclosed.rotate
  · intro h ms' hA hne
    have hout : ∀ x ∈ k :: ns, x ∉ h :: ms' :=
      fun x hx hx' => hne (hR.owner h k ms' ns x hA hk hx' hx)
    have hnew : ∀ x ∈ ms, x ∉ h :: ms' := fun x hx hx' => hms x hx ⟨h, ms', hA, hx'⟩
    exact ((hR.ring h ms' hA).join (hnew b hb) (hout _ hnext)).join (hout p hpk) (hnew a ha)
  · intro x hx h ms' hA hx'
    rw [hinserted] at hx
    have hcases : x ∈ k :: ns ∨ x ∈ ms := by
      rw [hsplit]
      simp only [List.mem_append, List.mem_cons] at hx ⊢
      tauto
    rcases hcases with hold | hnew
    · exact hR.owner h k ms' ns x hA hk hx' hold
    · exact absurd ⟨h, ms', hA, hx'⟩ (hms x hnew)

/-- A chain of nodes is taken out of the list of a head. -/
theorem Represents.takeOut (hR : Represents l A) (hk : A k = some (us ++ ms ++ vs))
    (hfirst : ms.head? = some a) (hlast : ms.getLast? = some b) :
    Represents (l.join (l.prev a) (l.next b)) (A.set k (us ++ vs)) ∧
      ms.IsChain (Linked (l.join (l.prev a) (l.next b))) ∧ ms.Nodup ∧
        ∀ x ∈ ms, ¬ (A.set k (us ++ vs)).Held x := by
  have hring := hR.ring k _ hk
  have hrow := isRing_iff_row.mp hring
  have hms : ms ≠ [] := by
    rintro rfl
    simp at hfirst
  -- the ring is read from the chain on, so that what is left comes last
  have hturned : Row l (ms ++ (vs ++ k :: us)) := by
    rw [List.append_assoc, ← List.cons_append] at hrow
    have hrotated := hrow.rotate
    rwa [List.append_assoc] at hrotated
  obtain ⟨hchain, hrest, hlink⟩ := List.isChain_append.mp hturned.chain
  obtain ⟨hnodup, hrestNodup, happart⟩ := List.nodup_append.mp hturned.nodup
  have hnext : (vs ++ k :: us).head? = some (l.next b) := by
    cases hc : (vs ++ k :: us).head? with
    | none => simp at hc
    | some q => rw [(hlink b hlast q hc).1]
  have hprev : (vs ++ k :: us).getLast? = some (l.prev a) := by
    cases hc : (vs ++ k :: us).getLast? with
    | none => simp at hc
    | some q =>
        have hq : (ms ++ (vs ++ k :: us)).getLast? = some q := by
          rw [List.getLast?_append_of_ne_nil ms (by simp), hc]
        rw [(hturned.closed q hq a (by simp [hfirst])).2]
  have hleft : ∀ x ∈ vs ++ k :: us, x ∈ k :: (us ++ ms ++ vs) ∧ x ∉ ms := by
    intro x hx
    refine ⟨?_, fun hin => happart x hin x hx rfl⟩
    simp only [List.mem_append, List.mem_cons] at hx ⊢
    tauto
  have hp := hleft _ (List.mem_of_getLast? hprev)
  have hn := hleft _ (List.mem_of_head? hnext)
  refine ⟨hR.set ?_ ?_ ?_, ?_, hnodup, ?_⟩
  · rw [isRing_iff_row, ← List.cons_append]
    exact (row_of_chain hrest hrestNodup hnext hprev).rotate
  · intro h ms' hA hne
    have hout : ∀ x ∈ k :: (us ++ ms ++ vs), x ∉ h :: ms' :=
      fun x hx hx' => hne (hR.owner h k ms' _ x hA hk hx' hx)
    exact (hR.ring h ms' hA).join (hout _ hp.1) (hout _ hn.1)
  · intro x hx h ms' hA hx'
    have hold : x ∈ k :: (us ++ ms ++ vs) := by
      simp only [List.mem_append, List.mem_cons] at hx ⊢
      tauto
    exact hR.owner h k ms' _ x hA hk hx' hold
  · refine isChain_join hchain ?_ ?_
    · exact fun hin => hp.2 (List.mem_of_mem_dropLast hin)
    · exact fun hin => hn.2 (List.mem_of_mem_tail hin)
  · rintro x hx ⟨h, ms', hA, hx'⟩
    by_cases hh : h = k
    · subst hh
      obtain rfl : us ++ vs = ms' := by simpa [Seqs.set] using hA
      refine happart x hx x ?_ rfl
      simp only [List.mem_append, List.mem_cons] at hx' ⊢
      tauto
    · have hold : x ∈ k :: (us ++ ms ++ vs) := by
        simp only [List.mem_append, List.mem_cons]
        tauto
      exact hh (hR.owner h k ms' _ x (by simpa [Seqs.set, hh] using hA) hk hx' hold)

theorem held_forget (hx : A.Detached x) : (A.forget x).Held y ↔ A.Held y ∧ y ≠ x := by
  constructor
  · rintro ⟨h, ns, hA, hy⟩
    by_cases hh : h = x
    · simp [Seqs.forget, hh] at hA
    · have hA' : A h = some ns := by simpa [Seqs.forget, hh] using hA
      refine ⟨⟨h, ns, hA', hy⟩, ?_⟩
      rintro rfl
      exact hh (hx h ns hA' hy).1
  · rintro ⟨⟨h, ns, hA, hy⟩, hne⟩
    refine ⟨h, ns, ?_, hy⟩
    by_cases hh : h = x
    · subst hh
      obtain rfl : ns = [] := (hx h ns hA (by simp)).2
      exact absurd (by simpa using hy) hne
    · simpa [Seqs.forget, hh] using hA

theorem detached_of_not_held (hx : ¬ A.Held x) : A.Detached x :=
  fun h ns hA hin => absurd ⟨h, ns, hA, hin⟩ hx

theorem forget_of_not_held (hx : ¬ A.Held x) : A.forget x = A := by
  have hnone : A x = none := by
    cases hA : A x with
    | none => rfl
    | some ns => exact absurd ⟨x, ns, hA, by simp⟩ hx
  rw [Seqs.forget, ← hnone, Function.update_eq_self]

/-- A detached node is put in behind another. -/
theorem Represents.insertOne (hR : Represents l A) (hx : A.Detached x) (hp : A.Held p)
    (hne : p ≠ x) :
    Represents ((l.join x (l.next p)).join p x) ((A.forget x).insertAfter p [x]) := by
  refine (hR.forget x).insertAfter ((held_forget hx).mpr ⟨hp, hne⟩) ?_ ?_ ?_ rfl rfl
  · exact List.isChain_singleton x
  · exact List.nodup_singleton x
  · intro y hy hheld
    exact ((held_forget hx).mp hheld).2 (by simpa using hy)

/-- A node is taken out of its list. -/
theorem Represents.erase (hR : Represents l A) (hk : A k = some ns) (hn : n ∈ ns) :
    Represents (l.join (l.prev n) (l.next n)) (A.erase n) ∧ ¬ (A.erase n).Held n := by
  obtain ⟨us, vs, rfl⟩ := List.append_of_mem hn
  rw [hR.erase_eq hk]
  have hout := hR.takeOut (show A k = some (us ++ [n] ++ vs) by simpa using hk) rfl rfl
  exact ⟨hout.1, hout.2.2.2 n (by simp)⟩

theorem Represents.held_erase (hR : Represents l A) (hk : A k = some ns) (hn : n ∈ ns) :
    (A.erase n).Held y ↔ A.Held y ∧ y ≠ n := by
  constructor
  · rintro ⟨h, ms, hA, hy⟩
    refine ⟨?_, ?_⟩
    · cases hold : A h with
      | none => simp [Seqs.erase, hold] at hA
      | some ms' =>
          obtain rfl : ms'.erase n = ms := by simpa [Seqs.erase, hold] using hA
          refine ⟨h, ms', hold, ?_⟩
          rcases List.mem_cons.mp hy with rfl | hy
          · exact List.mem_cons_self
          · exact List.mem_cons_of_mem _ (List.mem_of_mem_erase hy)
    · rintro rfl
      exact (hR.erase hk hn).2 ⟨h, ms, hA, hy⟩
  · rintro ⟨⟨h, ms, hA, hy⟩, hne⟩
    refine ⟨h, ms.erase n, by simp [Seqs.erase, hA], ?_⟩
    rcases List.mem_cons.mp hy with rfl | hy
    · exact List.mem_cons_self
    · exact List.mem_cons_of_mem _ ((List.mem_erase_of_ne hne).mpr hy)

/-- The first and the last node of a list that has nodes. -/
theorem IsRing.ends (hring : IsRing l k ms) (hms : ms ≠ []) :
    ms.head? = some (l.next k) ∧ ms.getLast? = some (l.prev k) := by
  have hrow := isRing_iff_row.mp hring
  obtain ⟨m, ms', rfl⟩ := List.exists_cons_of_ne_nil hms
  constructor
  · rw [(List.isChain_cons_cons.mp hrow.chain).1.1]
    rfl
  · have hprev := hrow.prev_head.1
    rwa [List.getLast?_cons_cons] at hprev

theorem held_set_of_not_mem (hk : A k = some ms) (hp : A.Held p) (hnot : p ∉ k :: ms) :
    (A.set k ns).Held p := by
  obtain ⟨h, ns', hA, hin⟩ := hp
  have hne : h ≠ k := by
    rintro rfl
    rw [hk] at hA
    exact hnot (Option.some.inj hA ▸ hin)
  exact ⟨h, ns', by simpa [Seqs.set, hne] using hA, hin⟩

/-- All nodes of a list are put in behind a node of another. -/
theorem Represents.splice (hR : Represents l A) (hk : A k = some ms) (hms : ms ≠ [])
    (hp : A.Held p) (hnot : p ∉ k :: ms) :
    Represents (((l.join p (l.next k)).join (l.prev k) (l.next p)).join k k)
      ((A.set k []).insertAfter p ms) := by
  obtain ⟨hfirst, hlast⟩ := (hR.ring k ms hk).ends hms
  have hlinks := hR.links hk (List.mem_cons_self (a := k))
  have hout := hR.takeOut (show A k = some ([] ++ ms ++ []) by simpa using hk) hfirst hlast
  rw [hlinks.1, hlinks.2.1, List.append_nil] at hout
  obtain ⟨hempty, hchain, hnodup, hfree⟩ := hout
  have hin := hempty.insertAfter (held_set_of_not_mem hk hp hnot) hchain hnodup hfree hfirst hlast
  -- what remains is the order of the three joins
  obtain ⟨hkn, hkp⟩ : l.next k ≠ k ∧ l.prev k ≠ k := by
    have hhead := (List.nodup_cons.mp (hR.ring k ms hk).nodup).1
    constructor
    · exact fun heq => hhead (heq ▸ List.mem_of_head? hfirst)
    · exact fun heq => hhead (heq ▸ List.mem_of_getLast? hlast)
  have hpk : p ≠ k := fun heq => hnot (by simp [heq])
  obtain ⟨h, ns, hA, hph⟩ := hp
  have hnext : l.next p ∉ k :: ms := by
    intro hin'
    have howner := hR.owner h k ns ms _ hA hk (hR.links hA hph).2.2.1 hin'
    subst howner
    exact hnot (Option.some.inj (hk.symm.trans hA) ▸ hph)
  have hpb : p ≠ l.prev k := fun heq => hnot (heq ▸ hlinks.2.2.2)
  have hna : l.next p ≠ l.next k := fun heq => hnext (heq ▸ hlinks.2.2.1)
  have hnk : l.next p ≠ k := fun heq => hnext (by simp [heq])
  rw [join_next_of_ne hpk, join_comm l hkp.symm hnk.symm, join_comm _ hpk.symm hkn.symm,
    join_comm l hpb.symm hna] at hin
  exact hin

/-- The nodes of a list up to one of them become the list of a head that had none. -/
theorem Represents.cut (hR : Represents l A) (hk : A k = some (us ++ n :: vs))
    (hh : A h = some []) (hne : h ≠ k) :
    Represents (((l.join h (l.next k)).join n h).join k (l.next n))
      ((A.set k vs).set h (us ++ [n])) := by
  have hms : us ++ n :: vs = us ++ [n] ++ vs := by simp
  have hnk : n ∈ k :: (us ++ n :: vs) := by simp
  have hnodup := (List.nodup_cons.mp (hR.ring k _ hk).nodup).1
  have hlinks := hR.links hk (List.mem_cons_self (a := k))
  have hlinksn := hR.links hk hnk
  have hfirst : (us ++ [n]).head? = some (l.next k) := by
    have hends := ((hR.ring k _ hk).ends (by simp)).1
    rwa [hms, List.head?_append_of_ne_nil _ (by simp)] at hends
  have hlast : (us ++ [n]).getLast? = some n := by simp
  have hout := hR.takeOut (show A k = some ([] ++ (us ++ [n]) ++ vs) by simpa using hk) hfirst hlast
  rw [hlinks.1, List.nil_append] at hout
  obtain ⟨hrest, hchain, hnodupn, hfree⟩ := hout
  have hhk : h ∉ k :: (us ++ n :: vs) := fun hin => hne (hR.owner h k [] _ h hh hk (by simp) hin)
  have hset : A.set k vs h = some [] := by simpa [Seqs.set, hne] using hh
  have hheld : (A.set k vs).Held h := ⟨h, [], hset, by simp⟩
  have hin := hrest.insertAfter hheld hchain hnodupn hfree hfirst hlast
  rw [hrest.insertAfter_eq hset (by simp)] at hin
  have hself : (l.join k (l.next n)).next h = h := by
    have hring : l.next h = h := (hR.ring h [] hh).path.1
    rw [join_next_of_ne hne, hring]
  have hcons : insertedAfter h (us ++ [n]) h [] = us ++ [n] := by simp [insertedAfter]
  rw [hself, hcons] at hin
  -- what remains is the order of the three joins
  have hnne : n ≠ k := fun heq => hnodup (by simp [heq])
  have hnh : n ≠ h := fun heq => hhk (heq ▸ hnk)
  have hgh : l.next n ≠ h := fun heq => hhk (heq ▸ hlinksn.2.2.1)
  have hah : l.next k ≠ h := fun heq => hhk (heq ▸ hlinks.2.2.1)
  have hga : l.next n ≠ l.next k := by
    intro heq
    have hprev := congrArg l.prev heq
    rw [hlinksn.1, hlinks.1] at hprev
    exact hnne hprev
  rw [join_comm l hnne.symm hgh, join_comm _ hne.symm hga, join_comm l hnh hah.symm] at hin
  exact hin

/-- The nodes of `k` put into a list that was just made at `x`. -/
theorem Represents.insertAfter_new (hnew : Represents l (A.set x [])) (hk : A k = some ms)
    (hne : x ≠ k) : ((A.set x []).set k []).insertAfter x ms = (A.set x ms).set k [] := by
  have hk' : A.set x [] k = some ms := by simpa [Seqs.set, hne.symm] using hk
  have hx' : (A.set x []).set k [] x = some [] := by simp [Seqs.set, hne]
  have hempty := hnew.init (x := k) fun h ns hA hin =>
    hnew.owner h k ns ms k hA hk' hin (by simp)
  have hcons : insertedAfter x ms x [] = ms := by simp [insertedAfter]
  rw [hempty.insertAfter_eq hx' (by simp), hcons]
  simp only [Seqs.set]
  rw [Function.update_comm hne.symm, Function.update_idem]

/-- A list is handed over to a head that no other list holds. -/
theorem Represents.handOver (hR : Represents l A) (hk : A k = some ms) (hx : A.Detached x)
    (hne : x ≠ k) (hms : ms ≠ []) :
    Represents (((l.join x (l.next k)).join (l.prev k) x).join k k) ((A.set x ms).set k []) := by
  have hxk : x ∉ k :: ms := fun hin => hne (hx k ms hk hin).1.symm
  have hlinks := hR.links hk (List.mem_cons_self (a := k))
  have hnew := hR.init fun h ns hA hin => (hx h ns hA hin).1
  have hk' : A.set x [] k = some ms := by simpa [Seqs.set, hne.symm] using hk
  have hheld : (A.set x []).Held x := ⟨x, [], by simp [Seqs.set], by simp⟩
  have hspliced := hnew.splice hk' hms hheld hxk
  have hlink : ((l.join x x).join x (l.next k)).join (l.prev k) x =
      (l.join x (l.next k)).join (l.prev k) x := by
    have hxn : x ≠ l.next k := fun heq => hxk (heq ▸ hlinks.2.2.1)
    simp only [Links.join, Links.mk.injEq, Function.update_idem, true_and]
    rw [Function.update_comm hxn, Function.update_idem]
  rw [hnew.insertAfter_new hk hne, join_next_of_ne hne.symm, join_prev_of_ne hne.symm,
    join_next_self, hlink] at hspliced
  exact hspliced

theorem map_rename_of_not_mem (hn : n ∉ ns) : (ns.map fun m => if m = n then x else m) = ns := by
  have hsame : ∀ m ∈ ns, (if m = n then x else m) = m := by
    intro m hm
    have hne : m ≠ n := fun heq => hn (heq ▸ hm)
    exact if_neg hne
  rw [List.map_congr_left hsame, List.map_id']

/-- In the lists that do not have `n` nothing takes its place. -/
theorem replace_of_not_mem (hhn : h ≠ n) (hhx : h ≠ x) (hnot : ∀ ms, A h = some ms → n ∉ ms) :
    A.replace n x h = A h := by
  cases hA : A h with
  | none => simp [replace, hhn, hhx, hA]
  | some ms => simp [replace, hhn, hhx, hA, map_rename_of_not_mem (hnot ms hA)]

theorem replace_apart (hA : A h = some ns) (hn : n ∉ h :: ns) (hx : x ∉ h :: ns) :
    A.replace n x h = some ns := by
  have hhn : h ≠ n := fun heq => hn (by simp [heq])
  have hhx : h ≠ x := fun heq => hx (by simp [heq])
  rw [replace_of_not_mem hhn hhx, hA]
  intro ms hA'
  obtain rfl : ns = ms := Option.some.inj (hA.symm.trans hA')
  exact fun hin => hn (List.mem_cons_of_mem _ hin)

theorem Represents.replace_head_eq (hR : Represents l A) (hk : A k = some ns) (hne : x ≠ k) :
    A.replace k x = (A.set x ns).set k [] := by
  funext h
  by_cases hhk : h = k
  · simp [replace, Seqs.set, hhk]
  by_cases hhx : h = x
  · simp [replace, Seqs.set, hhx, hne, hk]
  have hnot : ∀ ms, A h = some ms → k ∉ ms := fun ms hA hin =>
    hhk (hR.owner h k ms ns k hA hk (List.mem_cons_of_mem _ hin) (by simp))
  rw [replace_of_not_mem hhk hhx hnot]
  simp [Seqs.set, hhk, hhx]

theorem Represents.replace_node_eq (hR : Represents l A) (hk : A k = some (us ++ n :: vs))
    (hx : A.Detached x) (hne : x ≠ n) :
    A.replace n x = ((A.forget x).set k (us ++ x :: vs)).set n [] := by
  have hnodup := List.nodup_cons.mp (hR.ring k _ hk).nodup
  have hnk : n ≠ k := fun heq => hnodup.1 (by simp [heq])
  have hxk : x ≠ k := by
    rintro rfl
    have hnil := (hx x _ hk (by simp)).2
    simp at hnil
  have hus : n ∉ us := fun hin => (List.nodup_append.mp hnodup.2).2.2 n hin n (by simp) rfl
  have hvs : n ∉ vs := (List.nodup_cons.mp (List.nodup_append.mp hnodup.2).2.1).1
  have hnone : A n = none := by
    cases hA : A n with
    | none => rfl
    | some ms => exact absurd (hR.owner n k ms _ n hA hk (by simp) (by simp)) hnk
  funext h
  by_cases hhn : h = n
  · simp [replace, Seqs.set, hhn]
  by_cases hhx : h = x
  · simp [replace, Seqs.set, Seqs.forget, hhx, hne, hxk, hnone]
  by_cases hhk : h = k
  · simp [replace, Seqs.set, hhk, hnk.symm, hxk.symm, hk, map_rename_of_not_mem hus,
      map_rename_of_not_mem hvs]
  have hnot : ∀ ms, A h = some ms → n ∉ ms := fun ms hA hin =>
    hhk (hR.owner h k ms _ n hA hk (List.mem_cons_of_mem _ hin) (by simp))
  rw [replace_of_not_mem hhn hhx hnot]
  simp [Seqs.set, Seqs.forget, hhn, hhk, hhx]

/-- A detached node takes the place of a node of a list, which is left alone. -/
theorem Represents.replaceNode (hR : Represents l A) (hk : A k = some ns) (hn : n ∈ ns)
    (hx : A.Detached x) (hne : x ≠ n) :
    Represents (((l.join x (l.next n)).join (l.prev n) x).join n n) (A.replace n x) ∧
      l.next n ≠ n := by
  obtain ⟨us, vs, rfl⟩ := List.append_of_mem hn
  have hnk : n ∈ k :: (us ++ n :: vs) := List.mem_cons_of_mem _ hn
  have hring := hR.ring k _ hk
  have hxk : k ≠ x := by
    rintro rfl
    have hnil := (hx k _ hk (by simp)).2
    simp at hnil
  have hnext : l.next n ≠ n := by
    have hnodup := List.nodup_cons.mp hring.nodup
    rw [hring.next_of_append]
    cases vs with
    | nil => exact fun heq => hnodup.1 (by simp [← heq])
    | cons v vs =>
        intro heq
        have htail := (List.nodup_append.mp hnodup.2).2.1
        exact (List.nodup_cons.mp htail).1 (by simp [← heq])
  -- the new node goes in behind the old one, which is then taken out and made a list
  have hin := hR.insertOne hx ⟨k, _, hk, hnk⟩ hne.symm
  have hk' : A.forget x k = some (us ++ n :: vs) := by simpa [Seqs.forget, hxk] using hk
  have hinserted : insertedAfter n [x] k (us ++ n :: vs) = us ++ n :: x :: vs := by
    apply List.cons_injective (a := k)
    rw [cons_insertedAfter hring.nodup (show k :: (us ++ n :: vs) = k :: us ++ n :: vs by simp)]
    simp
  rw [(hR.forget x).insertAfter_eq hk' hnk, hinserted] at hin
  have hk'' : (A.forget x).set k (us ++ n :: x :: vs) k = some (us ++ n :: x :: vs) := by
    simp [Seqs.set]
  obtain ⟨hout, hfree⟩ := hin.erase (n := n) hk'' (by simp)
  rw [hin.erase_eq hk''] at hout hfree
  have halone := hout.init fun h ms hA hmem => absurd ⟨h, ms, hA, hmem⟩ hfree
  have hstate : ((A.forget x).set k (us ++ n :: x :: vs)).set k (us ++ x :: vs) =
      (A.forget x).set k (us ++ x :: vs) := by
    simp [Seqs.set]
  rw [hstate, ← hR.replace_node_eq hk hx hne, join_next_self, join_prev_of_ne hne.symm,
    join_prev_of_ne hnext.symm] at halone
  -- the link from the old node to the new one is gone in the end
  have hlinks : ((((l.join x (l.next n)).join n x).join (l.prev n) x).join n n) =
      (((l.join x (l.next n)).join (l.prev n) x).join n n) := by
    simp only [Links.join, Links.mk.injEq, Function.update_idem, and_true]
    exact update_update_update _ _ _ _ _ _
  rw [hlinks] at halone
  exact ⟨halone, hnext⟩

/-- A detached node becomes the head in place of another, which is left alone. -/
theorem Represents.replaceHead (hR : Represents l A) (hk : A k = some []) (hx : A.Detached x)
    (hne : x ≠ k) : Represents ((l.join x x).join k k) (A.replace k x) := by
  rw [hR.replace_head_eq hk hne]
  have hnew := hR.init fun h ns hA hin => (hx h ns hA hin).1
  have hk' : A.set x [] k = some [] := by simpa [Seqs.set, hne.symm] using hk
  exact hnew.init fun h ns hA hin => hnew.owner h k ns [] k hA hk' hin (by simp)

theorem held_insertAfter (hp : A.Held p) : (A.insertAfter p ms).Held y ↔ A.Held y ∨ y ∈ ms := by
  constructor
  · rintro ⟨h, ns', hA, hy⟩
    obtain ⟨ns, hold, rfl⟩ := Option.map_eq_some_iff.mp hA
    rcases mem_insertedAfter.mp hy with hy | ⟨-, hy⟩
    · exact Or.inl ⟨h, ns, hold, hy⟩
    · exact Or.inr hy
  · rintro (⟨h, ns, hA, hy⟩ | hy)
    · exact ⟨h, _, Option.map_eq_some_iff.mpr ⟨ns, hA, rfl⟩, mem_insertedAfter.mpr (Or.inl hy)⟩
    · obtain ⟨h, ns, hA, hin⟩ := hp
      exact ⟨h, _, Option.map_eq_some_iff.mpr ⟨ns, hA, rfl⟩,
        mem_insertedAfter.mpr (Or.inr ⟨hin, hy⟩)⟩

theorem held_insertBefore : (A.insertBefore p ms).Held y ↔ (A.insertAfter p ms).Held y := by
  constructor
  · rintro ⟨h, ns', hA, hy⟩
    obtain ⟨ns, hold, rfl⟩ := Option.map_eq_some_iff.mp hA
    exact ⟨h, _, Option.map_eq_some_iff.mpr ⟨ns, hold, rfl⟩, mem_insertedBefore.mp hy⟩
  · rintro ⟨h, ns', hA, hy⟩
    obtain ⟨ns, hold, rfl⟩ := Option.map_eq_some_iff.mp hA
    exact ⟨h, _, Option.map_eq_some_iff.mpr ⟨ns, hold, rfl⟩, mem_insertedBefore.mpr hy⟩

theorem held_set : (A.set k ms).Held y ↔ y ∈ k :: ms ∨ (A.forget k).Held y := by
  constructor
  · rintro ⟨h, ns, hA, hy⟩
    by_cases hh : h = k
    · subst hh
      obtain rfl : ms = ns := by simpa [Seqs.set] using hA
      exact Or.inl hy
    · exact Or.inr ⟨h, ns, by simpa [Seqs.set, Seqs.forget, hh] using hA, hy⟩
  · rintro (hy | ⟨h, ns, hA, hy⟩)
    · exact ⟨k, ms, by simp [Seqs.set], hy⟩
    · have hh : h ≠ k := by
        rintro rfl
        simp [Seqs.forget] at hA
      exact ⟨h, ns, by simpa [Seqs.set, Seqs.forget, hh] using hA, hy⟩

theorem held_iff (hk : A k = some ns) : A.Held y ↔ y ∈ k :: ns ∨ (A.forget k).Held y := by
  rw [← held_set, set_of_eq hk]

theorem forget_set (hne : h ≠ k) : (A.set k ns).forget h = (A.forget h).set k ns :=
  Function.update_comm hne.symm _ _ _

theorem held_handOver (hk : A k = some ms) (hx : A.Detached x) (hne : x ≠ k) :
    ((A.set x ms).set k []).Held y ↔ A.Held y ∨ y = x := by
  have hx' : (A.forget k).Detached x := by
    intro h ns hA hin
    by_cases hh : h = k
    · simp [Seqs.forget, hh] at hA
    · exact hx h ns (by simpa [Seqs.forget, hh] using hA) hin
  rw [held_set, forget_set hne.symm, held_set, held_forget hx', held_iff hk]
  simp only [List.mem_cons, List.not_mem_nil, or_false]
  tauto

theorem held_cut (hk : A k = some (us ++ n :: vs)) (hh : A h = some []) (hne : h ≠ k) :
    ((A.set k vs).set h (us ++ [n])).Held y ↔ A.Held y := by
  have hk' : A.forget h k = some (us ++ n :: vs) := by simpa [Seqs.forget, hne.symm] using hk
  rw [held_set, forget_set hne, held_set, held_iff hh, held_iff hk']
  simp only [List.mem_cons, List.mem_append, List.not_mem_nil, or_false]
  tauto

theorem Represents.held_replace (hR : Represents l A) (hx : A.Detached x) (hn : A.Held n)
    (hne : x ≠ n) : (A.replace n x).Held y ↔ A.Held y ∨ y = x := by
  obtain ⟨k, ns, hk, hin⟩ := hn
  rcases List.mem_cons.mp hin with rfl | hmem
  · rw [hR.replace_head_eq hk hne, held_handOver hk hx hne]
  · obtain ⟨us, vs, rfl⟩ := List.append_of_mem hmem
    have hnk : n ≠ k := fun heq => (List.nodup_cons.mp (hR.ring k _ hk).nodup).1 (heq ▸ hmem)
    have hxk : k ≠ x := by
      rintro rfl
      have hnil := (hx k _ hk (by simp)).2
      simp at hnil
    have hk' : A.forget x k = some (us ++ n :: vs) := by simpa [Seqs.forget, hxk] using hk
    have hnone : (A.forget x).forget n = A.forget x := by
      have hA : A.forget x n = none := by
        cases hA : A n with
        | none => simp [Seqs.forget, hne.symm, hA]
        | some ms => exact absurd (hR.owner n k ms _ n hA hk (by simp) hin) hnk
      nth_rewrite 1 [Seqs.forget]
      rw [← hA, Function.update_eq_self]
    have hold := (held_forget (y := y) hx).symm.trans (held_iff hk')
    rw [hR.replace_node_eq hk hx hne, held_set, forget_set hnk, held_set, hnone]
    simp only [List.mem_cons, List.mem_append, List.not_mem_nil, or_false] at hold ⊢
    tauto

end OpenAAA.Rings
