import Mathlib.Tactic

/-!
Circular doubly linked lists. Nodes are known by their addresses and the links
are two functions, so a node carries whatever its owner stores beside the links.
`Path links a nodes b` says that the forward links lead from `a` through `nodes`
to `b` and the backward links lead back the same way; a ring is a path from its
head to its head. Joining two nodes is the only step: an insertion joins twice,
a removal once.
-/

namespace OpenAAA.Rings

structure Links where
  next : Nat → Nat
  prev : Nat → Nat

/-- `b` becomes the successor of `a`. -/
def Links.join (l : Links) (a b : Nat) : Links :=
  ⟨Function.update l.next a b, Function.update l.prev b a⟩

def Path (l : Links) : Nat → List Nat → Nat → Prop
  | a, [], b => l.next a = b ∧ l.prev b = a
  | a, n :: ns, b => l.next a = n ∧ l.prev n = a ∧ Path l n ns b

/-- The ring of a head: distinct nodes, in forward order. -/
structure IsRing (l : Links) (head : Nat) (nodes : List Nat) : Prop where
  nodup : (head :: nodes).Nodup
  path : Path l head nodes head

variable {l l' : Links} {a b n head : Nat} {nodes ns ms : List Nat}

/-- A path only depends on the links it uses. -/
theorem Path.congr (h : Path l a ns b) (hnext : ∀ n ∈ a :: ns, l'.next n = l.next n)
    (hprev : ∀ n ∈ ns ++ [b], l'.prev n = l.prev n) : Path l' a ns b := by
  induction ns generalizing a with
  | nil =>
      obtain ⟨hn, hp⟩ := h
      exact ⟨by rw [hnext a (by simp), hn], by rw [hprev b (by simp), hp]⟩
  | cons n ns ih =>
      obtain ⟨hn, hp, htail⟩ := h
      refine ⟨by rw [hnext a (by simp), hn], by rw [hprev n (by simp), hp], ?_⟩
      exact ih htail (fun m hm => hnext m (List.mem_cons_of_mem _ hm))
        (fun m hm => hprev m (List.mem_cons_of_mem _ hm))

theorem path_append : Path l a (ns ++ n :: ms) b ↔ Path l a ns n ∧ Path l n ms b := by
  induction ns generalizing a with
  | nil => simp [Path, and_assoc]
  | cons m ns ih => simp [Path, ih, and_assoc]

theorem Path.next_start (h : Path l a ns b) : l.next a = ns.headD b := by
  cases ns with
  | nil => exact h.1
  | cons n ns => exact h.1

/-- The node in front of the end of a path. -/
theorem Path.prev_end (h : Path l a ns b) : l.prev b = (a :: ns).getLast (by simp) := by
  induction ns generalizing a with
  | nil => exact h.2
  | cons n ns ih => exact ih h.2.2

theorem path_join (l : Links) (a b : Nat) : Path (l.join a b) a [] b := by
  simp [Path, Links.join]

/-- A path is not touched by a join that takes no link of its own. -/
theorem Path.join {x y : Nat} (h : Path l a ns b) (hx : x ∉ a :: ns) (hy : y ∉ ns ++ [b]) :
    Path (l.join x y) a ns b := by
  refine h.congr ?_ ?_
  · intro n hn
    have hne : n ≠ x := fun heq => hx (heq ▸ hn)
    exact Function.update_of_ne hne _ _
  · intro n hn
    have hne : n ≠ y := fun heq => hy (heq ▸ hn)
    exact Function.update_of_ne hne _ _

/-- A ring without nodes. -/
theorem isRing_nil : IsRing (l.join head head) head [] :=
  ⟨by simp, path_join l head head⟩

theorem IsRing.congr (h : IsRing l head nodes) (hnext : ∀ n ∈ head :: nodes, l'.next n = l.next n)
    (hprev : ∀ n ∈ head :: nodes, l'.prev n = l.prev n) : IsRing l' head nodes := by
  refine ⟨h.nodup, h.path.congr hnext ?_⟩
  intro n hn
  apply hprev
  simpa [or_comm] using hn

/-- The successor of a node of a ring. -/
theorem IsRing.next_of_append (h : IsRing l head (ns ++ n :: ms)) : l.next n = ms.headD head :=
  (path_append.mp h.path).2.next_start

/-- The links determine the nodes of a path that does not pass its end. -/
theorem Path.unique (h : Path l a ns b) (h' : Path l a ms b) (hb : b ∉ ns) (hb' : b ∉ ms) :
    ns = ms := by
  induction ns generalizing a ms with
  | nil =>
      cases ms with
      | nil => rfl
      | cons m ms =>
          have heq : m = b := h'.1.symm.trans h.1
          exact absurd (by simp [heq]) hb'
  | cons n ns ih =>
      cases ms with
      | nil =>
          have heq : n = b := h.1.symm.trans h'.1
          exact absurd (by simp [heq]) hb
      | cons m ms =>
          have heq : m = n := h'.1.symm.trans h.1
          subst heq
          rw [ih h.2.2 h'.2.2 (fun hin => hb (List.mem_cons_of_mem _ hin))
            (fun hin => hb' (List.mem_cons_of_mem _ hin))]

theorem IsRing.unique (h : IsRing l head ns) (h' : IsRing l head ms) : ns = ms :=
  h.path.unique h'.path (List.nodup_cons.mp h.nodup).1 (List.nodup_cons.mp h'.nodup).1

/-- A node joined in behind the last one. -/
theorem IsRing.append (h : IsRing l head nodes) (hnew : n ∉ head :: nodes) :
    IsRing ((l.join n head).join (l.prev head) n) head (nodes ++ [n]) := by
  have hlast : l.prev head ∈ head :: nodes := by
    rw [h.path.prev_end]
    exact List.getLast_mem _
  have hnodup : (head :: (nodes ++ [n])).Nodup := by
    rw [← List.cons_append, List.nodup_append_comm]
    exact List.nodup_cons.mpr ⟨hnew, h.nodup⟩
  refine ⟨hnodup, path_append.mpr ⟨?_, ?_⟩⟩
  · rcases List.eq_nil_or_concat nodes with rfl | ⟨ms, m, rfl⟩
    · have hself : l.prev head = head := h.path.2
      rw [hself]
      exact path_join _ _ _
    · have hprev : l.prev head = m := by
        rw [h.path.prev_end]
        simp
      have hpath := h.path
      have hnodes := h.nodup
      rw [List.concat_eq_append] at hpath hnew hnodes ⊢
      rw [path_append] at hpath ⊢
      rw [hprev]
      refine ⟨?_, path_join _ _ _⟩
      refine (hpath.1.join (l := l) ?_ ?_).join ?_ ?_
      · exact fun hin => hnew (by simp at hin ⊢; tauto)
      · intro hin
        simp only [List.nodup_cons, List.mem_append, List.mem_singleton] at hnodes hin
        tauto
      · intro hin
        rw [← List.cons_append, List.nodup_append] at hnodes
        exact hnodes.2.2 m hin m (by simp) rfl
      · exact fun hin => hnew (by simp at hin ⊢; tauto)
  · have hne : n ≠ l.prev head := fun heq => hnew (heq ▸ hlast)
    have hnh : n ≠ head := fun heq => hnew (by simp [heq])
    refine (path_join l n head).join ?_ ?_
    · simpa using hne.symm
    · simpa using hnh

end OpenAAA.Rings
