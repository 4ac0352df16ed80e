import Mathlib.Tactic

/-!
Singly linked lists threaded through cells that are only known by a `next`
function: `Chain next stop head cells` says that following `next` from `head`
meets exactly `cells`, in order, and then the end marker. The marker may be a
null pointer or any other value that is not a cell.
-/

namespace OpenAAA.Linked

def Chain (next : Nat → Nat) (stop : Nat) : Nat → List Nat → Prop
  | head, [] => head = stop
  | head, cell :: cells => head = cell ∧ Chain next stop (next cell) cells

variable {next next' : Nat → Nat} {stop head : Nat} {cells : List Nat}

theorem Chain.head_eq (h : Chain next stop head cells) : head = cells.headD stop := by
  cases cells with
  | nil => exact h
  | cons cell cells => exact h.1

/-- A chain only depends on the links of its own cells. -/
theorem Chain.congr (h : Chain next stop head cells)
    (hsame : ∀ cell ∈ cells, next' cell = next cell) :
    Chain next' stop head cells := by
  induction cells generalizing head with
  | nil => exact h
  | cons cell cells ih =>
      obtain ⟨hhead, htail⟩ := h
      refine ⟨hhead, ?_⟩
      rw [hsame cell (by simp)]
      exact ih htail (fun c hc => hsame c (by simp [hc]))

/-- Linking a cell in front of a chain that it is not part of. -/
theorem Chain.push {cell : Nat} (h : Chain next stop head cells)
    (hlink : next' cell = head) (hsame : ∀ c ∈ cells, next' c = next c) :
    Chain next' stop cell (cell :: cells) := by
  refine ⟨rfl, ?_⟩
  rw [hlink]
  exact h.congr hsame

/-- Any suffix of the cells is a chain from its own first cell. -/
theorem Chain.suffix {front back : List Nat}
    (h : Chain next stop head (front ++ back)) :
    Chain next stop (back.headD stop) back := by
  induction front generalizing head with
  | nil =>
      have hhead := h.head_eq
      rw [List.nil_append] at hhead h
      rwa [← hhead]
  | cons cell front ih => exact ih h.2

/-- What comes before a suffix is a chain that ends where the suffix starts. -/
theorem Chain.front {front back : List Nat} (h : Chain next stop head (front ++ back)) :
    Chain next (back.headD stop) head front := by
  induction front generalizing head with
  | nil => exact h.head_eq
  | cons cell front ih => exact ⟨h.1, ih h.2⟩

/-- The cells that a walk along `next` meets before the end marker, if there is
one at all. -/
inductive Reaches (next : Nat → Nat) (stop : Nat) : Nat → Nat → Prop where
  | here {cell : Nat} (hcell : cell ≠ stop) : Reaches next stop cell cell
  | later {head cell : Nat} (hhead : head ≠ stop) (htail : Reaches next stop (next head) cell) :
      Reaches next stop head cell

theorem Chain.mem_of_reaches {cell : Nat} (h : Chain next stop head cells)
    (hcell : Reaches next stop head cell) : cell ∈ cells := by
  induction hcell generalizing cells with
  | here hstop =>
      cases cells with
      | nil => exact absurd h hstop
      | cons first rest => simp [h.1]
  | later hstop _ ih =>
      cases cells with
      | nil => exact absurd h hstop
      | cons first rest =>
          obtain ⟨rfl, hrest⟩ := h
          exact List.mem_cons_of_mem _ (ih hrest)

/-! Cells at the places `slot i`, of which the ones that are not on the free list are handed out. -/

section Slots

variable {slot : Nat → Nat} {total i : Nat} {free live : List Nat}

/-- The first free cell is handed out. -/
theorem mem_live_cons_iff (hlive : ∀ p, p ∈ live ↔ ∃ j < total, j ∉ i :: free ∧ p = slot j)
    (hi : i < total) (hfresh : i ∉ free) (p : Nat) :
    p ∈ slot i :: live ↔ ∃ j < total, j ∉ free ∧ p = slot j := by
  rw [List.mem_cons, hlive]
  constructor
  · rintro (rfl | ⟨j, hj, hfree, rfl⟩)
    · exact ⟨i, hi, hfresh, rfl⟩
    · exact ⟨j, hj, fun hmem => hfree (by simp [hmem]), rfl⟩
  · rintro ⟨j, hj, hfree, rfl⟩
    by_cases hij : j = i
    · exact Or.inl (by rw [hij])
    · exact Or.inr ⟨j, hj, by simp [hij, hfree], rfl⟩

/-- A cell is given back. -/
theorem mem_live_erase_iff (hlive : ∀ p, p ∈ live ↔ ∃ j < total, j ∉ free ∧ p = slot j)
    (hnodup : live.Nodup) (hinj : ∀ j, slot j = slot i → j = i) (p : Nat) :
    p ∈ live.erase (slot i) ↔ ∃ j < total, j ∉ i :: free ∧ p = slot j := by
  rw [hnodup.mem_erase_iff, hlive]
  constructor
  · rintro ⟨hne, j, hj, hjfree, rfl⟩
    refine ⟨j, hj, ?_, rfl⟩
    rw [List.mem_cons, not_or]
    exact ⟨fun heq => hne (by rw [heq]), hjfree⟩
  · rintro ⟨j, hj, hjfree, rfl⟩
    rw [List.mem_cons, not_or] at hjfree
    exact ⟨fun heq => hjfree.1 (hinj j heq), j, hj, hjfree.2, rfl⟩

end Slots

end OpenAAA.Linked
