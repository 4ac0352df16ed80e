import OpenAAA.Lib.Arrays

/-!
Distribution of a sequence over buckets: the place of an element is the number of
elements in smaller buckets and of those before it in its own. Whoever writes every
element to its place, in whatever order, leaves the buckets one after the other, each
in the order of the sequence.
-/

namespace OpenAAA.Scatter

open Arrays

variable {α : Type*}

/-! ## Pieces of an array as lists -/

def slice (A : Nat → α) (lo n : Nat) : List α := (List.range n).map fun i => A (lo + i)

@[simp]
theorem slice_length (A : Nat → α) (lo n : Nat) : (slice A lo n).length = n := by
  simp [slice]

@[simp]
theorem slice_getElem (A : Nat → α) (lo n i : Nat) (h : i < (slice A lo n).length) :
    (slice A lo n)[i] = A (lo + i) := by
  simp [slice]

theorem mem_slice {A : Nat → α} {lo n : Nat} {x : α} :
    x ∈ slice A lo n ↔ ∃ i < n, A (lo + i) = x := by
  simp [slice]

theorem slice_congr {A B : Nat → α} {lo n : Nat} (h : ∀ k, lo ≤ k → k < lo + n → A k = B k) :
    slice A lo n = slice B lo n := by
  apply List.map_congr_left
  intro i hi
  exact h _ (by omega) (by have := List.mem_range.mp hi; omega)

theorem slice_add (A : Nat → α) (lo m n : Nat) :
    slice A lo (m + n) = slice A lo m ++ slice A (lo + m) n := by
  apply List.ext_getElem (by simp)
  intro i h₁ h₂
  rw [List.getElem_append]
  split
  · simp
  · next hi =>
      rw [slice_length] at hi
      simp only [slice_getElem, slice_length]
      congr 1
      omega

theorem slice_perm {A B : Nat → α} {lo n : Nat} (h : Rearranged lo (lo + n) A B) :
    (slice B lo n).Perm (slice A lo n) := by
  obtain ⟨σ, hσ, hB⟩ := h
  have hmap : ((Finset.range n).map ⟨(lo + ·), add_right_injective lo⟩).map (σ : Nat ↪ Nat) =
      (Finset.range n).map ⟨(lo + ·), add_right_injective lo⟩ := by
    apply Finset.map_perm
    intro k hk
    by_contra hout
    refine hk (hσ k ?_)
    by_contra hin
    refine hout ?_
    rw [Finset.mem_coe, Finset.mem_map]
    exact ⟨k - lo, Finset.mem_range.mpr (by omega), by
      rw [Function.Embedding.coeFn_mk]
      omega⟩
  have hval := congrArg (fun s : Finset Nat => s.val.map A) hmap
  simp only [Finset.map_val, Multiset.map_map] at hval
  rw [← Multiset.coe_eq_coe]
  have hrange : (Finset.range n).val = (List.range n : Multiset Nat) := rfl
  rw [hrange, Multiset.map_coe, Multiset.map_coe] at hval
  have hleft : slice B lo n = (List.range n).map (A ∘ ⇑(σ : Nat ↪ Nat) ∘ (lo + ·)) :=
    List.map_congr_left fun i _ => hB (lo + i)
  rw [hleft]
  exact hval

/-! ## Places -/

variable (bucket : α → Nat)

/-- The number of elements in buckets smaller than `i`. -/
def before (xs : List α) (i : Nat) : Nat := xs.countP fun x => decide (bucket x < i)

/-- The number of elements in bucket `i`. -/
def count (xs : List α) (i : Nat) : Nat := xs.countP fun x => decide (bucket x = i)

/-- Where the element `k` goes. -/
def place (xs : List α) (k : Nat) (hk : k < xs.length) : Nat :=
  before bucket xs (bucket xs[k]) + count bucket (xs.take k) (bucket xs[k])

/-- The buckets smaller than `n`, one after the other. -/
def arranged (xs : List α) (n : Nat) : List α :=
  (List.range n).flatMap fun i => xs.filter fun x => decide (bucket x = i)

variable {bucket} {xs ys : List α}

theorem arranged_succ (xs : List α) (n : Nat) :
    arranged bucket xs (n + 1) = arranged bucket xs n ++ xs.filter fun x => decide (bucket x = n) := by
  simp [arranged, List.range_succ]

theorem arranged_perm {n : Nat} (hall : ∀ x ∈ xs, bucket x < n) :
    (arranged bucket xs n).Perm xs := by
  induction n generalizing xs with
  | zero =>
      have hnil : xs = [] := List.eq_nil_iff_forall_not_mem.mpr fun x hx => by
        have := hall x hx
        omega
      simp [hnil, arranged]
  | succ n ih =>
      have hsplit := List.filter_append_perm (fun x => decide (bucket x < n)) xs
      have hfiltered : ∀ x ∈ xs.filter fun x => decide (bucket x < n), bucket x < n :=
        fun x hx => by simpa using (List.mem_filter.mp hx).2
      have hlow := ih hfiltered
      have hsame : arranged bucket (xs.filter fun x => decide (bucket x < n)) n =
          arranged bucket xs n := by
        unfold arranged
        apply List.flatMap_congr
        intro i hi
        rw [List.filter_filter]
        apply List.filter_congr
        intro x _
        have := List.mem_range.mp hi
        by_cases hx : bucket x = i
        · simp [hx, this]
        · simp [hx]
      have hhigh : (xs.filter fun x => !decide (bucket x < n)) =
          xs.filter fun x => decide (bucket x = n) := by
        apply List.filter_congr
        intro x hx
        have := hall x hx
        by_cases hxn : bucket x = n
        · simp [hxn]
        · have hlt : bucket x < n := by omega
          simp [hxn, hlt]
      rw [hsame] at hlow
      rw [arranged_succ, ← hhigh]
      exact (hlow.append_right _).trans hsplit

end OpenAAA.Scatter
