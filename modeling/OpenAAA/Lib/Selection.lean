import Mathlib.Data.List.Lex
import Mathlib.Tactic

/-!
Stable sorting by selection. A list is split into a sorted part and the rest, and the
first of the least elements of the rest goes behind the sorted part. What was chosen
before is not greater than what is left, and elements of equal keys stay in order,
because the chosen one is the first of its key.
-/

namespace OpenAAA.Selection

variable {α κ : Type*} [LinearOrder κ] (key : α → κ)

/-- The first of the least elements. -/
def firstMin : α → List α → α
  | z, [] => z
  | z, y :: ys => firstMin (if key y < key z then y else z) ys

/-- What is in front of the first least element is greater, what is behind it is not less. -/
theorem firstMin_split (x : α) (xs : List α) : ∃ us vs, x :: xs = us ++ firstMin key x xs :: vs ∧
    (∀ u ∈ us, key (firstMin key x xs) < key u) ∧ ∀ v ∈ vs, key (firstMin key x xs) ≤ key v := by
  induction xs generalizing x with
  | nil => exact ⟨[], [], rfl, by simp, by simp⟩
  | cons y ys ih =>
      rw [firstMin]
      by_cases hlt : key y < key x
      · rw [if_pos hlt]
        obtain ⟨us, vs, hsplit, hus, hvs⟩ := ih y
        have hy : key (firstMin key y ys) ≤ key y := by
          have hin : y ∈ us ++ firstMin key y ys :: vs := hsplit ▸ List.mem_cons_self
          rcases List.mem_append.mp hin with hin | hin
          · exact le_of_lt (hus y hin)
          · rcases List.mem_cons.mp hin with heq | hin
            · rw [← heq]
            · exact hvs y hin
        refine ⟨x :: us, vs, by rw [hsplit, List.cons_append], ?_, hvs⟩
        intro u hu
        rcases List.mem_cons.mp hu with rfl | hu
        · exact lt_of_le_of_lt hy hlt
        · exact hus u hu
      · rw [if_neg hlt]
        obtain ⟨us, vs, hsplit, hus, hvs⟩ := ih x
        cases us with
        | nil =>
            obtain ⟨hx, rfl⟩ : x = firstMin key x ys ∧ ys = vs := by simpa using hsplit
            refine ⟨[], y :: ys, by rw [← hx, List.nil_append], by simp, ?_⟩
            intro v hv
            rcases List.mem_cons.mp hv with rfl | hv
            · rw [← hx]
              exact le_of_not_gt hlt
            · exact hvs v hv
        | cons u us =>
            obtain ⟨rfl, hrest⟩ : x = u ∧ ys = us ++ firstMin key x ys :: vs := by simpa using hsplit
            refine ⟨x :: y :: us, vs, ?_, ?_, hvs⟩
            · rw [List.cons_append, List.cons_append, ← hrest]
            · have hx := hus x List.mem_cons_self
              intro u hu
              rcases List.mem_cons.mp hu with rfl | hu
              · exact hx
              · rcases List.mem_cons.mp hu with rfl | hu
                · exact lt_of_lt_of_le hx (le_of_not_gt hlt)
                · exact hus u (List.mem_cons_of_mem _ hu)

/-- An element that is not greater than those behind it is the one. -/
theorem firstMin_of_le {x : α} {xs : List α} (h : ∀ y ∈ xs, key x ≤ key y) :
    firstMin key x xs = x := by
  induction xs with
  | nil => rfl
  | cons y ys ih =>
      have hy : ¬ key y < key x := not_lt_of_ge (h y List.mem_cons_self)
      rw [firstMin, if_neg hy]
      exact ih fun z hz => h z (List.mem_cons_of_mem _ hz)

/-- The same elements, in the order of their keys and otherwise in their old order. -/
structure StableSort (xs ys : List α) : Prop where
  perm : ys.Perm xs
  sorted : ys.Pairwise fun a b => key a ≤ key b
  stable : ∀ k, ys.filter (fun a => key a = k) = xs.filter (fun a => key a = k)

/-- `us` has been selected from `xs`, and `vs` is left. -/
structure Selected (xs us vs : List α) : Prop where
  perm : (us ++ vs).Perm xs
  sorted : us.Pairwise fun a b => key a ≤ key b
  below : ∀ u ∈ us, ∀ v ∈ vs, key u ≤ key v
  stable : ∀ k, (us ++ vs).filter (fun a => key a = k) = xs.filter (fun a => key a = k)

variable {key} {xs us vs : List α}

theorem Selected.start (xs : List α) : Selected key xs [] xs :=
  ⟨List.Perm.refl _, List.Pairwise.nil, by simp, fun _ => rfl⟩

theorem Selected.done (h : Selected key xs us []) : StableSort key xs us := by
  have hperm := h.perm
  have hstable := h.stable
  rw [List.append_nil] at hperm hstable
  exact ⟨hperm, h.sorted, hstable⟩

/-- The first least element of the rest is selected. -/
theorem Selected.select {qs : List α} {z : α} (ps : List α)
    (h : Selected key xs us (ps ++ z :: qs)) (hps : ∀ p ∈ ps, key z < key p) (hqs : ∀ q ∈ qs, key z ≤ key q) :
    Selected key xs (us ++ [z]) (ps ++ qs) := by
  have hz : z ∈ ps ++ z :: qs := by simp
  refine ⟨?_, ?_, ?_, ?_⟩
  · refine List.Perm.trans ?_ h.perm
    rw [List.append_assoc, List.singleton_append]
    exact List.perm_middle.symm.append_left us
  · rw [List.pairwise_append]
    refine ⟨h.sorted, List.pairwise_singleton _ _, ?_⟩
    intro u hu v hv
    rw [List.mem_singleton.mp hv]
    exact h.below u hu z hz
  · intro u hu v hv
    have hv' : v ∈ ps ++ z :: qs := by
      simp only [List.mem_append, List.mem_cons] at hv ⊢
      tauto
    rcases List.mem_append.mp hu with hu | hu
    · exact h.below u hu v hv'
    · rw [List.mem_singleton.mp hu]
      rcases List.mem_append.mp hv with hv | hv
      · exact le_of_lt (hps v hv)
      · exact hqs v hv
  · intro k
    rw [← h.stable k]
    by_cases hk : key z = k
    · -- nothing in front of `z` has its key
      have hnone : ps.filter (fun a => key a = k) = [] := by
        rw [List.filter_eq_nil_iff]
        intro p hp heq
        have hlt := hps p hp
        rw [hk] at hlt
        exact absurd (of_decide_eq_true heq) (ne_of_gt hlt)
      simp [List.filter_append, hnone, hk]
    · simp [List.filter_append, hk]

end OpenAAA.Selection
