import Mathlib.Tactic
import Mathlib.Logic.Equiv.Basic

/-!
Arrays as functions from indices, and what in-place algorithms keep: a rearrangement
of the cells `lo ≤ i < hi` is the array read through a permutation that moves no
other index.
-/

namespace OpenAAA.Arrays

variable {α : Type*}

def swap (A : Nat → α) (i j : Nat) : Nat → α := fun k =>
  if k = i then A j else if k = j then A i else A k

def Rearranged (lo hi : Nat) (A B : Nat → α) : Prop :=
  ∃ σ : Equiv.Perm Nat, (∀ k, k < lo ∨ hi ≤ k → σ k = k) ∧ ∀ k, B k = A (σ k)

variable {lo hi : Nat} {A B C : Nat → α}

theorem Rearranged.refl (lo hi : Nat) (A : Nat → α) : Rearranged lo hi A A :=
  ⟨Equiv.refl Nat, fun _ _ => rfl, fun _ => rfl⟩

theorem Rearranged.trans (h : Rearranged lo hi A B) (h' : Rearranged lo hi B C) :
    Rearranged lo hi A C := by
  obtain ⟨σ, hσ, hB⟩ := h
  obtain ⟨τ, hτ, hC⟩ := h'
  refine ⟨τ.trans σ, fun k hk => ?_, fun k => ?_⟩
  · rw [Equiv.trans_apply, hτ k hk, hσ k hk]
  · rw [hC, hB, Equiv.trans_apply]

theorem Rearranged.mono {lo' hi' : Nat} (h : Rearranged lo hi A B) (hlo : lo' ≤ lo)
    (hhi : hi ≤ hi') : Rearranged lo' hi' A B := by
  obtain ⟨σ, hσ, hB⟩ := h
  exact ⟨σ, fun k hk => hσ k (by omega), hB⟩

theorem swap_rearranged (A : Nat → α) {i j : Nat} (hi' : lo ≤ i ∧ i < hi) (hj : lo ≤ j ∧ j < hi) :
    Rearranged lo hi A (swap A i j) := by
  refine ⟨Equiv.swap i j, fun k hk => ?_, fun k => ?_⟩
  · exact Equiv.swap_apply_of_ne_of_ne (by omega) (by omega)
  · rw [Equiv.swap_apply_def, swap]
    split
    · rfl
    · split <;> rfl

/-- Outside its range a rearrangement changes nothing. -/
theorem Rearranged.outside (h : Rearranged lo hi A B) {k : Nat} (hk : k < lo ∨ hi ≤ k) :
    B k = A k := by
  obtain ⟨σ, hσ, hB⟩ := h
  rw [hB, hσ k hk]

/-- Every cell of the range comes from a cell of the range. -/
theorem Rearranged.source (h : Rearranged lo hi A B) {k : Nat} (hk : lo ≤ k ∧ k < hi) :
    ∃ j, lo ≤ j ∧ j < hi ∧ B k = A j := by
  obtain ⟨σ, hσ, hB⟩ := h
  have hin : lo ≤ σ k ∧ σ k < hi := by
    by_contra hout
    have hfix : σ (σ k) = σ k := hσ (σ k) (by omega)
    have heq : σ k = k := σ.injective hfix
    omega
  exact ⟨σ k, hin.1, hin.2, hB k⟩

theorem Rearranged.symm (h : Rearranged lo hi A B) : Rearranged lo hi B A := by
  obtain ⟨σ, hσ, hB⟩ := h
  refine ⟨σ.symm, fun k hk => ?_, fun k => ?_⟩
  · rw [Equiv.symm_apply_eq, hσ k hk]
  · rw [hB, Equiv.apply_symm_apply]

/-- A rearrangement keeps what holds of all cells of its range. -/
theorem Rearranged.forall_range (h : Rearranged lo hi A B) {P : α → Prop}
    (hP : ∀ k, lo ≤ k → k < hi → P (A k)) : ∀ k, lo ≤ k → k < hi → P (B k) := by
  intro k hlo hhi
  obtain ⟨j, hj, hj', heq⟩ := h.source ⟨hlo, hhi⟩
  rw [heq]
  exact hP j hj hj'

end OpenAAA.Arrays
