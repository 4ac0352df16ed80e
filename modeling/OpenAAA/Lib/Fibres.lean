import Mathlib.Data.BitVec
import Mathlib.SetTheory.Cardinal.Finite
import Mathlib.Tactic

/-!
How many words a function on words takes to one value. A shift to the right leaves the
top bits, and every value of these has as many preimages as there are values of the bits
shifted out; a multiplication that can be undone changes no such number.
-/

namespace OpenAAA.Fibres

variable {w : Nat}

/-- The words with given top bits are told apart by the bits below. -/
theorem card_shiftRight {k r : Nat} (hk : k ≤ w) (hr : r < 2 ^ (w - k)) :
    Nat.card {x : BitVec w // (x >>> k).toNat = r} = 2 ^ k := by
  have hsplit : 2 ^ w = 2 ^ (w - k) * 2 ^ k := by
    rw [← pow_add, Nat.sub_add_cancel hk]
  have hpos : 0 < 2 ^ k := by positivity
  have hfits : ∀ i < 2 ^ k, r * 2 ^ k + i < 2 ^ w := by
    intro i hi
    have hle : (r + 1) * 2 ^ k ≤ 2 ^ w := by
      rw [hsplit]
      exact Nat.mul_le_mul_right _ hr
    rw [Nat.add_mul] at hle
    omega
  have hvalue : ∀ x : BitVec w, (x >>> k).toNat = r ↔ x.toNat / 2 ^ k = r := by
    intro x
    rw [BitVec.toNat_ushiftRight, Nat.shiftRight_eq_div_pow]
  let below : {x : BitVec w // (x >>> k).toNat = r} ≃ Fin (2 ^ k) := {
    toFun := fun x => ⟨x.1.toNat % 2 ^ k, Nat.mod_lt _ hpos⟩
    invFun := fun i => ⟨BitVec.ofNat w (r * 2 ^ k + i), by
      rw [hvalue, BitVec.toNat_ofNat, Nat.mod_eq_of_lt (hfits i i.2), Nat.mul_comm,
        Nat.mul_add_div hpos, Nat.div_eq_of_lt i.2, Nat.add_zero]⟩
    left_inv := by
      rintro ⟨x, hx⟩
      apply Subtype.ext
      apply BitVec.eq_of_toNat_eq
      rw [hvalue] at hx
      have hdiv := Nat.div_add_mod x.toNat (2 ^ k)
      rw [hx, Nat.mul_comm] at hdiv
      rw [BitVec.toNat_ofNat, hdiv, Nat.mod_eq_of_lt x.isLt]
    right_inv := by
      intro i
      apply Fin.ext
      dsimp only
      rw [BitVec.toNat_ofNat, Nat.mod_eq_of_lt (hfits i i.2), Nat.mul_comm, Nat.mul_add_mod,
        Nat.mod_eq_of_lt i.2] }
  rw [Nat.card_congr below, Nat.card_fin]

/-- Multiplication by a factor with an inverse changes no count. -/
theorem card_mul {a b : BitVec w} (hab : a * b = 1) (p : BitVec w → Prop) :
    Nat.card {x : BitVec w // p (x * a)} = Nat.card {x : BitVec w // p x} := by
  have hba : b * a = 1 := (mul_comm b a).trans hab
  let times : BitVec w ≃ BitVec w := {
    toFun := fun x => x * a
    invFun := fun x => x * b
    left_inv := fun x => by
      dsimp only
      rw [mul_assoc, hab, mul_one]
    right_inv := fun x => by
      dsimp only
      rw [mul_assoc, hba, mul_one] }
  exact Nat.card_congr (times.subtypeEquiv fun _ => Iff.rfl)

end OpenAAA.Fibres
