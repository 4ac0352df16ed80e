import Mathlib.Tactic

/-!
Files with positioned writes. A write beyond the end fills the gap; a write of nothing changes
nothing. Two writes one after the other are one write.
-/

namespace OpenAAA.Files

variable {α : Type*} (zero : α)

/-- What `data` makes of a file when it is written at `p`. -/
def overwrite (file : List α) (p : Nat) (data : List α) : List α :=
  if data.isEmpty then file
  else file.take p ++ List.replicate (p - file.length) zero ++ data ++ file.drop (p + data.length)

@[simp]
theorem overwrite_nil (file : List α) (p : Nat) : overwrite zero file p [] = file := rfl

theorem overwrite_of_ne_nil {file : List α} {p : Nat} {data : List α} (h : data ≠ []) :
    overwrite zero file p data =
      file.take p ++ List.replicate (p - file.length) zero ++ data ++
        file.drop (p + data.length) := by
  rw [overwrite, if_neg (mt List.isEmpty_iff.mp h)]

theorem front_length (file : List α) (p : Nat) :
    (file.take p ++ List.replicate (p - file.length) zero).length = p := by
  rw [List.length_append, List.length_take, List.length_replicate]
  omega

theorem overwrite_length {file : List α} {p : Nat} {data : List α} (h : data ≠ []) :
    (overwrite zero file p data).length = max file.length (p + data.length) := by
  rw [overwrite_of_ne_nil zero h, List.length_append, List.length_append, front_length,
    List.length_drop]
  omega

theorem overwrite_append (file xs ys : List α) (p : Nat) :
    overwrite zero (overwrite zero file p xs) (p + xs.length) ys =
      overwrite zero file p (xs ++ ys) := by
  by_cases hxs : xs = []
  · subst hxs
    rfl
  by_cases hys : ys = []
  · subst hys
    rw [overwrite_nil, List.append_nil]
  have hfront := front_length zero file p
  have hlen : p + xs.length ≤ (overwrite zero file p xs).length := by
    rw [overwrite_length zero hxs]
    exact le_max_right _ _
  rw [overwrite_of_ne_nil zero hys, Nat.sub_eq_zero_of_le hlen, overwrite_of_ne_nil zero hxs,
    overwrite_of_ne_nil zero (List.append_ne_nil_of_left_ne_nil hxs ys)]
  generalize file.take p ++ List.replicate (p - file.length) zero = front at hfront
  have htake : (front ++ xs ++ file.drop (p + xs.length)).take (p + xs.length) = front ++ xs := by
    rw [← hfront, ← List.length_append, List.take_left]
  have hdrop : (front ++ xs ++ file.drop (p + xs.length)).drop (p + xs.length + ys.length) =
      file.drop (p + xs.length + ys.length) := by
    have hrest : (front ++ xs ++ file.drop (p + xs.length)).drop (p + xs.length) =
        file.drop (p + xs.length) := by
      rw [← hfront, ← List.length_append, List.drop_left]
    rw [← List.drop_drop, hrest, List.drop_drop]
  rw [htake, hdrop, List.replicate_zero, List.append_nil, List.length_append, Nat.add_assoc,
    List.append_assoc front]

end OpenAAA.Files
