import OpenAAA.Generic.ArraySorter

/-!
`generic/sorter/array.c`: the parallel counting and splitting of `rs_radix`. The array is cut
into one block for each thread. Every thread counts its block, the main thread turns the counts
into the first places of each thread in each bucket, and then all threads move their elements
at once. The turns of the threads are events in any order.
-/

namespace OpenAAA.Sorter

open Arrays Scatter

variable {α : Type}

/-- `struct rs_work`: a block by its first element, the elements moved, those left and the
counters. -/
structure RsWork where
  offset : Nat
  next : Nat
  left : Nat
  cnt : Nat → Nat

/-- `cnt[j] += w->cnt[j]` for all works. -/
def rsSum (works : List RsWork) (j : Nat) : Nat := (works.map fun w => w.cnt j).sum

variable {digit : α → Nat} {array : Nat → α} {base : Nat} {xs : List α}

/-- The works tile the elements from `offset` on, and each has counted its own. -/
inductive Tiled (digit : α → Nat) (xs : List α) : Nat → List RsWork → Prop
  | nil : Tiled digit xs xs.length []
  | cons {offset size : Nat} {cnt : Nat → Nat} {works : List RsWork}
      (hcnt : ∀ j, count digit (xs.take offset) j + cnt j = count digit (xs.take (offset + size)) j)
      (hrest : Tiled digit xs (offset + size) works) :
      Tiled digit xs offset (⟨offset, 0, size, cnt⟩ :: works)

theorem Tiled.sum {offset : Nat} {works : List RsWork} (h : Tiled digit xs offset works) (j : Nat) :
    count digit (xs.take offset) j + rsSum works j = count digit xs j := by
  induction h with
  | nil => simp [rsSum]
  | cons hcnt hrest ih =>
      rw [← ih, ← hcnt j]
      simp [rsSum]
      omega

/-! ## Turns -/

/-- Where all elements are at their places and nothing else is written, one content is possible. -/
theorem Moved.unique {dest₀ D E : Nat → α}
    (hD : ∀ k (hk : k < xs.length), D (base + place digit xs k hk) = xs[k])
    (hD' : ∀ p, (∀ k (hk : k < xs.length), p ≠ base + place digit xs k hk) → D p = dest₀ p)
    (hE : ∀ k (hk : k < xs.length), E (base + place digit xs k hk) = xs[k])
    (hE' : ∀ p, (∀ k (hk : k < xs.length), p ≠ base + place digit xs k hk) → E p = dest₀ p) :
    D = E := by
  funext p
  by_cases hp : ∃ k, ∃ hk : k < xs.length, p = base + place digit xs k hk
  · obtain ⟨k, hk, rfl⟩ := hp
    rw [hD k hk, hE k hk]
  · have hnone : ∀ k (hk : k < xs.length), p ≠ base + place digit xs k hk :=
      fun k hk heq => hp ⟨k, hk, heq⟩
    rw [hD' p hnone, hE' p hnone]

end OpenAAA.Sorter
