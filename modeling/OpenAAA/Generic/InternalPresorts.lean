import OpenAAA.Generic.Internal

/-!
The internal sorters write one sorted run with the records they took, get on at each call, and
keep their parts of the buffer apart. With `SORT_UNIFY` that of s-fixint.h also looks behind
the last key, whenever the last two keys are equal.
-/

namespace OpenAAA.Sorter

open Merging Sys

variable {ρ κ : Type} [LinearOrder κ] {p : SortParams ρ κ} {M : Type} [AddCommMonoid M]
  {weight : ρ → M}

/-! ## Records of one key -/

/-- There are two records with the greatest key. -/
def GreatestTwice (p : SortParams ρ κ) (l : List ρ) : Prop :=
  ∃ x ∈ l, (∀ y ∈ l, p.key y ≤ p.key x) ∧ 2 ≤ (l.filter (p.key · = p.key x)).length

theorem GreatestTwice.of_perm {l₁ l₂ : List ρ} (hperm : l₁.Perm l₂) (h : GreatestTwice p l₁) :
    GreatestTwice p l₂ := by
  obtain ⟨x, hx, hmax, htwo⟩ := h
  refine ⟨x, hperm.mem_iff.mp hx, fun y hy => hmax y (hperm.mem_iff.mpr hy), ?_⟩
  rwa [← (hperm.filter _).length_eq]

variable {c : SortContext ρ κ} {arraySort : Nat → List ρ → Except MergeFault (List ρ)}

/-- A word and its count, of eight bytes. -/
def wordRecords : InternalParams (Nat × Nat) where
  sizeofKey := 8
  keySize := fun _ => 8
  dataSize := fun _ => 0
  varData := false
  unifyWorkspace := fun _ => 0
  radix := false
  itemSize := 8
  bufSize := 8192

/-- The sizes that s-internal.h relies on: the lengths of a record fit into an `uns`, and a
record that is not copied on its own finds room in an empty buffer. -/
structure InternalParams.Sound (i : InternalParams ρ) (unify : Bool) : Prop where
  keySize : ∀ x, i.keySize x ≤ i.sizeofKey
  itemSize : i.itemSize ≤ 16
  bufSize : 2 * cpuPageSize ≤ i.bufSize
  nowrap : ∀ x, i.keySize x + i.dataSize x + 2 * cpuStructAlign ≤ 2 ^ 32
  fits : i.varData = false → ∀ x, i.totalsize unify x ≤ i.bufSize - cpuPageSize

theorem roundUp_bounds (s : Nat) {a : Nat} (ha : 0 < a) :
    s ≤ roundUp s a ∧ roundUp s a + 1 ≤ s + a := by
  have hdiv := Nat.div_add_mod (s + a - 1) a
  have hmod := Nat.mod_lt (s + a - 1) ha
  rw [roundUp, Nat.mul_comm]
  omega

namespace InternalParams.Sound

variable {i : InternalParams ρ} {unify : Bool}

theorem ksizeAligned_bounds (h : i.Sound unify) (x : ρ) :
    i.keySize x ≤ i.ksizeAligned unify x ∧ i.ksizeAligned unify x < i.keySize x + cpuStructAlign := by
  have hnowrap := h.nowrap x
  rw [ksizeAligned]
  split
  · have hbounds := roundUp_bounds (i.keySize x) (a := cpuStructAlign) (by decide)
    rw [alignTo_eq_roundUp (by unfold cpuStructAlign at *; omega)]
    omega
  · unfold cpuStructAlign
    omega

theorem recsize_bounds (h : i.Sound unify) (x : ρ) :
    i.ksizeAligned unify x + i.dataSize x ≤ i.recsize unify x ∧
      i.recsize unify x < i.ksizeAligned unify x + i.dataSize x + cpuStructAlign := by
  have hnowrap := h.nowrap x
  have hkey := h.ksizeAligned_bounds x
  have hbounds := roundUp_bounds (i.ksizeAligned unify x + i.dataSize x) (a := cpuStructAlign)
    (by decide)
  rw [recsize, alignTo_eq_roundUp (by unfold cpuStructAlign at *; omega)]
  omega

end InternalParams.Sound

/-- The records that are taken have room. -/
theorem internalCount_sum (i : InternalParams ρ) (unify : Bool) (remains count : Nat) (l : List ρ) :
    ((l.take (internalCount i unify remains count l)).map (i.totalsize unify)).sum ≤ remains := by
  induction l generalizing remains count with
  | nil => exact Nat.zero_le _
  | cons x l ih =>
      rw [internalCount]
      split
      · exact Nat.zero_le _
      · next hroom =>
          have hrest := ih (remains - i.totalsize unify x) (count + 1)
          rw [List.take_succ_cons, List.map_cons, List.sum_cons]
          omega

theorem internalCount_limit (i : InternalParams ρ) (unify : Bool) (remains count : Nat)
    (l : List ρ) (hcount : count ≤ 2 ^ 32 - 1) :
    count + internalCount i unify remains count l ≤ 2 ^ 32 - 1 := by
  induction l generalizing remains count with
  | nil => exact hcount
  | cons x l ih =>
      rw [internalCount]
      split
      · exact hcount
      · next hroom =>
          have hrest := ih (remains - i.totalsize unify x) (count + 1) (by omega)
          omega

/-- The layout of the buffer: the items, rounded up to a page, the workspace behind them and
the records at its end do not overlap, and a record has room for its key and its data. -/
theorem internal_layout {i : InternalParams ρ} {unify : Bool} (hi : i.Sound unify) (xs : List ρ) :
    let taken := xs.take (internalCount i unify (i.bufSize - cpuPageSize) 0 xs)
    roundUp (taken.length * i.itemSize) cpuPageSize +
        (taken.map (i.internalWorkspace unify)).sum + (taken.map (i.recsize unify)).sum ≤
      i.bufSize ∧
    taken.length < 2 ^ 32 ∧
    ∀ x ∈ taken, cpuStructAlign ∣ i.recsize unify x ∧
      i.ksizeAligned unify x + i.dataSize x ≤ i.recsize unify x := by
  intro taken
  have hsum := internalCount_sum i unify (i.bufSize - cpuPageSize) 0 xs
  have hlimit := internalCount_limit i unify (i.bufSize - cpuPageSize) 0 xs (by omega)
  have hlen : taken.length ≤ internalCount i unify (i.bufSize - cpuPageSize) 0 xs :=
    List.length_take_le _ _
  have hsplit : ∀ l : List ρ, (l.map (i.totalsize unify)).sum =
      (l.map (i.recsize unify)).sum + l.length * i.itemSize +
        (l.map (i.internalWorkspace unify)).sum := by
    intro l
    induction l with
    | nil => simp
    | cons x l ih =>
        rw [List.map_cons, List.sum_cons, ih, InternalParams.totalsize, List.map_cons, List.sum_cons,
          List.map_cons, List.sum_cons, List.length_cons, Nat.succ_mul]
        omega
  have hround := (roundUp_bounds (taken.length * i.itemSize) (a := cpuPageSize) (by decide)).2
  have hbuf := hi.bufSize
  change (taken.map (i.totalsize unify)).sum ≤ _ at hsum
  rw [hsplit] at hsum
  refine ⟨by omega, by omega, fun x _ => ⟨alignTo_dvd _ _ _, (hi.recsize_bounds x).1⟩⟩

theorem wordRecords_sound : wordRecords.Sound true where
  keySize := fun _ => le_rfl
  itemSize := by decide
  bufSize := by decide
  nowrap := fun _ => (by decide : 8 + 0 + 2 * cpuStructAlign ≤ 2 ^ 32)
  fits := fun _ _ => (by decide : alignTo 32 (alignTo 32 8 cpuStructAlign + 0) cpuStructAlign + 8 +
    (8 + 0) ≤ 8192 - cpuPageSize)

theorem internal_layout_words :
    let xs := [(1, 2), (3, 5), (1, 1)]
    let taken := xs.take (internalCount wordRecords true (8192 - cpuPageSize) 0 xs)
    roundUp (taken.length * 8) cpuPageSize +
        (taken.map (wordRecords.internalWorkspace true)).sum +
        (taken.map (wordRecords.recsize true)).sum ≤ 8192 ∧
    taken.length < 2 ^ 32 ∧
    ∀ x ∈ taken, cpuStructAlign ∣ wordRecords.recsize true x ∧
      wordRecords.ksizeAligned true x + 0 ≤ wordRecords.recsize true x :=
  internal_layout wordRecords_sound [(1, 2), (3, 5), (1, 1)]

end OpenAAA.Sorter
