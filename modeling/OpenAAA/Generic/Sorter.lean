import OpenAAA.Lib.Arrays

/-!
`generic/sorter/array-simple.h`: the sorting function that the header generates for a
key type and an order. A quicksort with an explicit stack of 32 segments leaves
segments of fewer than nine elements alone; an insertion sort finishes, with the
smallest of the first eight elements in front as a barrier. Indices are C integers:
`l + r` may leave their range, and nothing checks that a scan stays in the array.
-/

namespace OpenAAA.Sorter

open Arrays

inductive SortFault where
  | overflow
  | outOfBounds
  | stackOverflow
  | endless
deriving DecidableEq

/-- `ASORT_THRESHOLD` -/
def threshold : Nat := 8

/-- `8*sizeof(uint)`, the size of the stack. -/
def stackSize : Nat := 32

variable {α : Type*} [LinearOrder α]

/-- `while (ASORT_LT(ASORT_ELT(l), pivot)) l++;` -/
def scanUp (n : Nat) (A : Nat → α) (pivot : α) : Nat → Int → Except SortFault Int
  | 0, _ => .error .endless
  | fuel + 1, l =>
      if l < 0 ∨ n ≤ l then .error .outOfBounds
      else if A l.toNat < pivot then scanUp n A pivot fuel (l + 1)
      else .ok l

/-- `while (ASORT_LT(pivot, ASORT_ELT(r))) r--;` -/
def scanDown (n : Nat) (A : Nat → α) (pivot : α) : Nat → Int → Except SortFault Int
  | 0, _ => .error .endless
  | fuel + 1, r =>
      if r < 0 ∨ n ≤ r then .error .outOfBounds
      else if pivot < A r.toNat then scanDown n A pivot fuel (r - 1)
      else .ok r

/-- The end of one turn of the partition loop. -/
def exchange (l r : Int) (A : Nat → α) : Int × Int × (Nat → α) :=
  if l < r then (l + 1, r - 1, swap A l.toNat r.toNat)
  else if l = r then (l + 1, r - 1, A)
  else (l, r, A)

/-- `do ... while (l <= r);` -/
def partitionLoop (n : Nat) (pivot : α) :
    Nat → Int → Int → (Nat → α) → Except SortFault (Int × Int × (Nat → α))
  | 0, _, _, _ => .error .endless
  | fuel + 1, l, r, A =>
      match scanUp n A pivot (n + 1) l with
      | .error fault => .error fault
      | .ok l =>
          match scanDown n A pivot (n + 1) r with
          | .error fault => .error fault
          | .ok r =>
              let (l, r, A) := exchange l r A
              if l ≤ r then partitionLoop n pivot fuel l r A else .ok (l, r, A)

/-- The three elements at `l`, `m` and `r` are put in order. -/
def medianOfThree (A : Nat → α) (l m r : Nat) : Nat → α :=
  let A := if A m < A l then swap A l m else A
  if A r < A m then
    let A := swap A m r
    if A m < A l then swap A l m else A
  else A

/-- `for(;;)`, with the segments on the stack, the top first. -/
def quickLoop (n : Nat) :
    Nat → Int → Int → List (Int × Int) → (Nat → α) → Except SortFault (Nat → α)
  | 0, _, _, _, _ => .error .endless
  | fuel + 1, left, right, stack, A =>
      if 2 ^ 31 ≤ left + right then .error .overflow
      else if left < 0 ∨ right < left ∨ n ≤ right then .error .outOfBounds
      else
        let m := (left + right) / 2
        let A := medianOfThree A left.toNat m.toNat right.toNat
        match partitionLoop n (A m.toNat) (n + 1) left right A with
        | .error fault => .error fault
        | .ok (l, r, A) =>
            if r - left ≥ threshold ∧ right - l ≥ threshold then
              if stackSize ≤ stack.length then .error .stackOverflow
              else if r - left > right - l then quickLoop n fuel l right ((left, r) :: stack) A
              else quickLoop n fuel left r ((l, right) :: stack) A
            else if r - left ≥ threshold then quickLoop n fuel left r stack A
            else if right - l ≥ threshold then quickLoop n fuel l right stack A
            else
              match stack with
              | [] => .ok A
              | (left, right) :: stack => quickLoop n fuel left right stack A

/-- The smallest of the first elements: `m` after `for (l=1; l<r; l++)`. -/
def barrier (A : Nat → α) : Nat → Nat
  | 0 => 0
  | l + 1 => if A l < A (barrier A l) then l else barrier A l

/-- `l=m; while (ASORT_LT(ASORT_ELT(m),ASORT_ELT(l-1))) l--;` -/
def slide (A : Nat → α) (m : Nat) : Nat → Except SortFault Nat
  | 0 => .error .outOfBounds
  | l + 1 => if A m < A l then slide A m l else .ok (l + 1)

/-- `while (l < m) { ASORT_SWAP(l,m); l++; }`, with the number of turns. -/
def rotate (m : Nat) : Nat → Nat → (Nat → α) → Nat → α
  | 0, _, A => A
  | k + 1, l, A => rotate m k (l + 1) (swap A l m)

/-- `for (m=1; m<(int)array_size; m++)`, with the number of turns. -/
def insertLoop : Nat → Nat → (Nat → α) → Except SortFault (Nat → α)
  | 0, _, A => .ok A
  | k + 1, m, A =>
      match slide A m m with
      | .error fault => .error fault
      | .ok l => insertLoop k (m + 1) (rotate m (m - l) l A)

/-- `ASORT_PREFIX(sort)` -/
def sort (A : Nat → α) (arraySize : Nat) : Except SortFault (Nat → α) :=
  if arraySize ≤ 1 then .ok A
  else
    match quickLoop arraySize (2 * arraySize) 0 (arraySize - 1) [] A with
    | .error fault => .error fault
    | .ok A =>
        let A := swap A 0 (barrier A (min arraySize threshold))
        insertLoop (arraySize - 1) 1 A

/-! ## One partition -/

theorem scanUp_ok {n : Nat} {A : Nat → α} {pivot : α} (fuel : Nat) {l : Int} {i : Nat}
    (hl : 0 ≤ l) (hli : l ≤ i) (hin : i < n) (hstop : pivot ≤ A i) (hfuel : i - l < fuel) :
    ∃ l', scanUp n A pivot fuel l = .ok l' ∧ l ≤ l' ∧ l' ≤ i ∧ pivot ≤ A l'.toNat ∧
      ∀ j : Nat, l ≤ j → j < l' → A j < pivot := by
  induction fuel generalizing l with
  | zero => omega
  | succ fuel ih =>
      rw [scanUp, if_neg (by omega)]
      by_cases hlt : A l.toNat < pivot
      · have hne : l ≠ i := by
          rintro rfl
          exact absurd hlt (not_lt.mpr hstop)
        obtain ⟨l', hrun, hle, hli', hge, hall⟩ := ih (l := l + 1) (by omega) (by omega) (by omega)
        refine ⟨l', by rw [if_pos hlt, hrun], by omega, hli', hge, ?_⟩
        intro j hj hj'
        by_cases heq : (j : Int) = l
        · have hjl : j = l.toNat := by omega
          rw [hjl]
          exact hlt
        · exact hall j (by omega) hj'
      · exact ⟨l, by rw [if_neg hlt], le_rfl, hli, not_lt.mp hlt, fun j hj hj' => by omega⟩

theorem scanDown_ok {n : Nat} {A : Nat → α} {pivot : α} (fuel : Nat) {r : Int} {i : Nat}
    (hr : r < n) (hir : i ≤ r) (hstop : A i ≤ pivot) (hfuel : r - i < fuel) :
    ∃ r', scanDown n A pivot fuel r = .ok r' ∧ r' ≤ r ∧ i ≤ r' ∧ A r'.toNat ≤ pivot ∧
      ∀ j : Nat, r' < j → j ≤ r → pivot < A j := by
  induction fuel generalizing r with
  | zero => omega
  | succ fuel ih =>
      rw [scanDown, if_neg (by omega)]
      by_cases hlt : pivot < A r.toNat
      · have hne : r ≠ i := by
          rintro rfl
          exact absurd hlt (not_lt.mpr hstop)
        obtain ⟨r', hrun, hle, hir', hge, hall⟩ := ih (r := r - 1) (by omega) (by omega) (by omega)
        refine ⟨r', by rw [if_pos hlt, hrun], by omega, hir', hge, ?_⟩
        intro j hj hj'
        by_cases heq : (j : Int) = r
        · have hjr : j = r.toNat := by omega
          rw [hjr]
          exact hlt
        · exact hall j hj (by omega)
      · exact ⟨r, by rw [if_neg hlt], le_rfl, hir, not_lt.mp hlt, fun j hj hj' => by omega⟩

/-- The elements before `l` are not above the pivot, those behind `r` not below it. -/
structure Split (A : Nat → α) (pivot : α) (left right l r : Int) : Prop where
  low : ∀ i : Nat, left ≤ i → i < l → A i ≤ pivot
  high : ∀ i : Nat, r < i → i ≤ right → pivot ≤ A i

/-- The invariant of the partition loop. There is an element for each scan to stop at, and either
both ends have moved or the pivot lies between them. -/
structure Partitioning (A : Nat → α) (pivot : α) (left right l r : Int) : Prop extends
    Split A pivot left right l r where
  left_le : left ≤ l
  le_right : r ≤ right
  stopUp : ∃ i : Nat, l ≤ i ∧ i ≤ right ∧ pivot ≤ A i
  stopDown : ∃ i : Nat, left ≤ i ∧ i ≤ r ∧ A i ≤ pivot
  progress : left < l ∧ r < right ∨ ∃ i : Nat, l ≤ i ∧ i ≤ r ∧ A i = pivot

/-- What the scans of one turn reach. -/
theorem Partitioning.scans {n : Nat} {A : Nat → α} {pivot : α} {left right l r : Int}
    (h : Partitioning A pivot left right l r) (hleft : 0 ≤ left) (hright : right < n) :
    ∃ l' r', scanUp n A pivot (n + 1) l = .ok l' ∧ scanDown n A pivot (n + 1) r = .ok r' ∧
      Split A pivot left right l' r' ∧ l ≤ l' ∧ l' ≤ right ∧ left ≤ r' ∧ r' ≤ r ∧
      pivot ≤ A l'.toNat ∧ A r'.toNat ≤ pivot ∧
      (left < l' ∧ r' < right ∨ l' ≤ r') := by
  have hll := h.left_le
  have hrr := h.le_right
  obtain ⟨i, hli, hir, hi⟩ := h.stopUp
  obtain ⟨j, hlj, hjr, hj⟩ := h.stopDown
  obtain ⟨l', hup, hle, _, hge, hbelow⟩ :=
    scanUp_ok (n := n) (n + 1) (by omega) hli (by omega) hi (by omega)
  obtain ⟨r', hdown, hre, _, hle', habove⟩ :=
    scanDown_ok (n := n) (n + 1) (by omega) hjr hj (by omega)
  refine ⟨l', r', hup, hdown, ⟨?_, ?_⟩, hle, by omega, by omega, hre, hge, hle', ?_⟩
  · intro k hk hk'
    by_cases hkl : (k : Int) < l
    · exact h.low k hk hkl
    · exact (hbelow k (by omega) hk').le
  · intro k hk hk'
    by_cases hkr : r < (k : Int)
    · exact h.high k hkr hk'
    · exact (habove k hk (by omega)).le
  · rcases h.progress with hmoved | ⟨k, hlk, hkr, hk⟩
    · exact Or.inl (by omega)
    · -- the pivot stops both scans
      right
      have hlk' : l' ≤ k := by
        by_contra hlt
        exact absurd (hbelow k hlk (by omega)) (by rw [hk]; exact lt_irrefl _)
      have hkr' : (k : Int) ≤ r' := by
        by_contra hlt
        exact absurd (habove k (by omega) hkr) (by rw [hk]; exact lt_irrefl _)
      omega

/-- What a partition leaves. -/
structure Partitioned (A A' : Nat → α) (pivot : α) (left right l r : Int) : Prop extends
    Split A' pivot left right l r where
  crossed : r < l
  left_lt : left < l
  lt_right : r < right
  le_r : left - 1 ≤ r
  l_le : l ≤ right + 1
  rearranged : Rearranged left.toNat (right + 1).toNat A A'

theorem partitionLoop_ok {n : Nat} {A : Nat → α} {pivot : α} {left right : Int} (hleft : 0 ≤ left)
    (hright : right < n) (fuel : Nat) {l r : Int} (h : Partitioning A pivot left right l r)
    (hfuel : r - l < fuel) (hpos : 0 < fuel) :
    ∃ l' r' A', partitionLoop n pivot fuel l r A = .ok (l', r', A') ∧
      Partitioned A A' pivot left right l' r' := by
  induction fuel generalizing l r A with
  | zero => omega
  | succ fuel ih =>
      obtain ⟨l₁, r₁, hup, hdown, hsplit, hll, hlr, hrl, hrr, hge, hle, hprogress⟩ :=
        h.scans hleft hright
      have hlow := h.left_le
      have hhigh := h.le_right
      rw [partitionLoop, hup]
      dsimp only
      rw [hdown]
      dsimp only
      rcases lt_trichotomy l₁ r₁ with hlt | heq | hgt
      · -- the two elements change places
        have hexchange : exchange l₁ r₁ A = (l₁ + 1, r₁ - 1, swap A l₁.toNat r₁.toNat) := by
          rw [exchange, if_pos hlt]
        have hmoved : Rearranged left.toNat (right + 1).toNat A (swap A l₁.toNat r₁.toNat) :=
          swap_rearranged A (by omega) (by omega)
        have hsplit' : Split (swap A l₁.toNat r₁.toNat) pivot left right (l₁ + 1) (r₁ - 1) := by
          constructor
          · intro i hi hi'
            unfold swap
            split
            · exact hle
            · split
              · omega
              · exact hsplit.low i hi (by omega)
          · intro i hi hi'
            unfold swap
            split
            · omega
            · split
              · exact hge
              · exact hsplit.high i (by omega) hi'
        rw [hexchange]
        dsimp only
        by_cases hagain : l₁ + 1 ≤ r₁ - 1
        · have hnext : Partitioning (swap A l₁.toNat r₁.toNat) pivot left right (l₁ + 1) (r₁ - 1) := by
            refine ⟨hsplit', by omega, by omega, ⟨r₁.toNat, by omega, by omega, ?_⟩,
              ⟨l₁.toNat, by omega, by omega, ?_⟩, Or.inl (by omega)⟩
            · rw [swap, if_neg (by omega), if_pos rfl]
              exact hge
            · rw [swap, if_pos rfl]
              exact hle
          obtain ⟨l', r', A', hrun, hpart⟩ := ih hnext (by omega) (by omega)
          refine ⟨l', r', A', by rw [if_pos hagain, hrun], ?_⟩
          exact { hpart with rearranged := hmoved.trans hpart.rearranged }
        · refine ⟨l₁ + 1, r₁ - 1, swap A l₁.toNat r₁.toNat, by rw [if_neg hagain], ?_⟩
          exact ⟨hsplit', by omega, by omega, by omega, by omega, by omega, hmoved⟩
      · have hexchange : exchange l₁ r₁ A = (l₁ + 1, r₁ - 1, A) := by
          rw [exchange, if_neg (by omega), if_pos heq]
        have hsplit' : Split A pivot left right (l₁ + 1) (r₁ - 1) := by
          constructor
          · intro i hi hi'
            by_cases hil : (i : Int) = l₁
            · have hir : i = r₁.toNat := by omega
              rw [hir]
              exact hle
            · exact hsplit.low i hi (by omega)
          · intro i hi hi'
            by_cases hir : (i : Int) = r₁
            · have hil : i = l₁.toNat := by omega
              rw [hil]
              exact hge
            · exact hsplit.high i (by omega) hi'
        rw [hexchange]
        dsimp only
        refine ⟨l₁ + 1, r₁ - 1, A, by rw [if_neg (by omega)], ?_⟩
        exact ⟨hsplit', by omega, by omega, by omega, by omega, by omega, Rearranged.refl _ _ _⟩
      · have hexchange : exchange l₁ r₁ A = (l₁, r₁, A) := by
          rw [exchange, if_neg (by omega), if_neg (by omega)]
        rw [hexchange]
        dsimp only
        refine ⟨l₁, r₁, A, by rw [if_neg (by omega)], ?_⟩
        exact ⟨hsplit, by omega, by omega, by omega, by omega, by omega, Rearranged.refl _ _ _⟩

theorem medianOfThree_rearranged (A : Nat → α) {l m r : Nat} (hlm : l ≤ m) (hmr : m ≤ r) :
    Rearranged l (r + 1) A (medianOfThree A l m r) := by
  have hlow : ∀ B : Nat → α, Rearranged l (r + 1) B (swap B l m) := fun B =>
    swap_rearranged B (by omega) (by omega)
  have hhigh : ∀ B : Nat → α, Rearranged l (r + 1) B (swap B m r) := fun B =>
    swap_rearranged B (by omega) (by omega)
  have hfirst : Rearranged l (r + 1) A (if A m < A l then swap A l m else A) := by
    split
    · exact hlow A
    · exact Rearranged.refl _ _ _
  unfold medianOfThree
  generalize (if A m < A l then swap A l m else A) = B at hfirst
  dsimp only
  split
  · split
    · exact (hfirst.trans (hhigh B)).trans (hlow _)
    · exact hfirst.trans (hhigh B)
  · exact hfirst

/-- One turn of the quicksort: the pivot is an element of the segment, so both scans stop. -/
theorem segment_ok {n : Nat} (A : Nat → α) {left right : Int} (hleft : 0 ≤ left)
    (hlt : left < right) (hright : right < n) :
    ∃ l r A' pivot, partitionLoop n
        (medianOfThree A left.toNat ((left + right) / 2).toNat right.toNat ((left + right) / 2).toNat)
        (n + 1) left right
        (medianOfThree A left.toNat ((left + right) / 2).toNat right.toNat) = .ok (l, r, A') ∧
      Partitioned A A' pivot left right l r := by
  have hmoved := medianOfThree_rearranged A (l := left.toNat) (m := ((left + right) / 2).toNat)
    (r := right.toNat) (by omega) (by omega)
  generalize medianOfThree A left.toNat ((left + right) / 2).toNat right.toNat = B at hmoved
  have hstart : Partitioning B (B ((left + right) / 2).toNat) left right left right := by
    refine ⟨⟨fun i hi hi' => by omega, fun i hi hi' => by omega⟩, le_rfl, le_rfl,
      ⟨((left + right) / 2).toNat, by omega, by omega, le_rfl⟩,
      ⟨((left + right) / 2).toNat, by omega, by omega, le_rfl⟩,
      Or.inr ⟨((left + right) / 2).toNat, by omega, by omega, rfl⟩⟩
  obtain ⟨l, r, A', hrun, hpart⟩ :=
    partitionLoop_ok hleft hright (n + 1) hstart (by omega) (by omega)
  refine ⟨l, r, A', _, hrun, { hpart with rearranged := ?_ }⟩
  exact (hmoved.mono le_rfl (by omega)).trans hpart.rearranged

/-! ## The segments to be sorted -/

/-- A segment on the stack or in work: it lies in the array and is worth a partition. -/
def Pending (n : Nat) (s : Int × Int) : Prop :=
  0 ≤ s.1 ∧ s.2 < n ∧ (s.1 + threshold ≤ s.2 ∨ s.1 = 0 ∧ 0 < s.2)

/-- Every segment is at most half as large as the one that was on the top before it. -/
def Halving (n : Nat) : List (Int × Int) → Prop
  | [] => True
  | s :: rest => (s.2 - s.1 + 1) * 2 ^ rest.length ≤ n ∧ Halving n rest

/-- A smallest element lies in the first cells, before all segments, or in the first segment. -/
def MinInFront (n : Nat) (A : Nat → α) (segments : List (Int × Int)) : Prop :=
  ∃ i : Nat, (∀ j < n, A i ≤ A j) ∧
    (i < threshold ∧ i < n ∧ (∀ s ∈ segments, (i : Int) < s.1) ∨
      ∃ b others, segments.Perm ((0, b) :: others) ∧ i ≤ b ∧ ∀ s ∈ others, b < s.1)

/-- A part of a segment, if it is worth a partition of its own. -/
def worth (a b : Int) : List (Int × Int) := if b - a ≥ threshold then [(a, b)] else []

/-- What is left to do, as a number. -/
def weight (segments : List (Int × Int)) : Nat :=
  (segments.map (fun s => 2 * (s.2 - s.1).toNat + 1)).sum

theorem weight_cons (s : Int × Int) (rest : List (Int × Int)) :
    weight (s :: rest) = 2 * (s.2 - s.1).toNat + 1 + weight rest := by
  simp [weight]

theorem MinInFront.perm {n : Nat} {A : Nat → α} {segments segments' : List (Int × Int)}
    (h : MinInFront n A segments) (hperm : segments'.Perm segments) : MinInFront n A segments' := by
  obtain ⟨i, hmin, ⟨hi, hin, hall⟩ | ⟨b, others, hsegments, hib, hothers⟩⟩ := h
  · exact ⟨i, hmin, Or.inl ⟨hi, hin, fun s hs => hall s (hperm.mem_iff.mp hs)⟩⟩
  · exact ⟨i, hmin, Or.inr ⟨b, others, hperm.trans hsegments, hib, hothers⟩⟩

/-- Where a smallest element of a segment at the start of the array is after a partition. -/
theorem Partitioned.min {n : Nat} {A A' : Nat → α} {pivot : α} {right l r : Int}
    (hpart : Partitioned A A' pivot 0 right l r) {i : Nat} (hi : i ≤ right)
    (hmin : ∀ j < n, A i ≤ A' j) : ∃ i' : Nat, (∀ j < n, A' i' ≤ A' j) ∧ (i' ≤ r ∨ i' = 0) := by
  obtain ⟨p, _, hp, heq⟩ := hpart.rearranged.symm.source (k := i) (by omega)
  by_cases hpr : (p : Int) ≤ r
  · exact ⟨p, fun j hj => heq ▸ hmin j hj, Or.inl hpr⟩
  · refine ⟨0, fun j hj => ?_, Or.inr rfl⟩
    calc A' 0 ≤ pivot := hpart.low 0 (by omega) (by have := hpart.left_lt; omega)
      _ ≤ A' p := hpart.high p (by omega) (by omega)
      _ = A i := heq.symm
      _ ≤ A' j := hmin j hj

theorem mem_worth {a b : Int} {s : Int × Int} (hs : s ∈ worth a b) : s = (a, b) ∧ a + threshold ≤ b := by
  unfold worth at hs
  split at hs
  · exact ⟨List.mem_singleton.mp hs, by omega⟩
  · exact absurd hs nofun

/-- A partition keeps a smallest element in front. -/
theorem MinInFront.partition {n : Nat} {A A' : Nat → α} {pivot : α} {left right l r : Int}
    {stack : List (Int × Int)} (h : MinInFront n A ((left, right) :: stack)) (hleft : 0 ≤ left)
    (hright : right < n) (hpart : Partitioned A A' pivot left right l r) :
    MinInFront n A' (worth left r ++ worth l right ++ stack) := by
  have hcrossed := hpart.crossed
  have hmoved := hpart.left_lt
  have hlast := hpart.lt_right
  have hwhole : Rearranged 0 n A A' := hpart.rearranged.mono (Nat.zero_le _) (by omega)
  have hmin' : ∀ x, (∀ j < n, A x ≤ A j) → ∀ j < n, A x ≤ A' j := fun x hx j hj =>
    hwhole.forall_range (P := fun y => A x ≤ y) (fun k _ hk => hx k hk) j (Nat.zero_le _) hj
  have hstart : ∀ s ∈ worth left r ++ worth l right, left ≤ s.1 := by
    intro s hs
    rcases List.mem_append.mp hs with hs | hs
    · rw [(mem_worth hs).1]
    · rw [(mem_worth hs).1]
      exact hmoved.le
  -- a smallest element before the segment is not touched
  have hkeep : ∀ i : Nat, (i : Int) < left → (∀ j < n, A i ≤ A j) → ∀ j < n, A' i ≤ A' j := by
    intro i hi hmin j hj
    rw [hpart.rearranged.outside (k := i) (by omega)]
    exact hmin' i hmin j hj
  obtain ⟨i, hmin, ⟨hi, hin, hall⟩ | ⟨b, others, hperm, hib, hothers⟩⟩ := h
  · have hil : (i : Int) < left := hall _ List.mem_cons_self
    refine ⟨i, hkeep i hil hmin, Or.inl ⟨hi, hin, fun s hs => ?_⟩⟩
    rcases List.mem_append.mp hs with hs | hs
    · exact lt_of_lt_of_le hil (hstart s hs)
    · exact hall s (List.mem_cons_of_mem _ hs)
  · by_cases hhead : (left, right) = (0, b)
    · obtain ⟨rfl, rfl⟩ := Prod.mk.inj hhead
      have hstack := hperm.cons_inv
      obtain ⟨i', hmin₁, hplace⟩ := hpart.min hib (hmin' i hmin)
      have hbehind : ∀ s ∈ worth l right ++ stack, r < s.1 ∧ (i' : Int) < s.1 := by
        intro s hs
        rcases List.mem_append.mp hs with hs | hs
        · rw [(mem_worth hs).1]
          dsimp only
          omega
        · have hs' := hothers s (hstack.mem_iff.mp hs)
          omega
      by_cases hbig : r - 0 ≥ threshold
      · refine ⟨i', hmin₁, Or.inr ⟨r, worth l right ++ stack, ?_, ?_, fun s hs => (hbehind s hs).1⟩⟩
        · rw [worth, if_pos hbig]
          exact List.Perm.refl _
        · have hth : (0 : Int) ≤ threshold := by decide
          omega
      · refine ⟨i', hmin₁, Or.inl ⟨?_, ?_, fun s hs => ?_⟩⟩
        · have hth : (0 : Int) < threshold := by decide
          omega
        · omega
        · rw [worth, if_neg hbig, List.nil_append] at hs
          exact (hbehind s hs).2
    · have hmem : (0, b) ∈ stack := by
        have hin := hperm.mem_iff.mpr List.mem_cons_self
        rcases List.mem_cons.mp hin with heq | hin
        · exact absurd heq.symm hhead
        · exact hin
      have hstack := List.perm_cons_erase hmem
      have hrest : ((left, right) :: stack.erase (0, b)).Perm others := by
        refine List.Perm.cons_inv (a := (0, b)) ?_
        exact (List.Perm.swap _ _ _).trans ((hstack.symm.cons _).trans hperm)
      have hbl : b < left := hothers _ (hrest.mem_iff.mp List.mem_cons_self)
      refine ⟨i, hkeep i (by omega) hmin, Or.inr
        ⟨b, worth left r ++ worth l right ++ stack.erase (0, b), ?_, hib, fun s hs => ?_⟩⟩
      · exact (hstack.append_left _).trans List.perm_middle
      · rcases List.mem_append.mp hs with hs | hs
        · exact lt_of_lt_of_le hbl (hstart s hs)
        · exact hothers s (hrest.mem_iff.mp (List.mem_cons_of_mem _ hs))

theorem Halving.shrink {n : Nat} {a b a' b' : Int} {rest : List (Int × Int)}
    (h : Halving n ((a, b) :: rest)) (hle : b' - a' ≤ b - a) : Halving n ((a', b') :: rest) := by
  refine ⟨?_, h.2⟩
  calc (b' - a' + 1) * 2 ^ rest.length ≤ (b - a + 1) * 2 ^ rest.length := by
        apply mul_le_mul_of_nonneg_right (by omega) (by positivity)
    _ ≤ n := h.1

/-- The larger part is pushed, the smaller one is at most half as large as the whole. -/
theorem Halving.push {n : Nat} {a b : Int} {small large : Int × Int} {rest : List (Int × Int)}
    (h : Halving n ((a, b) :: rest)) (hsmall : small.2 - small.1 ≤ large.2 - large.1)
    (hsum : (small.2 - small.1 + 1) + (large.2 - large.1 + 1) ≤ b - a + 1)
    (hlarge : large.2 - large.1 ≤ b - a) : Halving n (small :: large :: rest) := by
  refine ⟨?_, (h.shrink hlarge)⟩
  calc (small.2 - small.1 + 1) * 2 ^ (large :: rest).length
      = ((small.2 - small.1 + 1) * 2) * 2 ^ rest.length := by
        rw [List.length_cons, pow_succ]
        ring
    _ ≤ (b - a + 1) * 2 ^ rest.length := by
        apply mul_le_mul_of_nonneg_right (by omega) (by positivity)
    _ ≤ n := h.1

/-- Segments that halve leave room on the stack. -/
theorem Halving.length_lt {n : Nat} {a b : Int} {rest : List (Int × Int)}
    (h : Halving n ((a, b) :: rest)) (hab : a ≤ b) (hn : n < 2 ^ 31) : rest.length < stackSize := by
  by_contra hge
  have hpow : (2 : Int) ^ stackSize ≤ 2 ^ rest.length :=
    pow_le_pow_right₀ (by norm_num) (not_lt.mp hge)
  have hone : (2 : Int) ^ rest.length ≤ (b - a + 1) * 2 ^ rest.length := by
    apply le_mul_of_one_le_left (by positivity) (by omega)
  have hstack : (2 : Int) ^ stackSize = 2 ^ 32 := rfl
  have hall := h.1
  dsimp only at hall
  omega

theorem pending_left {n : Nat} {left right l r : Int} {A A' : Nat → α} {pivot : α}
    (hpart : Partitioned A A' pivot left right l r) (hleft : 0 ≤ left) (hright : right < n)
    (hbig : r - left ≥ threshold) : Pending n (left, r) := by
  have := hpart.lt_right
  exact ⟨hleft, by dsimp only; omega, Or.inl (by dsimp only; omega)⟩

theorem pending_right {n : Nat} {left right l r : Int} {A A' : Nat → α} {pivot : α}
    (hpart : Partitioned A A' pivot left right l r) (hleft : 0 ≤ left) (hright : right < n)
    (hbig : right - l ≥ threshold) : Pending n (l, right) := by
  have := hpart.left_lt
  exact ⟨by dsimp only; omega, hright, Or.inl (by dsimp only; omega)⟩

/-- The invariant of the quicksort. -/
structure Sorting (n : Nat) (A : Nat → α) (segments : List (Int × Int)) : Prop where
  pending : ∀ s ∈ segments, Pending n s
  halving : Halving n segments
  front : MinInFront n A segments

/-- The quicksort on at most `2 ^ 30 + 4` elements: it ends, stays inside the array and the
stack, and leaves a smallest element in front. -/
theorem quickLoop_ok {n : Nat} (hn : n ≤ 2 ^ 30 + 4) (fuel : Nat) {left right : Int}
    {stack : List (Int × Int)} {A : Nat → α} (h : Sorting n A ((left, right) :: stack))
    (hfuel : weight ((left, right) :: stack) < fuel) :
    ∃ A', quickLoop n fuel left right stack A = .ok A' ∧ Rearranged 0 n A A' ∧
      MinInFront n A' [] := by
  induction fuel generalizing left right stack A with
  | zero => omega
  | succ fuel ih =>
      have hth : (threshold : Int) = 8 := rfl
      obtain ⟨hpending, hhalving, hmin⟩ := h
      obtain ⟨hleft, hright, hsize⟩ := hpending _ List.mem_cons_self
      dsimp only at hleft hright hsize
      rw [weight_cons] at hfuel
      dsimp only at hfuel
      obtain ⟨l, r, A₁, pivot, hrun, hpart⟩ := segment_ok A hleft (by omega) hright
      have hcrossed := hpart.crossed
      have hmoved := hpart.left_lt
      have hlast := hpart.lt_right
      have hrearranged : Rearranged 0 n A A₁ := hpart.rearranged.mono (Nat.zero_le _) (by omega)
      have hmin₁ := hmin.partition hleft hright hpart
      have hstack : ∀ s ∈ stack, Pending n s := fun s hs => hpending s (List.mem_cons_of_mem _ hs)
      rw [quickLoop, if_neg (by omega), if_neg (by omega)]
      dsimp only
      rw [hrun]
      dsimp only
      by_cases hL : r - left ≥ threshold
      · have hworthL : worth left r = [(left, r)] := by rw [worth, if_pos hL]
        have hpendL := pending_left hpart hleft hright hL
        by_cases hR : right - l ≥ threshold
        · have hworthR : worth l right = [(l, right)] := by rw [worth, if_pos hR]
          have hpendR := pending_right hpart hleft hright hR
          have hroom := hhalving.length_lt (by omega) (by omega)
          rw [hworthL, hworthR] at hmin₁
          rw [if_pos ⟨hL, hR⟩, if_neg (by omega)]
          by_cases hlarger : r - left > right - l
          · have hnext : Sorting n A₁ ((l, right) :: (left, r) :: stack) := by
              refine ⟨?_, ?_, hmin₁.perm (List.Perm.swap _ _ _)⟩
              · rw [List.forall_mem_cons, List.forall_mem_cons]
                exact ⟨hpendR, hpendL, hstack⟩
              · exact hhalving.push (by dsimp only; omega) (by dsimp only; omega)
                  (by dsimp only; omega)
            obtain ⟨A', hgo, hre, hfront⟩ :=
              ih hnext (by rw [weight_cons, weight_cons]; dsimp only; omega)
            exact ⟨A', by rw [if_pos hlarger, hgo], hrearranged.trans hre, hfront⟩
          · have hnext : Sorting n A₁ ((left, r) :: (l, right) :: stack) := by
              refine ⟨?_, ?_, hmin₁⟩
              · rw [List.forall_mem_cons, List.forall_mem_cons]
                exact ⟨hpendL, hpendR, hstack⟩
              · exact hhalving.push (by dsimp only; omega) (by dsimp only; omega)
                  (by dsimp only; omega)
            obtain ⟨A', hgo, hre, hfront⟩ :=
              ih hnext (by rw [weight_cons, weight_cons]; dsimp only; omega)
            exact ⟨A', by rw [if_neg hlarger, hgo], hrearranged.trans hre, hfront⟩
        · have hworthR : worth l right = [] := by rw [worth, if_neg hR]
          rw [hworthL, hworthR] at hmin₁
          rw [if_neg (fun hboth => hR hboth.2), if_pos hL]
          have hnext : Sorting n A₁ ((left, r) :: stack) :=
            ⟨List.forall_mem_cons.mpr ⟨hpendL, hstack⟩, hhalving.shrink (by omega), hmin₁⟩
          obtain ⟨A', hgo, hre, hfront⟩ := ih hnext (by rw [weight_cons]; dsimp only; omega)
          exact ⟨A', hgo, hrearranged.trans hre, hfront⟩
      · have hworthL : worth left r = [] := by rw [worth, if_neg hL]
        rw [if_neg (fun hboth => hL hboth.1), if_neg hL]
        by_cases hR : right - l ≥ threshold
        · have hworthR : worth l right = [(l, right)] := by rw [worth, if_pos hR]
          have hpendR := pending_right hpart hleft hright hR
          rw [hworthL, hworthR] at hmin₁
          rw [if_pos hR]
          have hnext : Sorting n A₁ ((l, right) :: stack) :=
            ⟨List.forall_mem_cons.mpr ⟨hpendR, hstack⟩, hhalving.shrink (by omega), hmin₁⟩
          obtain ⟨A', hgo, hre, hfront⟩ := ih hnext (by rw [weight_cons]; dsimp only; omega)
          exact ⟨A', hgo, hrearranged.trans hre, hfront⟩
        · have hworthR : worth l right = [] := by rw [worth, if_neg hR]
          rw [hworthL, hworthR] at hmin₁
          rw [if_neg hR]
          cases stack with
          | nil => exact ⟨A₁, rfl, hrearranged, hmin₁⟩
          | cons s stack =>
              obtain ⟨left', right'⟩ := s
              have hnext : Sorting n A₁ ((left', right') :: stack) := ⟨hstack, hhalving.2, hmin₁⟩
              obtain ⟨A', hgo, hre, hfront⟩ := ih hnext (by omega)
              exact ⟨A', hgo, hrearranged.trans hre, hfront⟩

/-! ## The insertion sort -/

def SortedTo (A : Nat → α) (n : Nat) : Prop := ∀ i j, i ≤ j → j < n → A i ≤ A j

theorem barrier_min (A : Nat → α) {n : Nat} (hn : 0 < n) :
    barrier A n < n ∧ ∀ j < n, A (barrier A n) ≤ A j := by
  induction n with
  | zero => omega
  | succ n ih =>
      rcases Nat.eq_zero_or_pos n with rfl | hpos
      · refine ⟨by simp [barrier], fun j hj => ?_⟩
        have hj0 : j = 0 := by omega
        simp [barrier, hj0]
      · obtain ⟨hlt, hmin⟩ := ih hpos
        rw [barrier]
        split
        · next hless =>
            refine ⟨Nat.lt_succ_self n, fun j hj => ?_⟩
            rcases Nat.lt_succ_iff_lt_or_eq.mp hj with hj | rfl
            · exact hless.le.trans (hmin j hj)
            · exact le_rfl
        · next hless =>
            refine ⟨by omega, fun j hj => ?_⟩
            rcases Nat.lt_succ_iff_lt_or_eq.mp hj with hj | rfl
            · exact hmin j hj
            · exact not_lt.mp hless

/-- The slot of an element behind a sorted front with a barrier. -/
theorem slide_ok {A : Nat → α} {m l : Nat} (hl : 0 < l) (hbarrier : A 0 ≤ A m) :
    ∃ l', slide A m l = .ok l' ∧ 0 < l' ∧ l' ≤ l ∧ A (l' - 1) ≤ A m ∧
      ∀ j, l' ≤ j → j < l → A m < A j := by
  induction l with
  | zero => omega
  | succ l ih =>
      rw [slide]
      by_cases hlt : A m < A l
      · have hpos : 0 < l := by
          rcases Nat.eq_zero_or_pos l with rfl | hpos
          · exact absurd hlt (not_lt.mpr hbarrier)
          · exact hpos
        obtain ⟨l', hrun, h0, hle, hlow, hall⟩ := ih hpos
        refine ⟨l', by rw [if_pos hlt, hrun], h0, by omega, hlow, fun j hj hj' => ?_⟩
        rcases Nat.lt_succ_iff_lt_or_eq.mp hj' with hj' | rfl
        · exact hall j hj hj'
        · exact hlt
      · exact ⟨l + 1, by rw [if_neg hlt], Nat.succ_pos l, le_rfl, not_lt.mp hlt,
          fun j hj hj' => by omega⟩

omit [LinearOrder α] in
theorem rotate_eq {m k l : Nat} (hk : l + k = m) (A : Nat → α) (i : Nat) :
    rotate m k l A i = if i = l then A m else if l < i ∧ i ≤ m then A (i - 1) else A i := by
  induction k generalizing l A with
  | zero =>
      have hlm : l = m := by omega
      subst hlm
      rw [rotate]
      split
      · next h => rw [h]
      · rw [if_neg (by omega)]
  | succ k ih =>
      rw [rotate, ih (by omega)]
      have hm : swap A l m m = A l := by rw [swap, if_neg (by omega), if_pos rfl]
      by_cases h1 : i = l + 1
      · subst h1
        rw [if_pos rfl, hm, if_neg (by omega), if_pos (by omega), Nat.add_sub_cancel]
      · rw [if_neg h1]
        by_cases h2 : l + 1 < i ∧ i ≤ m
        · rw [if_pos h2, if_neg (by omega), if_pos (by omega), swap, if_neg (by omega),
            if_neg (by omega)]
        · rw [if_neg h2]
          by_cases h3 : i = l
          · rw [if_pos h3, swap, if_pos h3]
          · rw [if_neg h3, if_neg (by omega), swap, if_neg h3, if_neg (by omega)]

omit [LinearOrder α] in
theorem rotate_rearranged {m k l n : Nat} (hk : l + k = m) (hm : m < n) (A : Nat → α) :
    Rearranged 0 n A (rotate m k l A) := by
  induction k generalizing l A with
  | zero => exact Rearranged.refl _ _ _
  | succ k ih =>
      have hswap : Rearranged 0 n A (swap A l m) := swap_rearranged A (by omega) (by omega)
      exact hswap.trans (ih (by omega) _)

theorem insertLoop_ok {n k m : Nat} (hk : m + k = n) (hm : 0 < m) {A : Nat → α}
    (hsorted : SortedTo A m) (hbarrier : ∀ j < n, A 0 ≤ A j) :
    ∃ A', insertLoop k m A = .ok A' ∧ SortedTo A' n ∧ Rearranged 0 n A A' := by
  induction k generalizing m A with
  | zero =>
      have hmn : m = n := by omega
      subst hmn
      exact ⟨A, rfl, hsorted, Rearranged.refl _ _ _⟩
  | succ k ih =>
      obtain ⟨l, hslide, hl, hlm, hlow, habove⟩ := slide_ok hm (hbarrier m (by omega))
      have hrotate := rotate_eq (m := m) (k := m - l) (l := l) (by omega) A
      have hre : Rearranged 0 n A (rotate m (m - l) l A) := rotate_rearranged (by omega) (by omega) A
      have hsorted' : SortedTo (rotate m (m - l) l A) (m + 1) := by
        intro i j hij hj
        rw [hrotate, hrotate]
        -- the element goes between those that are not above it and those that are
        have hfront : ∀ x < l, A x ≤ A m := fun x hx =>
          (hsorted x (l - 1) (by omega) (by omega)).trans hlow
        split
        · split
          · exact le_rfl
          · split
            · exact (habove (j - 1) (by omega) (by omega)).le
            · omega
        · split
          · split
            · omega
            · split
              · exact hsorted _ _ (by omega) (by omega)
              · omega
          · split
            · exact hfront i (by omega)
            · split
              · exact hsorted _ _ (by omega) (by omega)
              · exact hsorted _ _ hij (by omega)
      have hzero : rotate m (m - l) l A 0 = A 0 := by
        rw [hrotate, if_neg (by omega), if_neg (by omega)]
      have hbarrier' : ∀ j < n, rotate m (m - l) l A 0 ≤ rotate m (m - l) l A j := by
        intro j hj
        rw [hzero]
        exact hre.forall_range (P := fun y => A 0 ≤ y) (fun i _ hi => hbarrier i hi) j (Nat.zero_le _) hj
      obtain ⟨A', hrun, hsort, hre'⟩ := ih (by omega) (Nat.succ_pos m) hsorted' hbarrier'
      refine ⟨A', ?_, hsort, hre.trans hre'⟩
      rw [insertLoop, hslide]
      exact hrun

/-- The sorting function sorts every array of at most `2 ^ 30 + 4` elements. -/
theorem sort_ok (A : Nat → α) {n : Nat} (hn : n ≤ 2 ^ 30 + 4) :
    ∃ A', sort A n = .ok A' ∧ SortedTo A' n ∧ Rearranged 0 n A A' := by
  by_cases hone : n ≤ 1
  · refine ⟨A, by rw [sort, if_pos hone], fun i j hij hj => ?_, Rearranged.refl _ _ _⟩
    have heq : i = j := by omega
    rw [heq]
  · have hth : threshold = 8 := rfl
    have hstart : Sorting n A [(0, (n : Int) - 1)] := by
      obtain ⟨hlt, hmin⟩ := barrier_min A (n := n) (by omega)
      refine ⟨?_, ⟨by simp, trivial⟩, barrier A n, hmin, Or.inr ⟨n - 1, [], ?_, by omega, nofun⟩⟩
      · intro s hs
        rcases List.mem_singleton.mp hs with rfl
        exact ⟨le_rfl, by dsimp only; omega, Or.inr ⟨rfl, by dsimp only; omega⟩⟩
      · exact List.Perm.refl _
    obtain ⟨A₁, hquick, hre, i, hmin, hplace⟩ :=
      quickLoop_ok hn (2 * n) hstart (by rw [weight_cons]; simp [weight]; omega)
    have hi : i < min n threshold := by
      rcases hplace with ⟨hi, hin, _⟩ | ⟨b, others, hperm, _⟩
      · omega
      · exact absurd hperm.length_eq (by simp)
    obtain ⟨hblt, hbmin⟩ := barrier_min A₁ (n := min n threshold) (by omega)
    generalize hb : barrier A₁ (min n threshold) = b at hblt hbmin
    have hswap : Rearranged 0 n A₁ (swap A₁ 0 b) := swap_rearranged A₁ (by omega) (by omega)
    have hzero : swap A₁ 0 b 0 = A₁ b := by rw [swap, if_pos rfl]
    have hfront : ∀ j < n, swap A₁ 0 b 0 ≤ swap A₁ 0 b j := by
      intro j hj
      rw [hzero]
      refine hswap.forall_range (P := fun y => A₁ b ≤ y) (fun k _ hk => ?_) j (Nat.zero_le _) hj
      exact (hbmin i hi).trans (hmin k hk)
    obtain ⟨A', hins, hsorted, hre'⟩ := insertLoop_ok (n := n) (k := n - 1) (m := 1) (by omega)
      Nat.one_pos (A := swap A₁ 0 b) (fun i j hij hj => by
        have heq : i = j := by omega
        rw [heq]) hfront
    refine ⟨A', ?_, hsorted, (hre.trans hswap).trans hre'⟩
    rw [sort, if_neg hone, hquick]
    dsimp only
    rw [hb, hins]

/-! ## Larger arrays -/

theorem scanUp_eq {n : Nat} {A : Nat → α} {pivot : α} {l : Int} {i : Nat} (hl : 0 ≤ l)
    (hli : l ≤ i) (hin : i < n) (hbelow : ∀ j : Nat, l ≤ j → j < i → A j < pivot)
    (hstop : pivot ≤ A i) : scanUp n A pivot (n + 1) l = .ok (i : Int) := by
  obtain ⟨l', hrun, hle, hli', hge, _⟩ := scanUp_ok (n + 1) hl hli hin hstop (by omega)
  have heq : l' = i := by
    by_contra hne
    exact absurd (hbelow l'.toNat (by omega) (by omega)) (not_lt.mpr hge)
  rw [hrun, heq]

theorem scanDown_eq {n : Nat} {A : Nat → α} {pivot : α} {r : Int} {i : Nat} (hr : r < n)
    (hir : i ≤ r) (habove : ∀ j : Nat, i < j → j ≤ r → pivot < A j)
    (hstop : A i ≤ pivot) : scanDown n A pivot (n + 1) r = .ok (i : Int) := by
  obtain ⟨r', hrun, hre, hir', hle, _⟩ := scanDown_ok (n := n) (n + 1) hr hir hstop (by omega)
  have heq : r' = i := by
    by_contra hne
    exact absurd (habove r'.toNat (by omega) (by omega)) (not_lt.mpr hle)
  rw [hrun, heq]

/-- A median with all but the last eight elements below it goes to the end of the array. -/
theorem partitionLoop_last {A : Nat → α} {n m : Nat} (hmn : m + 11 ≤ n)
    (hlow : ∀ i, i + 8 < n → i ≠ m → A i < A m) (hhigh : ∀ i, n ≤ i + 8 → i < n → A m < A i) :
    ∃ A', partitionLoop n (A m) (n + 1) 0 (n - 1) A = .ok (n - 9, n - 10, A') := by
  have hup : scanUp n A (A m) (n + 1) 0 = .ok (m : Int) :=
    scanUp_eq le_rfl (by omega) (by omega) (fun j _ hj => hlow j (by omega) (by omega)) le_rfl
  have hdown : scanDown n A (A m) (n + 1) (n - 1) = .ok ((n - 9 : Nat) : Int) :=
    scanDown_eq (by omega) (by omega) (fun j hj hj' => hhigh j (by omega) (by omega))
      (hlow (n - 9) (by omega) (by omega)).le
  generalize hB : swap A m (n - 9) = B
  have hlast : B (n - 9) = A m := by rw [← hB, swap, if_neg (by omega), if_pos rfl]
  have hbelow : ∀ j, j + 9 < n → B j < A m := by
    intro j hj
    rw [← hB, swap]
    by_cases hjm : j = m
    · rw [if_pos hjm]
      exact hlow (n - 9) (by omega) (by omega)
    · rw [if_neg hjm, if_neg (by omega)]
      exact hlow j (by omega) hjm
  have hup' : scanUp n B (A m) (n + 1) (m + 1) = .ok ((n - 9 : Nat) : Int) :=
    scanUp_eq (by omega) (by omega) (by omega) (fun j _ hj => hbelow j (by omega)) hlast.ge
  have hdown' : scanDown n B (A m) (n + 1) ((n - 9 : Nat) - 1) = .ok ((n - 10 : Nat) : Int) :=
    scanDown_eq (by omega) (by omega) (fun j hj hj' => by omega) (hbelow (n - 10) (by omega)).le
  have hfirst : exchange m ((n - 9 : Nat) : Int) A = ((m : Int) + 1, ((n - 9 : Nat) : Int) - 1, B) := by
    rw [exchange, if_pos (by omega), ← hB]
    rfl
  have hsecond : exchange ((n - 9 : Nat) : Int) ((n - 10 : Nat) : Int) B =
      ((n : Int) - 9, (n : Int) - 10, B) := by
    have hl : ((n - 9 : Nat) : Int) = n - 9 := by omega
    have hr : ((n - 10 : Nat) : Int) = n - 10 := by omega
    rw [exchange, if_neg (by omega), if_neg (by omega), hl, hr]
  obtain ⟨k, rfl⟩ : ∃ k, n = k + 1 := ⟨n - 1, by omega⟩
  refine ⟨B, ?_⟩
  rw [partitionLoop, hup]
  dsimp only
  rw [hdown]
  dsimp only
  rw [hfirst]
  dsimp only
  rw [if_pos (by omega), partitionLoop, hup']
  dsimp only
  rw [hdown']
  dsimp only
  rw [hsecond]
  dsimp only
  rw [if_neg (by omega)]

/-- Past `2 ^ 30 + 4` elements the middle of the last nine is out of the range of an integer. -/
theorem sort_overflow {A : Nat → α} {n m : Nat} (hn : 2 ^ 30 + 4 < n) (hn' : n < 2 ^ 31)
    (hm : m = (n - 1) / 2) (hlow : ∀ i, i + 8 < n → i ≠ m → A i < A m)
    (hhigh : ∀ i, n ≤ i + 8 → i < n → A m < A i) : sort A n = .error .overflow := by
  have hth : (threshold : Int) = 8 := rfl
  have hss : stackSize = 32 := rfl
  obtain ⟨A', hpart⟩ := partitionLoop_last (m := m) (by omega) hlow hhigh
  have hmid : (((0 : Int) + ((n : Int) - 1)) / 2).toNat = m := by omega
  have hmedian : medianOfThree A (0 : Int).toNat m ((n : Int) - 1).toNat = A := by
    have hzero : A 0 < A m := hlow 0 (by omega) (by omega)
    have hend : A m < A ((n : Int) - 1).toNat := hhigh _ (by omega) (by omega)
    unfold medianOfThree
    dsimp only [Int.toNat_zero]
    rw [if_neg hzero.not_gt, if_neg hend.not_gt]
  obtain ⟨f, hf⟩ : ∃ f, 2 * n = f + 1 + 1 := ⟨2 * n - 2, by omega⟩
  rw [sort, if_neg (by omega), hf, quickLoop, if_neg (by omega), if_neg (by omega)]
  dsimp only
  rw [hmid, hmedian, hpart]
  dsimp only
  rw [if_pos (by omega), List.length_nil, if_neg (by omega), if_pos (by omega), quickLoop,
    if_pos (by omega)]

end OpenAAA.Sorter
