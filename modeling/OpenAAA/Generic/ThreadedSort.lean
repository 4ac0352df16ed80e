import OpenAAA.Generic.ArraySorter

/-!
`generic/sorter/array.c`: the parallel quicksort. The main thread submits segments of the
array, worker threads split or sort them, and the main thread collects what is finished and
submits the parts. A worker is modelled by what it sees when it starts and by what it has
written when it is done; between the two other threads go on. Priorities, which only
choose among the submitted segments, are left to the order of the events.
-/

namespace OpenAAA.Sorter

open Arrays Scatter

/-- `LR_UNDEF` -/
def lrUndef : Int := -100

/-- `struct qs_work`, with the array as the index of its first element. -/
structure QsWork where
  base : Nat
  numElts : Nat
  left : Int
  right : Int
deriving DecidableEq

variable {α : Type} [LinearOrder α]

/-- `Q(quicksplit)` on the elements from `base` on. -/
def quicksplit (array : Nat → α) (base numElts : Nat) :
    Except AsortFault ((Nat → α) × Int × Int) :=
  if 2 ^ 31 ≤ numElts then .error .overflow
  else if numElts = 0 then .error (.quicksort .outOfBounds)
  else
    let r := numElts - 1
    let m := r / 2
    let part := medianOfThree (fun k => array (base + k)) 0 m r
    match partitionLoop numElts (part m) (numElts + 1) 0 r part with
    | .error fault => .error (.quicksort fault)
    | .ok (l, r, part) => .ok (copyElts array (fun k => part (k - base)) base numElts, l, r)

/-- `qs_handle_work`: the array as the worker leaves it, and the work with its result. -/
def qsHandleWork (threadThreshold : Nat) (array : Nat → α) (w : QsWork) :
    Except AsortFault ((Nat → α) × QsWork) :=
  if w.numElts < threadThreshold then do
    let array ← quicksort array w.base w.numElts
    pure (array, { w with left := lrUndef, right := lrUndef })
  else do
    let (array, left, right) ← quicksplit array w.base w.numElts
    pure (array, { w with left := left, right := right })

/-- What `threaded_quicksort` submits for a finished work. -/
def qsParts (c : AsortContext α) (v : QsWork) : Except AsortFault (List QsWork) :=
  if v.left = lrUndef then .ok []
  else do
    let low := if v.right > 0 then [⟨v.base, (v.right + 1).toNat, v.left, v.right⟩] else []
    if v.left < v.numElts - 1 then do
      let base ← c.advance v.base v.left.toNat
      pure (low ++ [⟨base, (v.numElts - v.left).toNat, v.left, v.right⟩])
    else pure low

/-- The works that wait for a worker, those in the hands of one, with what it leaves in the
array, and those to be collected. -/
structure QsState (α : Type) where
  array : Nat → α
  submitted : List QsWork
  running : List (QsWork × (Nat → α))
  finished : List QsWork

/-- A worker takes a work, a worker is done, the main thread collects a work. -/
inductive QsEvent where
  | start (i : Nat)
  | done (i : Nat)
  | collect (i : Nat)

/-- One event; `none` if there is nothing at its index. -/
def qsStep (c : AsortContext α) (threadThreshold : Nat) (s : QsState α) :
    QsEvent → Option (Except AsortFault (QsState α))
  | .start i => s.submitted[i]?.map fun w => do
      let (array, w) ← qsHandleWork threadThreshold s.array w
      pure { s with submitted := s.submitted.eraseIdx i, running := (w, array) :: s.running }
  | .done i => s.running[i]?.map fun (w, array) =>
      .ok { s with
        array := copyElts s.array array w.base w.numElts
        running := s.running.eraseIdx i
        finished := w :: s.finished }
  | .collect i => s.finished[i]?.map fun v => do
      let parts ← qsParts c v
      pure { s with submitted := s.submitted ++ parts, finished := s.finished.eraseIdx i }

/-- A run in which every event finds something at its index. -/
def qsRun (c : AsortContext α) (threadThreshold : Nat) (s : QsState α) :
    List QsEvent → Option (Except AsortFault (QsState α))
  | [] => some (.ok s)
  | e :: events =>
      match qsStep c threadThreshold s e with
      | none => none
      | some (.error fault) => some (.error fault)
      | some (.ok s) => qsRun c threadThreshold s events

/-- `threaded_quicksort` when the whole array has been submitted. -/
def threadedQuicksort (array : Nat → α) (numElts : Nat) : QsState α :=
  ⟨array, [⟨0, numElts, 0, 0⟩], [], []⟩

/-- `work_wait` returns `NULL`. -/
def QsState.Idle (s : QsState α) : Prop := s.submitted = [] ∧ s.running = [] ∧ s.finished = []

/-! ## One work -/

/-- What a split leaves: all up to `right` and all from `left` on can be sorted on their own. -/
def Parted (A : Nat → α) (w : QsWork) : Prop :=
  w.right < w.left ∧ 0 < w.left ∧ w.right + 1 < w.numElts ∧ -1 ≤ w.right ∧ w.left ≤ w.numElts ∧
    ∃ pivot, (∀ i : Nat, i < w.left → i < w.numElts → A (w.base + i) ≤ pivot) ∧
      ∀ i : Nat, w.right < i → i < w.numElts → pivot ≤ A (w.base + i)

/-- The result of a worker. -/
def Handled (A : Nat → α) (w : QsWork) : Prop :=
  w.left = lrUndef ∧ (slice A w.base w.numElts).Pairwise (· ≤ ·) ∨ Parted A w

theorem Handled.congr {A B : Nat → α} {w : QsWork} (h : Handled A w)
    (hsame : ∀ k, w.base ≤ k → k < w.base + w.numElts → A k = B k) : Handled B w := by
  rcases h with ⟨hundef, hsorted⟩ | ⟨h₁, h₂, h₃, h₄, h₅, pivot, hlow, hhigh⟩
  · exact Or.inl ⟨hundef, slice_congr hsame ▸ hsorted⟩
  · refine Or.inr ⟨h₁, h₂, h₃, h₄, h₅, pivot, fun i hi hin => ?_, fun i hi hin => ?_⟩
    · rw [← hsame _ (by omega) (by omega)]
      exact hlow i hi hin
    · rw [← hsame _ (by omega) (by omega)]
      exact hhigh i hi hin

theorem quicksplit_ok (array : Nat → α) (w : QsWork) (hmany : 2 ≤ w.numElts)
    (hn : w.numElts < 2 ^ 31) :
    ∃ array' l r, quicksplit array w.base w.numElts = .ok (array', l, r) ∧
      Parted array' { w with left := l, right := r } ∧
      (slice array' w.base w.numElts).Perm (slice array w.base w.numElts) := by
  have hfirst : (0 : Int) < (w.numElts : Int) - 1 := by omega
  have hlast : (w.numElts : Int) - 1 < w.numElts := by omega
  obtain ⟨l, r, S, pivot, hrun, hpart⟩ := segment_ok (fun k => array (w.base + k)) le_rfl hfirst hlast
  have hright : ((w.numElts : Int) - 1).toNat = w.numElts - 1 := by omega
  have hcast : ((w.numElts : Int) - 1) = ((w.numElts - 1 : Nat) : Int) := by omega
  have hmid : ((0 + ((w.numElts : Int) - 1)) / 2).toNat = (w.numElts - 1) / 2 := by omega
  rw [hmid, hright, Int.toNat_zero, hcast] at hrun
  refine ⟨copyElts array (fun k => S (k - w.base)) w.base w.numElts, l, r, ?_, ?_, ?_⟩
  · rw [quicksplit, if_neg (by omega), if_neg (by omega)]
    dsimp only
    rw [hrun]
  · have h₁ := hpart.crossed
    have h₂ := hpart.left_lt
    have h₃ := hpart.lt_right
    have h₄ := hpart.le_r
    have h₅ := hpart.l_le
    have hcell : ∀ i : Nat, i < w.numElts →
        copyElts array (fun k => S (k - w.base)) w.base w.numElts (w.base + i) = S i := by
      intro i hi
      rw [copyElts_in (by omega) (by omega), Nat.add_sub_cancel_left]
    refine ⟨h₁, h₂, by dsimp only; omega, by dsimp only; omega, by dsimp only; omega, pivot,
      fun i hi hin => ?_, fun i hi hin => ?_⟩
    · dsimp only at hin ⊢
      rw [hcell i hin]
      exact hpart.low i (by omega) hi
    · dsimp only at hin ⊢
      rw [hcell i hin]
      exact hpart.high i hi (by omega)
  · have hmoved : Rearranged 0 (0 + w.numElts) (fun k => array (w.base + k)) S :=
      hpart.rearranged.mono (Nat.zero_le _) (by omega)
    have hperm := slice_perm hmoved
    rw [slice_copyElts]
    have hleft : slice (fun k => S (k - w.base)) w.base w.numElts = slice S 0 w.numElts := by
      simp [slice]
    have hright : slice array w.base w.numElts =
        slice (fun k => array (w.base + k)) 0 w.numElts := by
      simp [slice]
    rw [hleft, hright]
    exact hperm

theorem qsHandleWork_ok (threadThreshold : Nat) (array : Nat → α) (w : QsWork)
    (hmany : 2 ≤ w.numElts) (hn : w.numElts ≤ 2 ^ 30 + 4) :
    ∃ array' w', qsHandleWork threadThreshold array w = .ok (array', w') ∧
      w'.base = w.base ∧ w'.numElts = w.numElts ∧ Handled array' w' ∧
      (slice array' w.base w.numElts).Perm (slice array w.base w.numElts) := by
  unfold qsHandleWork
  split
  · obtain ⟨array', hrun, hsorted, hperm, _⟩ := quicksort_ok array w.base hn
    exact ⟨array', { w with left := lrUndef, right := lrUndef }, by rw [hrun]; rfl, rfl, rfl,
      Or.inl ⟨rfl, hsorted⟩, hperm⟩
  · obtain ⟨array', l, r, hrun, hparted, hperm⟩ := quicksplit_ok array w hmany (by omega)
    exact ⟨array', { w with left := l, right := r }, by rw [hrun]; rfl, rfl, rfl, Or.inr hparted,
      hperm⟩

/-! ## The segments at work -/

def QsWork.segment (w : QsWork) : Nat × Nat := (w.base, w.numElts)

def QsState.segments (s : QsState α) : List (Nat × Nat) :=
  s.submitted.map QsWork.segment ++
    (s.running.map (fun r => r.1.segment) ++ s.finished.map QsWork.segment)

/-- No element belongs to both segments. -/
def Apart (v w : Nat × Nat) : Prop := v.1 + v.2 ≤ w.1 ∨ w.1 + w.2 ≤ v.1

instance : Std.Symm Apart := ⟨fun _ _ h => h.symm⟩

/-- The segments lie in the array, no two of them overlap, and elements that are not in one
segment are in order. -/
structure Layout (A : Nat → α) (n : Nat) (segments : List (Nat × Nat)) : Prop where
  inside : ∀ w ∈ segments, 2 ≤ w.2 ∧ w.1 + w.2 ≤ n
  apart : segments.Pairwise Apart
  ordered : ∀ p q, p < q → q < n → (∀ w ∈ segments, ¬ (w.1 ≤ p ∧ q < w.1 + w.2)) → A p ≤ A q

theorem Layout.perm {A : Nat → α} {n : Nat} {segments segments' : List (Nat × Nat)}
    (h : Layout A n segments) (hperm : segments'.Perm segments) : Layout A n segments' where
  inside w hw := h.inside w (hperm.mem_iff.mp hw)
  apart := (hperm.pairwise_iff fun h => h.symm).mpr h.apart
  ordered p q hpq hq hnone := h.ordered p q hpq hq fun w hw => hnone w (hperm.mem_iff.mpr hw)

/-- A worker that keeps to its segment keeps the layout. -/
theorem Layout.rearranged {A B : Nat → α} {n : Nat} {segments : List (Nat × Nat)}
    (h : Layout A n segments) {w : Nat × Nat} (hw : w ∈ segments)
    (hperm : (slice B w.1 w.2).Perm (slice A w.1 w.2))
    (hout : ∀ k, k < w.1 ∨ w.1 + w.2 ≤ k → B k = A k) : Layout B n segments := by
  refine ⟨h.inside, h.apart, fun p q hpq hq hnone => ?_⟩
  have hsource : ∀ k, ∃ k', B k = A k' ∧
      (w.1 ≤ k ∧ k < w.1 + w.2 ∧ w.1 ≤ k' ∧ k' < w.1 + w.2 ∨
        (k < w.1 ∨ w.1 + w.2 ≤ k) ∧ k' = k) := by
    intro k
    by_cases hk : w.1 ≤ k ∧ k < w.1 + w.2
    · have hmem : B k ∈ slice B w.1 w.2 := mem_slice.mpr ⟨k - w.1, by omega, by congr 1; omega⟩
      obtain ⟨i, hi, heq⟩ := mem_slice.mp (hperm.mem_iff.mp hmem)
      exact ⟨w.1 + i, heq.symm, Or.inl ⟨hk.1, hk.2, by omega, by omega⟩⟩
    · exact ⟨k, hout k (by omega), Or.inr ⟨by omega, rfl⟩⟩
  obtain ⟨p', hp', hpw⟩ := hsource p
  obtain ⟨q', hq', hqw⟩ := hsource q
  have hboth := hnone w hw
  have hin := h.inside w hw
  rw [hp', hq']
  apply h.ordered p' q' (by omega) (by omega)
  intro v hv hin'
  by_cases hvw : v = w
  · subst hvw
    omega
  · have hapart := h.apart.forall hv hw hvw
    have hlast := hnone v hv
    unfold Apart at hapart
    omega

/-- A segment gives way to parts of it. -/
theorem Layout.replace {A : Nat → α} {n : Nat} {v : Nat × Nat} {rest : List (Nat × Nat)}
    (h : Layout A n (v :: rest)) (parts : List (Nat × Nat))
    (hparts : ∀ w ∈ parts, 2 ≤ w.2 ∧ v.1 ≤ w.1 ∧ w.1 + w.2 ≤ v.1 + v.2)
    (hapart : parts.Pairwise Apart)
    (hordered : ∀ p q, v.1 ≤ p → p < q → q < v.1 + v.2 →
      (∀ w ∈ parts, ¬ (w.1 ≤ p ∧ q < w.1 + w.2)) → A p ≤ A q) :
    Layout A n (parts ++ rest) := by
  have hv := h.inside v List.mem_cons_self
  obtain ⟨hvrest, hrest⟩ := List.pairwise_cons.mp h.apart
  refine ⟨fun w hw => ?_, List.pairwise_append.mpr ⟨hapart, hrest, fun w hw u hu => ?_⟩,
    fun p q hpq hq hnone => ?_⟩
  · rcases List.mem_append.mp hw with hw | hw
    · have := hparts w hw
      omega
    · exact h.inside w (List.mem_cons_of_mem _ hw)
  · have hin := hparts w hw
    have hfar := hvrest u hu
    unfold Apart at hfar ⊢
    omega
  · by_cases hboth : v.1 ≤ p ∧ q < v.1 + v.2
    · exact hordered p q hboth.1 hpq hboth.2 fun w hw => hnone w (List.mem_append_left _ hw)
    · refine h.ordered p q hpq hq fun w hw => ?_
      rcases List.mem_cons.mp hw with rfl | hw
      · exact hboth
      · exact hnone w (List.mem_append_right _ hw)

/-- What one work can still cost: it is taken, it is done, it is collected, and so are its parts. -/
def cost (works : List QsWork) (lead : Nat) : Nat := (works.map fun w => 6 * w.numElts - lead).sum

/-- A finished work gives way to its parts. -/
theorem Layout.collect {A : Nat → α} {n : Nat} {v : QsWork} {rest : List (Nat × Nat)}
    (h : Layout A n (v.segment :: rest)) (hv : Handled A v) (c : AsortContext α)
    (hbytes : n * c.eltSize < 2 ^ 32) :
    ∃ parts, qsParts c v = .ok parts ∧ Layout A n (parts.map QsWork.segment ++ rest) ∧
      cost parts 9 + 11 < 6 * v.numElts := by
  obtain ⟨hmany, hin⟩ := h.inside _ List.mem_cons_self
  dsimp only [QsWork.segment] at hmany hin
  rcases hv with ⟨hundef, hsorted⟩ | ⟨h₁, h₂, h₃, h₄, h₅, pivot, hlow, hhigh⟩
  · refine ⟨[], by rw [qsParts, if_pos hundef], ?_, by simp [cost]; omega⟩
    refine h.replace [] (by simp) List.Pairwise.nil fun p q hp hpq hq _ => ?_
    dsimp only [QsWork.segment] at hp hq
    have hle := List.pairwise_iff_getElem.mp hsorted (p - v.base) (q - v.base)
      (by rw [slice_length]; omega) (by rw [slice_length]; omega) (by omega)
    rw [slice_getElem, slice_getElem] at hle
    rwa [Nat.add_sub_cancel' hp, Nat.add_sub_cancel' (by omega)] at hle
  · have hundef : v.left ≠ lrUndef := by
      intro heq
      rw [heq] at h₂
      exact absurd h₂ (by decide)
    have hadvance : c.advance v.base v.left.toNat = .ok (v.base + v.left.toNat) := by
      have hmul : v.left.toNat * c.eltSize ≤ n * c.eltSize := Nat.mul_le_mul_right _ (by omega)
      rw [AsortContext.advance, if_neg (by omega)]
    -- elements that are not both in the lower or both in the upper part have the pivot between them
    have hacross : ∀ p q, v.base ≤ p → p < q → q < v.base + v.numElts →
        (0 < v.right → ¬ q < v.base + (v.right + 1).toNat) →
        (v.left < v.numElts - 1 → ¬ v.base + v.left.toNat ≤ p) → A p ≤ A q := by
      intro p q hp hpq hq hnotlow hnothigh
      have hpl : A p ≤ pivot := by
        have := hlow (p - v.base) (by omega) (by omega)
        rwa [Nat.add_sub_cancel' hp] at this
      have hqr : pivot ≤ A q := by
        have := hhigh (q - v.base) (by omega) (by omega)
        rwa [Nat.add_sub_cancel' (by omega)] at this
      exact hpl.trans hqr
    by_cases hlower : v.right > 0
    · by_cases hupper : v.left < v.numElts - 1
      · refine ⟨[⟨v.base, (v.right + 1).toNat, v.left, v.right⟩,
          ⟨v.base + v.left.toNat, (v.numElts - v.left).toNat, v.left, v.right⟩], ?_, ?_, ?_⟩
        · rw [qsParts, if_neg hundef, if_pos hlower, if_pos hupper, hadvance]
          rfl
        · refine h.replace _ ?_ ?_ fun p q hp hpq hq hnone => ?_
          · simp [QsWork.segment]
            omega
          · simp [QsWork.segment, Apart]
            omega
          · simp only [List.map_cons, List.map_nil, List.forall_mem_cons, QsWork.segment] at hnone hp hq
            exact hacross p q hp hpq hq (fun _ hlt => hnone.1 ⟨hp, hlt⟩)
              fun _ hle => hnone.2.1 ⟨hle, by omega⟩
        · simp [cost]
          omega
      · refine ⟨[⟨v.base, (v.right + 1).toNat, v.left, v.right⟩], ?_, ?_, ?_⟩
        · rw [qsParts, if_neg hundef, if_pos hlower, if_neg hupper]
          rfl
        · refine h.replace _ ?_ ?_ fun p q hp hpq hq hnone => ?_
          · simp [QsWork.segment]
            omega
          · simp
          · simp only [List.map_cons, List.map_nil, List.forall_mem_cons, QsWork.segment] at hnone hp hq
            exact hacross p q hp hpq hq (fun _ hlt => hnone.1 ⟨hp, hlt⟩) fun hless => absurd hless hupper
        · simp [cost]
          omega
    · by_cases hupper : v.left < v.numElts - 1
      · refine ⟨[⟨v.base + v.left.toNat, (v.numElts - v.left).toNat, v.left, v.right⟩], ?_, ?_, ?_⟩
        · rw [qsParts, if_neg hundef, if_neg hlower, if_pos hupper, hadvance]
          rfl
        · refine h.replace _ ?_ ?_ fun p q hp hpq hq hnone => ?_
          · simp [QsWork.segment]
            omega
          · simp
          · simp only [List.map_cons, List.map_nil, List.forall_mem_cons, QsWork.segment] at hnone hp hq
            exact hacross p q hp hpq hq (fun hless => absurd hless hlower)
              fun _ hle => hnone.1 ⟨hle, by omega⟩
        · simp [cost]
          omega
      · refine ⟨[], ?_, ?_, by simp [cost]; omega⟩
        · rw [qsParts, if_neg hundef, if_neg hlower, if_neg hupper]
          rfl
        · refine h.replace [] (by simp) List.Pairwise.nil fun p q hp hpq hq _ => ?_
          exact hacross p q hp hpq hq (fun hless => absurd hless hlower)
            fun hless => absurd hless hupper

/-! ## Runs -/

/-- The invariant of the parallel quicksort: what a worker has is a rearrangement of what its
segment still holds, and the layout is kept. -/
structure QsInvariant (A : Nat → α) (n : Nat) (s : QsState α) : Prop where
  layout : Layout s.array n s.segments
  running : ∀ r ∈ s.running, Handled r.2 r.1 ∧
    (slice r.2 r.1.base r.1.numElts).Perm (slice s.array r.1.base r.1.numElts)
  finished : ∀ w ∈ s.finished, Handled s.array w
  moved : (slice s.array 0 n).Perm (slice A 0 n)
  outside : ∀ k, n ≤ k → s.array k = A k

def QsState.weight (s : QsState α) : Nat :=
  cost s.submitted 9 + cost (s.running.map Prod.fst) 10 + cost s.finished 11

omit [LinearOrder α] in
theorem slice_copyElts_perm {A B : Nat → α} {base m n : Nat} (hin : base + m ≤ n)
    (hperm : (slice B base m).Perm (slice A base m)) :
    (slice (copyElts A B base m) 0 n).Perm (slice A 0 n) := by
  obtain ⟨d, rfl⟩ := Nat.exists_eq_add_of_le hin
  have hparts : ∀ D : Nat → α, slice D 0 (base + m + d) =
      slice D 0 base ++ (slice D base m ++ slice D (base + m) d) := by
    intro D
    rw [Nat.add_assoc, slice_add, slice_add, Nat.zero_add]
  have hlow : slice (copyElts A B base m) 0 base = slice A 0 base :=
    slice_congr fun k _ hk => copyElts_out (Or.inl (by omega))
  have hhigh : slice (copyElts A B base m) (base + m) d = slice A (base + m) d :=
    slice_congr fun k hk _ => copyElts_out (Or.inr hk)
  rw [hparts, hparts A, hlow, hhigh, slice_copyElts]
  exact (hperm.append_right _).append_left _

theorem cost_perm {works works' : List QsWork} (h : works.Perm works') (lead : Nat) :
    cost works lead = cost works' lead :=
  (h.map _).sum_eq

theorem cost_cons (w : QsWork) (works : List QsWork) (lead : Nat) :
    cost (w :: works) lead = 6 * w.numElts - lead + cost works lead := by
  simp [cost]

theorem cost_append (works works' : List QsWork) (lead : Nat) :
    cost (works ++ works') lead = cost works lead + cost works' lead := by
  simp [cost]

theorem QsInvariant.start {A : Nat → α} {n : Nat} {s : QsState α} (h : QsInvariant A n s)
    (hn : n ≤ 2 ^ 30 + 4) (threadThreshold : Nat) {i : Nat} (hi : i < s.submitted.length) :
    ∃ array w, qsHandleWork threadThreshold s.array s.submitted[i] = .ok (array, w) ∧
      QsInvariant A n
        { s with submitted := s.submitted.eraseIdx i, running := (w, array) :: s.running } ∧
      QsState.weight
        { s with submitted := s.submitted.eraseIdx i, running := (w, array) :: s.running } <
          s.weight := by
  have htake := List.getElem_cons_eraseIdx_perm hi
  generalize s.submitted[i] = w₀ at htake ⊢
  have hsegments : w₀.segment ∈ s.segments := by
    have hmem := htake.mem_iff.mp List.mem_cons_self
    exact List.mem_append_left _ (List.mem_map_of_mem hmem)
  obtain ⟨hmany, hin⟩ := h.layout.inside _ hsegments
  dsimp only [QsWork.segment] at hmany hin
  obtain ⟨array, w, hrun, hbase, hnum, hhandled, hperm⟩ :=
    qsHandleWork_ok threadThreshold s.array w₀ hmany (by omega)
  have hsame : w.segment = w₀.segment := by rw [QsWork.segment, QsWork.segment, hbase, hnum]
  refine ⟨array, w, hrun, ⟨h.layout.perm ?_, fun r hr => ?_, h.finished, h.moved, h.outside⟩, ?_⟩
  · simp only [QsState.segments, List.map_cons, List.cons_append, hsame]
    refine List.perm_middle.trans ?_
    exact (htake.map QsWork.segment).append_right _
  · rcases List.mem_cons.mp hr with rfl | hr
    · rw [hbase, hnum]
      exact ⟨hhandled, hperm⟩
    · exact h.running r hr
  · have hcost := cost_perm htake 9
    rw [cost_cons] at hcost
    simp only [QsState.weight, List.map_cons, cost_cons, hnum]
    omega

theorem QsInvariant.done {A : Nat → α} {n : Nat} {s : QsState α} (h : QsInvariant A n s)
    {i : Nat} (hi : i < s.running.length) :
    QsInvariant A n
      { s with
        array := copyElts s.array s.running[i].2 s.running[i].1.base s.running[i].1.numElts
        running := s.running.eraseIdx i
        finished := s.running[i].1 :: s.finished } ∧
      QsState.weight
        { s with
          array := copyElts s.array s.running[i].2 s.running[i].1.base s.running[i].1.numElts
          running := s.running.eraseIdx i
          finished := s.running[i].1 :: s.finished } < s.weight := by
  have htake := List.getElem_cons_eraseIdx_perm hi
  generalize s.running[i] = r at htake ⊢
  obtain ⟨w, array⟩ := r
  have hmem : (w, array) ∈ s.running := htake.mem_iff.mp List.mem_cons_self
  have hsegments : w.segment ∈ s.segments :=
    List.mem_append_right _ (List.mem_append_left _ (List.mem_map.mpr ⟨_, hmem, rfl⟩))
  obtain ⟨hmany, hin⟩ := h.layout.inside _ hsegments
  dsimp only [QsWork.segment] at hmany hin
  obtain ⟨hhandled, hperm⟩ := h.running _ hmem
  dsimp only at hhandled hperm
  have hlayout : Layout (copyElts s.array array w.base w.numElts) n s.segments :=
    h.layout.rearranged hsegments (by rw [QsWork.segment, slice_copyElts]; exact hperm)
      fun k hk => copyElts_out hk
  have hperms : (w.segment :: ((s.running.eraseIdx i).map fun r => r.1.segment)).Perm
      (s.running.map fun r => r.1.segment) :=
    htake.map fun r : QsWork × (Nat → α) => r.1.segment
  -- the other works have segments of their own
  have hfar : ∀ v : Nat × Nat, v ∈ ((s.running.eraseIdx i).map fun r => r.1.segment) ++
      s.finished.map QsWork.segment → Apart w.segment v := by
    intro v hv
    have happart := h.layout.apart
    rw [QsState.segments] at happart
    have hright := (List.pairwise_append.mp happart).2.1
    have hcons := ((hperms.append_right (s.finished.map QsWork.segment)).pairwise_iff
      (fun h => h.symm)).mpr hright
    exact (List.pairwise_cons.mp hcons).1 v hv
  have houtside : ∀ v : Nat × Nat, Apart w.segment v → ∀ k, v.1 ≤ k → k < v.1 + v.2 →
      copyElts s.array array w.base w.numElts k = s.array k := by
    intro v hv k hk hk'
    apply copyElts_out
    unfold Apart at hv
    dsimp only [QsWork.segment] at hv
    omega
  refine ⟨⟨hlayout.perm ?_, fun r hr => ?_, fun v hv => ?_, ?_, fun k hk => ?_⟩, ?_⟩
  · simp only [QsState.segments, List.map_cons]
    refine List.Perm.append_left _ (List.perm_middle.trans ?_)
    exact hperms.append_right _
  · have hr' : r ∈ s.running := htake.mem_iff.mp (List.mem_cons_of_mem _ hr)
    refine ⟨(h.running r hr').1, ?_⟩
    have hsame : slice (copyElts s.array array w.base w.numElts) r.1.base r.1.numElts =
        slice s.array r.1.base r.1.numElts :=
      slice_congr (houtside r.1.segment
        (hfar _ (List.mem_append_left _ (List.mem_map_of_mem hr))))
    rw [hsame]
    exact (h.running r hr').2
  · rcases List.mem_cons.mp hv with rfl | hv
    · exact hhandled.congr fun k hk hk' => (copyElts_in hk hk').symm
    · refine (h.finished v hv).congr fun k hk hk' => (houtside v.segment ?_ k hk hk').symm
      exact hfar _ (List.mem_append_right _ (List.mem_map_of_mem hv))
  · exact (slice_copyElts_perm (by omega) hperm).trans h.moved
  · exact (copyElts_out (Or.inr (by dsimp only; omega))).trans (h.outside k hk)
  · have hcost := cost_perm (htake.map Prod.fst) 10
    rw [List.map_cons, cost_cons] at hcost
    simp only [QsState.weight, cost_cons]
    dsimp only at hcost
    omega

theorem QsInvariant.collect {A : Nat → α} {n : Nat} {s : QsState α} (h : QsInvariant A n s)
    (c : AsortContext α) (hbytes : n * c.eltSize < 2 ^ 32) {i : Nat} (hi : i < s.finished.length) :
    ∃ parts, qsParts c s.finished[i] = .ok parts ∧
      QsInvariant A n
        { s with submitted := s.submitted ++ parts, finished := s.finished.eraseIdx i } ∧
      QsState.weight
        { s with submitted := s.submitted ++ parts, finished := s.finished.eraseIdx i } <
          s.weight := by
  have htake := List.getElem_cons_eraseIdx_perm hi
  generalize s.finished[i] = v at htake ⊢
  have hmem : v ∈ s.finished := htake.mem_iff.mp List.mem_cons_self
  have hsegments : (v.segment :: (s.submitted.map QsWork.segment ++
      ((s.running.map fun r => r.1.segment) ++ (s.finished.eraseIdx i).map QsWork.segment))).Perm
      s.segments := by
    rw [QsState.segments, ← List.append_assoc, ← List.append_assoc]
    refine List.perm_middle.symm.trans ?_
    exact (htake.map QsWork.segment).append_left _
  obtain ⟨parts, hrun, hlayout, hcost⟩ :=
    (h.layout.perm hsegments).collect (h.finished v hmem) c hbytes
  refine ⟨parts, hrun, ⟨hlayout.perm ?_, h.running, fun w hw => ?_, h.moved, h.outside⟩, ?_⟩
  · simp only [QsState.segments, List.map_append]
    rw [← List.append_assoc, ← List.append_assoc, ← List.append_assoc]
    exact (List.perm_append_comm.append_right _).append_right _
  · exact h.finished w (htake.mem_iff.mp (List.mem_cons_of_mem _ hw))
  · have hsum := cost_perm htake 11
    rw [cost_cons] at hsum
    simp only [QsState.weight, cost_append]
    omega

theorem qsStep_ok {A : Nat → α} {n : Nat} {s : QsState α} (h : QsInvariant A n s)
    (hn : n ≤ 2 ^ 30 + 4) (c : AsortContext α) (hbytes : n * c.eltSize < 2 ^ 32)
    (threadThreshold : Nat) {e : QsEvent} {r : Except AsortFault (QsState α)}
    (hstep : qsStep c threadThreshold s e = some r) :
    ∃ s', r = .ok s' ∧ QsInvariant A n s' ∧ s'.weight < s.weight := by
  cases e with
  | start i =>
      obtain ⟨w, hw, rfl⟩ := Option.map_eq_some_iff.mp hstep
      obtain ⟨hi, rfl⟩ := List.getElem?_eq_some_iff.mp hw
      obtain ⟨array, w, hrun, hnext, hless⟩ := h.start hn threadThreshold hi
      exact ⟨_, by rw [hrun]; rfl, hnext, hless⟩
  | done i =>
      obtain ⟨w, hw, rfl⟩ := Option.map_eq_some_iff.mp hstep
      obtain ⟨hi, rfl⟩ := List.getElem?_eq_some_iff.mp hw
      obtain ⟨hnext, hless⟩ := h.done hi
      exact ⟨_, rfl, hnext, hless⟩
  | collect i =>
      obtain ⟨w, hw, rfl⟩ := Option.map_eq_some_iff.mp hstep
      obtain ⟨hi, rfl⟩ := List.getElem?_eq_some_iff.mp hw
      obtain ⟨parts, hrun, hnext, hless⟩ := h.collect c hbytes hi
      exact ⟨_, by rw [hrun]; rfl, hnext, hless⟩

theorem qsRun_ok {A : Nat → α} {n : Nat} (hn : n ≤ 2 ^ 30 + 4) (c : AsortContext α)
    (hbytes : n * c.eltSize < 2 ^ 32) (threadThreshold : Nat) (events : List QsEvent)
    {s : QsState α} (h : QsInvariant A n s) {r : Except AsortFault (QsState α)}
    (hrun : qsRun c threadThreshold s events = some r) :
    ∃ s', r = .ok s' ∧ QsInvariant A n s' ∧ s'.weight + events.length ≤ s.weight := by
  induction events generalizing s with
  | nil =>
      cases hrun
      exact ⟨s, rfl, h, le_rfl⟩
  | cons e events ih =>
      rw [qsRun] at hrun
      cases hstep : qsStep c threadThreshold s e with
      | none =>
          rw [hstep] at hrun
          cases hrun
      | some r₁ =>
          obtain ⟨s₁, rfl, h₁, hless⟩ := qsStep_ok h hn c hbytes threadThreshold hstep
          rw [hstep] at hrun
          obtain ⟨s', hr, h', hlen⟩ := ih h₁ hrun
          exact ⟨s', hr, h', by rw [List.length_cons]; omega⟩

/-- A state that is not idle has an event. -/
theorem QsState.exists_event (c : AsortContext α) (threadThreshold : Nat) (s : QsState α) :
    s.Idle ∨ ∃ e, (qsStep c threadThreshold s e).isSome := by
  by_cases hsubmitted : s.submitted = []
  · by_cases hrunning : s.running = []
    · by_cases hfinished : s.finished = []
      · exact Or.inl ⟨hsubmitted, hrunning, hfinished⟩
      · obtain ⟨w, rest, heq⟩ := List.exists_cons_of_ne_nil hfinished
        exact Or.inr ⟨.collect 0, by simp [qsStep, heq]⟩
    · obtain ⟨w, rest, heq⟩ := List.exists_cons_of_ne_nil hrunning
      exact Or.inr ⟨.done 0, by simp [qsStep, heq]⟩
  · obtain ⟨w, rest, heq⟩ := List.exists_cons_of_ne_nil hsubmitted
    exact Or.inr ⟨.start 0, by simp [qsStep, heq]⟩

/-- The parallel quicksort under every order of its events: it never fails and ends after fewer
than six events for each element, the segments at work never overlap, and when nothing is
left to wait for, the array is in order. -/
theorem threadedQuicksort_sorts (c : AsortContext α) (threadThreshold : Nat) (array : Nat → α)
    {n : Nat} (hmany : 2 ≤ n) (hn : n ≤ 2 ^ 30 + 4) (hbytes : n * c.eltSize < 2 ^ 32)
    (events : List QsEvent) {r : Except AsortFault (QsState α)}
    (hrun : qsRun c threadThreshold (threadedQuicksort array n) events = some r) :
    ∃ s, r = .ok s ∧ events.length < 6 * n ∧ s.segments.Pairwise Apart ∧
      (s.Idle ∨ ∃ e, (qsStep c threadThreshold s e).isSome) ∧
      (s.Idle → (slice s.array 0 n).Pairwise (· ≤ ·) ∧
        (slice s.array 0 n).Perm (slice array 0 n) ∧ ∀ k, n ≤ k → s.array k = array k) := by
  have hstart : QsInvariant array n (threadedQuicksort array n) := by
    refine ⟨⟨?_, ?_, fun p q _ hq hnone => ?_⟩, by simp [threadedQuicksort],
      by simp [threadedQuicksort], List.Perm.refl _, fun _ _ => rfl⟩
    · simpa [QsState.segments, threadedQuicksort, QsWork.segment] using hmany
    · simp [QsState.segments, threadedQuicksort]
    · refine absurd ⟨Nat.zero_le p, by simpa using hq⟩ (hnone (0, n) ?_)
      simp [QsState.segments, threadedQuicksort, QsWork.segment]
  obtain ⟨s, rfl, h, hlen⟩ := qsRun_ok hn c hbytes threadThreshold events hstart hrun
  have hweight : (threadedQuicksort array n).weight = 6 * n - 9 := by
    simp [threadedQuicksort, QsState.weight, cost]
  refine ⟨s, rfl, by omega, h.layout.apart, s.exists_event c threadThreshold, fun hidle => ?_⟩
  obtain ⟨hsubmitted, hrunning, hfinished⟩ := hidle
  refine ⟨?_, h.moved, h.outside⟩
  rw [List.pairwise_iff_getElem]
  intro i j hi hj hij
  rw [slice_getElem, slice_getElem, Nat.zero_add, Nat.zero_add]
  rw [slice_length] at hj
  apply h.layout.ordered i j hij hj
  simp [QsState.segments, hsubmitted, hrunning, hfinished]

theorem threadedQuicksort_sorts_two :
    ∃ r, qsRun fourNumbers 1 (threadedQuicksort (fun i => [9, 3].getD i 0) 2)
        [.start 0, .done 0, .collect 0] = some r ∧
      ∃ s, r = .ok s ∧ [QsEvent.start 0, .done 0, .collect 0].length < 6 * 2 ∧
        s.segments.Pairwise Apart ∧ (s.Idle ∨ ∃ e, (qsStep fourNumbers 1 s e).isSome) ∧
        (s.Idle → (slice s.array 0 2).Pairwise (· ≤ ·) ∧
          (slice s.array 0 2).Perm (slice (fun i => [9, 3].getD i 0) 0 2) ∧
          ∀ k, 2 ≤ k → s.array k = [9, 3].getD k 0) :=
  ⟨_, rfl, threadedQuicksort_sorts fourNumbers 1 (fun i => [9, 3].getD i 0) (by decide) (by decide)
    (by decide) [.start 0, .done 0, .collect 0] rfl⟩

end OpenAAA.Sorter
