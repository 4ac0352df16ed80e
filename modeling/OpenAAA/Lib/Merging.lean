import Mathlib.Tactic

/-!
Merging of sorted streams. A merge that always takes the leftmost of the streams whose
head is least gives the stable sort of the streams one after the other; a merge that
joins the records of one key gives one record for each key.
-/

namespace OpenAAA.Merging

variable {ρ κ : Type} {key : ρ → κ}

/-! ## Natural runs -/

section Runs

variable {r : ρ → ρ → Prop} [DecidableRel r]

/-- The number of maximal pieces in which every record is in relation to the next. -/
def runsOf (r : ρ → ρ → Prop) [DecidableRel r] : List ρ → Nat
  | [] => 0
  | [_] => 1
  | x :: y :: l => runsOf r (y :: l) + if r x y then 0 else 1

theorem runsOf_pos {l : List ρ} (h : l ≠ []) : 0 < runsOf r l := by
  induction l with
  | nil => exact absurd rfl h
  | cons x l ih =>
      cases l with
      | nil => exact Nat.one_pos
      | cons y l => exact Nat.add_pos_left (ih (List.cons_ne_nil _ _)) _

theorem runsOf_append_of {l : List ρ} {x : ρ} (hne : l ≠ []) (h : ∀ y ∈ l.getLast?, r y x) :
    runsOf r (l ++ [x]) = runsOf r l := by
  induction l with
  | nil => exact absurd rfl hne
  | cons y l ih =>
      cases l with
      | nil =>
          have := h y (by simp)
          simp [runsOf, this]
      | cons z l =>
          have hl := ih (List.cons_ne_nil _ _) fun w hw => h w (by simpa using hw)
          rw [List.cons_append, List.cons_append, runsOf, ← List.cons_append, hl, runsOf]

theorem runsOf_append_le (l : List ρ) (x : ρ) : runsOf r (l ++ [x]) ≤ runsOf r l + 1 := by
  induction l with
  | nil => exact le_rfl
  | cons y l ih =>
      cases l with
      | nil =>
          simp only [List.cons_append, List.nil_append, runsOf]
          split <;> omega
      | cons z l =>
          rw [List.cons_append, List.cons_append, runsOf, ← List.cons_append, runsOf]
          omega

end Runs

/-! ## What a sort keeps -/

section Gathers

variable {M : Type} [AddCommMonoid M] {weight : ρ → M} {l l₁ l₂ l₃ l₄ : List ρ}

/-- The records of the second list are those of the first, some of one key joined: the same
keys, and the same total of whatever joining adds up. -/
structure Gathers (key : ρ → κ) (weight : ρ → M) (ins outs : List ρ) : Prop where
  keys : ∀ y ∈ outs, ∃ x ∈ ins, key x = key y
  kept : ∀ x ∈ ins, ∃ y ∈ outs, key y = key x
  total : (outs.map weight).sum = (ins.map weight).sum

theorem Gathers.of_perm (h : l₁.Perm l₂) : Gathers key weight l₁ l₂ :=
  ⟨fun y hy => ⟨y, h.mem_iff.mpr hy, rfl⟩, fun x hx => ⟨x, h.mem_iff.mp hx, rfl⟩,
    (h.map weight).sum_eq.symm⟩

theorem Gathers.refl (l : List ρ) : Gathers key weight l l := .of_perm (.refl l)

theorem Gathers.trans (h₁ : Gathers key weight l₁ l₂) (h₂ : Gathers key weight l₂ l₃) :
    Gathers key weight l₁ l₃ := by
  refine ⟨fun z hz => ?_, fun x hx => ?_, h₂.total.trans h₁.total⟩
  · obtain ⟨y, hy, hyz⟩ := h₂.keys z hz
    obtain ⟨x, hx, hxy⟩ := h₁.keys y hy
    exact ⟨x, hx, hxy.trans hyz⟩
  · obtain ⟨y, hy, hyx⟩ := h₁.kept x hx
    obtain ⟨z, hz, hzy⟩ := h₂.kept y hy
    exact ⟨z, hz, hzy.trans hyx⟩

theorem Gathers.append (h₁ : Gathers key weight l₁ l₂) (h₂ : Gathers key weight l₃ l₄) :
    Gathers key weight (l₁ ++ l₃) (l₂ ++ l₄) := by
  refine ⟨fun y hy => ?_, fun x hx => ?_, ?_⟩
  · rcases List.mem_append.mp hy with hy | hy
    · obtain ⟨x, hx, hxy⟩ := h₁.keys y hy
      exact ⟨x, List.mem_append_left _ hx, hxy⟩
    · obtain ⟨x, hx, hxy⟩ := h₂.keys y hy
      exact ⟨x, List.mem_append_right _ hx, hxy⟩
  · rcases List.mem_append.mp hx with hx | hx
    · obtain ⟨y, hy, hyx⟩ := h₁.kept x hx
      exact ⟨y, List.mem_append_left _ hy, hyx⟩
    · obtain ⟨y, hy, hyx⟩ := h₂.kept x hx
      exact ⟨y, List.mem_append_right _ hy, hyx⟩
  · rw [List.map_append, List.map_append, List.sum_append, List.sum_append, h₁.total, h₂.total]

/-- Records of one key joined to a record of this key that has their total. -/
theorem Gathers.join {k : κ} {z : ρ} (hl : l ≠ []) (hk : ∀ x ∈ l, key x = k) (hz : key z = k)
    (htotal : weight z = (l.map weight).sum) : Gathers key weight l [z] := by
  refine ⟨fun y hy => ?_, fun x hx => ⟨z, by simp, hz.trans (hk x hx).symm⟩, by simpa using htotal⟩
  obtain ⟨x, hx⟩ := List.exists_mem_of_ne_nil l hl
  rw [List.mem_singleton.mp hy]
  exact ⟨x, hx, (hk x hx).trans hz.symm⟩

/-- If joining never happens, a list that gathers another is a permutation of it. -/
theorem Gathers.perm (h : Gathers key (fun x => ({x} : Multiset ρ)) l₁ l₂) : l₂.Perm l₁ := by
  have hsum : ∀ l : List ρ, (l.map fun x => ({x} : Multiset ρ)).sum = (l : Multiset ρ) := by
    intro l
    induction l with
    | nil => rfl
    | cons x l ih => rw [List.map_cons, List.sum_cons, ih, Multiset.singleton_add, Multiset.cons_coe]
  have htotal := h.total
  rw [hsum, hsum] at htotal
  exact Multiset.coe_eq_coe.mp htotal

end Gathers

variable [LinearOrder κ]

/-! ## The stable sort of a list -/

/-- Two lists ordered by key that hold the same records of each key in the same order
are one list. -/
theorem eq_of_filter {l₁ l₂ : List ρ} (h₁ : l₁.Pairwise fun x y => key x ≤ key y)
    (h₂ : l₂.Pairwise fun x y => key x ≤ key y)
    (h : ∀ k, l₁.filter (key · = k) = l₂.filter (key · = k)) : l₁ = l₂ := by
  induction l₁ generalizing l₂ with
  | nil =>
      cases l₂ with
      | nil => rfl
      | cons y ys => simpa using h (key y)
  | cons x xs ih =>
      cases l₂ with
      | nil => simpa using h (key x)
      | cons y ys =>
          rw [List.pairwise_cons] at h₁ h₂
          have hx : x ∈ y :: ys := (List.mem_filter.mp (h (key x) ▸
            List.mem_filter.mpr ⟨List.mem_cons_self, by simp⟩)).1
          have hy : y ∈ x :: xs := (List.mem_filter.mp ((h (key y)).symm ▸
            List.mem_filter.mpr ⟨List.mem_cons_self, by simp⟩)).1
          have hxy : key x ≤ key y := by
            rcases List.mem_cons.mp hy with rfl | hy
            · exact le_refl _
            · exact h₁.1 _ hy
          have hyx : key y ≤ key x := by
            rcases List.mem_cons.mp hx with rfl | hx
            · exact le_refl _
            · exact h₂.1 _ hx
          have heq : key y = key x := le_antisymm hyx hxy
          have hhead := h (key x)
          rw [List.filter_cons_of_pos (by simp), List.filter_cons_of_pos (by simpa using heq)]
            at hhead
          obtain ⟨rfl, -⟩ := List.cons.inj hhead
          congr 1
          refine ih h₁.2 h₂.2 fun k => ?_
          have hk := h k
          by_cases hxk : key x = k
          · rw [List.filter_cons_of_pos (by simpa using hxk),
              List.filter_cons_of_pos (by simpa using hxk)] at hk
            exact (List.cons.inj hk).2
          · rwa [List.filter_cons_of_neg (by simpa using hxk),
              List.filter_cons_of_neg (by simpa using hxk)] at hk

/-- The records in the order of their keys, those of one key as they come. -/
def stableSort (key : ρ → κ) (l : List ρ) : List ρ := l.mergeSort fun x y => key x ≤ key y

theorem stableSort_perm (key : ρ → κ) (l : List ρ) : (stableSort key l).Perm l :=
  List.mergeSort_perm l _

theorem stableSort_sorted (key : ρ → κ) (l : List ρ) :
    (stableSort key l).Pairwise fun x y => key x ≤ key y := by
  have h : (stableSort key l).Pairwise fun x y => decide (key x ≤ key y) = true :=
    List.pairwise_mergeSort (fun a b c hab hbc => by simpa using le_trans (by simpa using hab) (by simpa using hbc))
    (fun a b => by simpa using le_total _ _) l
  exact h.imp fun h => by simpa using h

theorem stableSort_filter (key : ρ → κ) (l : List ρ) (k : κ) :
    (stableSort key l).filter (key · = k) = l.filter (key · = k) := by
  have hsub : (l.filter (key · = k)).Sublist (stableSort key l) := by
    refine List.sublist_mergeSort
      (fun a b c hab hbc => by simpa using le_trans (by simpa using hab) (by simpa using hbc))
      (fun a b => by simpa using le_total _ _) ?_ List.filter_sublist
    refine List.pairwise_of_forall_mem_list fun x hx y hy => ?_
    have hxk : key x = k := by simpa using (List.mem_filter.mp hx).2
    have hyk : key y = k := by simpa using (List.mem_filter.mp hy).2
    simp [hxk, hyk]
  have hfilter := hsub.filter (key · = k)
  rw [List.filter_filter] at hfilter
  simp only [Bool.and_self] at hfilter
  exact (hfilter.eq_of_length ((stableSort_perm key l).filter _).length_eq.symm).symm

theorem eq_stableSort {l out : List ρ} (hsorted : out.Pairwise fun x y => key x ≤ key y)
    (hfilter : ∀ k, out.filter (key · = k) = l.filter (key · = k)) : out = stableSort key l :=
  eq_of_filter hsorted (stableSort_sorted key l) fun k =>
    (hfilter k).trans (stableSort_filter key l k).symm

/-! ## Streams side by side -/

/-- What the first `n` streams hold, one after the other. -/
def concat (n : Nat) (s : Nat → List ρ) : List ρ := (List.range n).flatMap s

theorem mem_concat {n : Nat} {s : Nat → List ρ} {x : ρ} :
    x ∈ concat n s ↔ ∃ i < n, x ∈ s i := by
  simp [concat]

theorem concat_congr {n : Nat} {s t : Nat → List ρ} (h : ∀ i < n, s i = t i) :
    concat n s = concat n t := by
  unfold concat
  apply List.flatMap_congr
  intro i hi
  exact h i (List.mem_range.mp hi)

theorem concat_filter (n : Nat) (s : Nat → List ρ) (p : ρ → Bool) :
    (concat n s).filter p = concat n fun i => (s i).filter p := by
  simp [concat, List.filter_flatMap]

/-- The streams before and behind one of them. -/
theorem concat_split {n i : Nat} (s : Nat → List ρ) (hi : i < n) :
    concat n s = concat i s ++ s i ++ concat (n - i - 1) fun j => s (i + 1 + j) := by
  obtain ⟨m, rfl⟩ : ∃ m, n = i + 1 + m := ⟨n - i - 1, by omega⟩
  simp only [concat, List.range_add, List.flatMap_append, List.flatMap_map]
  simp [show i + 1 + m - i - 1 = m from by omega]

theorem concat_update {n i : Nat} (s : Nat → List ρ) (hi : i < n) (t : List ρ) :
    concat n (Function.update s i t)
      = concat i s ++ t ++ concat (n - i - 1) fun j => s (i + 1 + j) := by
  rw [concat_split _ hi, Function.update_self]
  congr 1
  · congr 1
    exact concat_congr fun j hj => Function.update_of_ne (by omega) ..
  · exact concat_congr fun j hj => Function.update_of_ne (by omega) ..

theorem concat_take {n i : Nat} {s : Nat → List ρ} {x : ρ} {rest : List ρ} (hi : i < n)
    (hs : s i = x :: rest) :
    (concat n s).Perm (x :: concat n (Function.update s i rest)) := by
  rw [concat_split s hi, hs, concat_update s hi]
  simp only [List.append_assoc, List.cons_append]
  exact List.perm_middle

theorem concat_getD (l : List (List ρ)) : concat l.length (fun i => l.getD i []) = l.flatten := by
  induction l with
  | nil => rfl
  | cons xs l ih =>
      rw [concat, List.length_cons, List.range_succ_eq_map, List.flatMap_cons, List.flatMap_map,
        List.flatten_cons, ← ih]
      rfl

/-! ## The stable merge -/

/-- The merge that takes the leftmost of the least heads. -/
inductive MergesTo (key : ρ → κ) (n : Nat) : (Nat → List ρ) → List ρ → Prop
  | done {s} (h : ∀ i < n, s i = []) : MergesTo key n s []
  | take {s i x rest out} (hi : i < n) (hs : s i = x :: rest)
      (hleast : ∀ j < n, ∀ y ∈ (s j).head?, key x ≤ key y ∧ (j < i → key x < key y))
      (h : MergesTo key n (Function.update s i rest) out) : MergesTo key n s (x :: out)

/-- Every record behind the head of a sorted stream is at least the head. -/
theorem head_le {l : List ρ} (hl : l.Pairwise fun x y => key x ≤ key y) {x : ρ} (hx : x ∈ l) :
    ∃ y ∈ l.head?, key y ≤ key x := by
  cases l with
  | nil => simp at hx
  | cons y ys =>
      refine ⟨y, by simp, ?_⟩
      rcases List.mem_cons.mp hx with rfl | hx
      · exact le_refl _
      · exact (List.pairwise_cons.mp hl).1 _ hx

theorem sorted_update {n i : Nat} {s : Nat → List ρ} {x : ρ} {rest : List ρ}
    (hsorted : ∀ j < n, (s j).Pairwise fun x y => key x ≤ key y) (hs : s i = x :: rest)
    (j : Nat) (hj : j < n) :
    (Function.update s i rest j).Pairwise fun x y => key x ≤ key y := by
  by_cases hji : j = i
  · subst hji
    have h := hsorted j hj
    rw [hs, List.pairwise_cons] at h
    rw [Function.update_self]
    exact h.2
  · rw [Function.update_of_ne hji]
    exact hsorted j hj

/-- The stable merge of sorted streams is the stable sort of all they hold. -/
theorem MergesTo.eq_stableSort {n : Nat} {s : Nat → List ρ} {out : List ρ}
    (h : MergesTo key n s out) (hsorted : ∀ i < n, (s i).Pairwise fun x y => key x ≤ key y) :
    out = stableSort key (concat n s) := by
  have key_of : out.Pairwise (fun x y => key x ≤ key y) ∧
      ∀ k, out.filter (key · = k) = (concat n s).filter (key · = k) := by
    induction h with
    | @done s h =>
        refine ⟨List.Pairwise.nil, fun k => ?_⟩
        rw [concat_congr (t := fun _ => []) fun i hi => h i hi]
        simp [concat]
    | @take s i x rest out hi hs hleast _ ih =>
        obtain ⟨ihsorted, ihfilter⟩ := ih (sorted_update hsorted hs)
        have hall : ∀ j < n, ∀ y ∈ s j, key x ≤ key y ∧ (j < i → key x < key y) := by
          intro j hj y hy
          obtain ⟨z, hz, hzy⟩ := head_le (hsorted j hj) hy
          obtain ⟨hxz, hlt⟩ := hleast j hj z hz
          exact ⟨hxz.trans hzy, fun hji => (hlt hji).trans_le hzy⟩
        refine ⟨List.pairwise_cons.mpr ⟨fun y hy => ?_, ihsorted⟩, fun k => ?_⟩
        · have hmem : y ∈ (concat n (Function.update s i rest)).filter (key · = key y) := by
            rw [← ihfilter]
            exact List.mem_filter.mpr ⟨hy, by simp⟩
          obtain ⟨j, hj, hyj⟩ := mem_concat.mp (List.mem_filter.mp hmem).1
          by_cases hji : j = i
          · subst hji
            rw [Function.update_self] at hyj
            exact (hall j hj y (by rw [hs]; exact List.mem_cons_of_mem _ hyj)).1
          · rw [Function.update_of_ne hji] at hyj
            exact (hall j hj y hyj).1
        · -- no stream to the left of the taken one holds its key
          rw [concat_split s hi, hs, List.filter_cons, ihfilter, concat_update s hi]
          by_cases hk : key x = k
          · have hleft : (concat i s).filter (key · = k) = [] := by
              rw [List.filter_eq_nil_iff]
              intro y hy
              obtain ⟨j, hj, hyj⟩ := mem_concat.mp hy
              have := (hall j (by omega) y hyj).2 hj
              simpa using fun h => absurd (hk ▸ h) this.ne'
            simp [hk, hleft]
          · simp [hk]
  exact Merging.eq_stableSort key_of.1 key_of.2

/-! ## Joining the records of one key -/

/-- One record for each key, in the order of the keys: `unite` of the records that have it. -/
inductive Unifies (key : ρ → κ) (unite : List ρ → ρ) : List ρ → List ρ → Prop
  | nil : Unifies key unite [] []
  | cons {l out} (k : κ) (hk : l.filter (key · = k) ≠ []) (hleast : ∀ x ∈ l, k ≤ key x)
      (h : Unifies key unite (l.filter (key · ≠ k)) out) :
      Unifies key unite l (unite (l.filter (key · = k)) :: out)

variable {unite : List ρ → ρ}

theorem Unifies.mem {l out : List ρ} (h : Unifies key unite l out) (r : ρ) :
    r ∈ out ↔ ∃ x ∈ l, r = unite (l.filter (key · = key x)) := by
  induction h with
  | nil => simp
  | @cons l out k hk hleast _ ih =>
      obtain ⟨x₀, hx₀⟩ := List.exists_mem_of_ne_nil _ hk
      have hx₀k : key x₀ = k := by simpa using (List.mem_filter.mp hx₀).2
      have hfilter : ∀ x, key x ≠ k → (l.filter (key · ≠ k)).filter (key · = key x)
          = l.filter (key · = key x) := by
        intro x hx
        rw [List.filter_filter]
        refine List.filter_congr fun y _ => ?_
        by_cases hy : key y = key x <;> simp [hy, hx]
      rw [List.mem_cons, ih]
      constructor
      · rintro (rfl | ⟨x, hx, rfl⟩)
        · exact ⟨x₀, (List.mem_filter.mp hx₀).1, by rw [hx₀k]⟩
        · have hxk : key x ≠ k := by simpa using (List.mem_filter.mp hx).2
          exact ⟨x, (List.mem_filter.mp hx).1, by rw [hfilter x hxk]⟩
      · rintro ⟨x, hx, rfl⟩
        by_cases hxk : key x = k
        · exact .inl (by rw [hxk])
        · exact .inr ⟨x, List.mem_filter.mpr ⟨hx, by simpa using hxk⟩, by rw [hfilter x hxk]⟩

theorem Unifies.increasing {l out : List ρ} (h : Unifies key unite l out)
    (hkey : ∀ k (g : List ρ), g ≠ [] → (∀ x ∈ g, key x = k) → key (unite g) = k) :
    out.Pairwise fun x y => key x < key y := by
  induction h with
  | nil => exact List.Pairwise.nil
  | @cons l out k hk hleast hrest ih =>
      refine List.pairwise_cons.mpr ⟨fun r hr => ?_, ih⟩
      obtain ⟨x, hx, rfl⟩ := (hrest.mem r).mp hr
      obtain ⟨hxl, hxk⟩ := List.mem_filter.mp hx
      have hxk : key x ≠ k := by simpa using hxk
      have hgroup : x ∈ (l.filter (key · ≠ k)).filter (key · = key x) :=
        List.mem_filter.mpr ⟨hx, by simp⟩
      rw [hkey k _ hk (by simp), hkey (key x) _ (List.ne_nil_of_mem hgroup)
        fun y hy => by simpa using (List.mem_filter.mp hy).2]
      exact lt_of_le_of_ne (hleast x hxl) hxk.symm

theorem Unifies.gathers {M : Type} [AddCommMonoid M] {weight : ρ → M} {l out : List ρ}
    (h : Unifies key unite l out)
    (hkey : ∀ k (g : List ρ), g ≠ [] → (∀ x ∈ g, key x = k) → key (unite g) = k)
    (hweight : ∀ k (g : List ρ), g ≠ [] → (∀ x ∈ g, key x = k) →
      weight (unite g) = (g.map weight).sum) :
    Gathers key weight l out := by
  induction h with
  | nil => exact .refl []
  | @cons l out k hk hleast _ ih =>
      have hsplit : l.Perm (l.filter (key · = k) ++ l.filter (key · ≠ k)) := by
        simpa using (List.filter_append_perm (key · = k) l).symm
      exact (Gathers.of_perm hsplit).trans
        ((Gathers.join hk (by simp) (hkey k _ hk (by simp)) (hweight k _ hk (by simp))).append ih)

end OpenAAA.Merging
