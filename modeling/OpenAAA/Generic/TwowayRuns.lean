import OpenAAA.Generic.Twoway

/-!
A pass of `twoway_merge` merges the runs of its inputs pairwise and deals them out in turn,
so that half as many are left in each output; nothing is lost on the way.
-/

namespace OpenAAA.Sorter

open Merging

variable {ρ κ : Type} [LinearOrder κ] {p : SortParams ρ κ}

/-! ## The order of a run -/

/-- Two records follow each other in a run. -/
def SortParams.Less (p : SortParams ρ κ) (x y : ρ) : Prop := p.less (p.compare x y) = true

instance (p : SortParams ρ κ) : DecidableRel p.Less :=
  fun x y => inferInstanceAs (Decidable (p.less (p.compare x y) = true))

theorem less_iff (p : SortParams ρ κ) (x y : ρ) :
    p.Less x y ↔ if p.unify then p.key x < p.key y else p.key x ≤ p.key y := by
  rw [SortParams.Less, SortParams.less]
  cases p.unify with
  | true =>
      rw [if_pos rfl, if_pos rfl, decide_eq_true_iff]
      exact cmp_eq_lt_iff _ _
  | false =>
      rw [if_neg Bool.false_ne_true, if_neg Bool.false_ne_true, decide_eq_true_iff, ne_eq,
        compare_gt_iff, not_lt]

theorem less_congr {x x' y y' : ρ} (hx : p.key x = p.key x') (hy : p.key y = p.key y') :
    p.Less x y ↔ p.Less x' y' := by
  rw [less_iff, less_iff, hx, hy]

instance (p : SortParams ρ κ) : IsTrans ρ p.Less where
  trans x y z hxy hyz := by
    rw [less_iff] at hxy hyz ⊢
    split at hxy <;> rename_i h <;> simp only [h, if_true, if_false, Bool.false_eq_true] at hxy hyz ⊢
    · exact hxy.trans hyz
    · exact hxy.trans hyz

/-! ## The inputs -/

/-- The records of an input that are still to be written. -/
def Inflow.pending (i : Inflow ρ) : List ρ := i.kin.toList ++ i.fin

structure Inflow.Sound (i : Inflow ρ) : Prop where
  next : i.next = i.kin.isSome
  run : i.run = true → i.next = true
  drained : i.kin = none → i.fin = []

/-- The runs of an input behind the one that is being merged. -/
def Inflow.later (p : SortParams ρ κ) (i : Inflow ρ) : Nat :=
  runsOf p.Less i.pending - if i.run then 1 else 0

theorem Inflow.start_sound (l : List ρ) : (Inflow.start l).Sound ∧ (Inflow.start l).pending = l ∧
    (Inflow.start l).run = (Inflow.start l).next := by
  cases l with
  | nil => exact ⟨⟨rfl, fun h => h, fun _ => rfl⟩, rfl, rfl⟩
  | cons x l => exact ⟨⟨rfl, fun _ => rfl, fun h => by cases h⟩, rfl, rfl⟩

theorem Inflow.Sound.pending_eq {i : Inflow ρ} {x : ρ} (hx : i.kin = some x) :
    i.pending = x :: i.fin := by
  rw [Inflow.pending, hx]
  rfl

theorem Inflow.Sound.pending_nil {i : Inflow ρ} (h : i.Sound) :
    i.pending = [] ↔ i.next = false := by
  rw [Inflow.pending, h.next]
  cases hkin : i.kin with
  | none => simp [h.drained hkin]
  | some x => simp

theorem Inflow.Sound.exists_kin {i : Inflow ρ} (h : i.Sound) (hrun : i.run = true) :
    ∃ x, i.kin = some x := by
  have := h.run hrun
  rw [h.next] at this
  exact Option.isSome_iff_exists.mp this

/-- Reading on: the input has one record less, and the run ends where its order does. -/
theorem Inflow.advance_sound (p : SortParams ρ κ) (x : ρ) (i : Inflow ρ) :
    (i.advance p x).Sound ∧ (i.advance p x).pending = i.fin ∧
      ((i.advance p x).run = true → ∀ y ∈ (i.advance p x).kin, p.Less x y) := by
  rw [Inflow.advance]
  cases i.fin with
  | nil => exact ⟨⟨rfl, fun h => h, fun _ => rfl⟩, rfl, fun h => by cases h⟩
  | cons y l =>
      refine ⟨⟨rfl, fun _ => rfl, fun h => by cases h⟩, rfl, fun hrun z hz => ?_⟩
      obtain rfl := Option.some.inj hz
      exact hrun

theorem Inflow.later_advance {i : Inflow ρ} {x : ρ} (hx : i.kin = some x) (hrun : i.run = true) :
    (i.advance p x).later p = i.later p := by
  have hpending := (Inflow.advance_sound p x i).2.1
  rw [Inflow.later, Inflow.later, hpending, Inflow.Sound.pending_eq hx, hrun, if_pos rfl]
  rw [Inflow.advance]
  cases i.fin with
  | nil => rfl
  | cons y l =>
      rw [runsOf]
      dsimp only
      have hpos : 0 < runsOf p.Less (y :: l) := runsOf_pos (List.cons_ne_nil _ _)
      by_cases hxy : p.Less x y
      · rw [if_pos (show p.less (p.compare x y) = true from hxy), if_pos hxy, Nat.add_zero]
      · rw [if_neg (show ¬ p.less (p.compare x y) = true from hxy), if_neg hxy]
        omega

/-! ## The outputs -/

/-- What has been written: the runs went to the outputs in turn, and `kout` has the key of the
last record of the current one. -/
inductive Twoway.Dealt (p : SortParams ρ κ) (t : Twoway ρ) : Prop
  | fresh (hcount : t.runCount = 0) (hkout : t.kout = none) (hfout1 : t.fout1 = none)
      (hfout2 : t.fout2 = none) (h0 : t.outs 0 = []) (h1 : t.outs 1 = [])
  | dealing (k z : ρ) (hcount : 1 ≤ t.runCount) (hkout : t.kout = some k)
      (hfout1 : t.fout1 = some ((t.runCount - 1) % 2))
      (hfout2 : t.fout2 = if t.runCount = 1 then none else some (t.runCount % 2))
      (hlast : (t.outs ((t.runCount - 1) % 2)).getLast? = some z) (hkey : p.key z = p.key k)
      (hruns0 : runsOf p.Less (t.outs 0) ≤ (t.runCount + 1) / 2)
      (hruns1 : runsOf p.Less (t.outs 1) ≤ t.runCount / 2)
      (hempty : t.runCount = 1 → t.outs 1 = []) (hfull : 2 ≤ t.runCount → t.outs 1 ≠ [])
      (hfirst : t.outs 0 ≠ [])

/-- A record of the key `ktmp` goes on with the current run. -/
def Twoway.GoesOn (p : SortParams ρ κ) (t : Twoway ρ) (ktmp : ρ) : Prop :=
  ∃ k, t.kout = some k ∧ p.Less k ktmp

theorem Twoway.choose_goesOn {t : Twoway ρ} {ktmp : ρ} (two : Bool) (h : t.GoesOn p ktmp) :
    t.choose p two ktmp = t := by
  obtain ⟨k, hk, hless⟩ := h
  rw [Twoway.choose, hk]
  exact if_pos hless

theorem Twoway.choose_new {t : Twoway ρ} {ktmp : ρ} (two : Bool) (h : ¬ t.GoesOn p ktmp) :
    t.choose p two ktmp = t.newRun two := by
  rw [Twoway.choose]
  cases hk : t.kout with
  | none => rfl
  | some k => exact if_neg fun hless => h ⟨k, hk, hless⟩

/-- What one record more changes. -/
structure Twoway.Wrote (p : SortParams ρ κ) (t t' : Twoway ρ) (z : ρ) : Prop where
  in1 : t'.in1 = t.in1
  in2 : t'.in2 = t.in2
  outs : (t'.outs 0 ++ t'.outs 1).Perm (z :: (t.outs 0 ++ t.outs 1))
  dealt : ∀ k in1 in2, p.key k = p.key z →
    Twoway.Dealt p { t' with in1 := in1, in2 := in2, kout := some k }

theorem perm_update (outs : Nat → List ρ) {c : Nat} (hc : c < 2) (z : ρ) :
    (Function.update outs c (outs c ++ [z]) 0 ++ Function.update outs c (outs c ++ [z]) 1).Perm
      (z :: (outs 0 ++ outs 1)) := by
  obtain rfl | rfl : c = 0 ∨ c = 1 := by omega
  · rw [Function.update_self, Function.update_of_ne (by omega), List.append_assoc]
    exact List.perm_middle
  · rw [Function.update_self, Function.update_of_ne (by omega), ← List.append_assoc]
    exact List.perm_append_comm

/-- The record goes behind the last one of its run. -/
theorem Twoway.Dealt.write_on {t : Twoway ρ} (h : t.Dealt p) {ktmp z : ρ} (two : Bool)
    (hz : p.key z = p.key ktmp) (hgo : t.GoesOn p ktmp) :
    ∃ t', (t.choose p two ktmp).write z = .ok t' ∧ t'.runCount = t.runCount ∧ t.Wrote p t' z := by
  rw [Twoway.choose_goesOn two hgo]
  obtain ⟨k, hk, hless⟩ := hgo
  cases h with
  | fresh _ hkout => simp [hkout] at hk
  | dealing k' w hcount hkout hfout1 hfout2 hlast hkey hruns0 hruns1 hempty hfull hfirst =>
      obtain rfl : k' = k := Option.some.inj (hkout.symm.trans hk)
      have hc : (t.runCount - 1) % 2 < 2 := Nat.mod_lt _ (by omega)
      have hne : t.outs ((t.runCount - 1) % 2) ≠ [] := by
        intro hnil
        simp [hnil] at hlast
      have hruns : runsOf p.Less (t.outs ((t.runCount - 1) % 2) ++ [z]) =
          runsOf p.Less (t.outs ((t.runCount - 1) % 2)) := by
        refine runsOf_append_of hne fun y hy => ?_
        obtain rfl := Option.some.inj (hlast.symm.trans hy)
        exact (less_congr hkey hz).mpr hless
      rw [Twoway.write, hfout1]
      refine ⟨_, rfl, rfl, rfl, rfl, perm_update t.outs hc z, fun k in1 in2 hk => ?_⟩
      refine .dealing k z hcount rfl rfl hfout2 (by simp) hk.symm ?_ ?_ (fun h1 => ?_) (fun h2 => ?_) ?_
      all_goals dsimp only
      · by_cases hc0 : (t.runCount - 1) % 2 = 0
        · rw [hc0] at hruns ⊢
          rwa [Function.update_self, hruns]
        · rwa [Function.update_of_ne (Ne.symm hc0)]
      · by_cases hc1 : (t.runCount - 1) % 2 = 1
        · rw [hc1] at hruns ⊢
          rwa [Function.update_self, hruns]
        · rwa [Function.update_of_ne (Ne.symm hc1)]
      · rw [Function.update_of_ne (by rw [h1]; decide)]
        exact hempty h1
      · rw [Function.update_apply]
        split
        · simp
        · exact hfull h2
      · rw [Function.update_apply]
        split
        · simp
        · exact hfirst

/-- The record starts a run in the other output. -/
theorem Twoway.Dealt.write_new {t : Twoway ρ} (h : t.Dealt p) {ktmp z : ρ} (two : Bool)
    (hnew : ¬ t.GoesOn p ktmp) (htwo : two = false → t.runCount = 0)
    (hfew : t.runCount + 1 < 2 ^ 32) :
    ∃ t', (t.choose p two ktmp).write z = .ok t' ∧ t'.runCount = t.runCount + 1 ∧
      t.Wrote p t' z := by
  have hcounted : (t.runCount + 1) % 2 ^ 32 = t.runCount + 1 := Nat.mod_eq_of_lt hfew
  rw [Twoway.choose_new two hnew]
  cases h with
  | fresh hcount hkout hfout1 hfout2 h0 h1 =>
      rw [Twoway.newRun, Twoway.write, hfout1, hfout2, hcounted]
      dsimp only
      refine ⟨_, rfl, rfl, rfl, rfl, perm_update (c := 0) t.outs (by omega) z, fun k in1 in2 hk => ?_⟩
      refine .dealing k z (by simp) rfl (by simp [hcount]) (by simp [hcount]) (by simp [hcount]) hk.symm
        ?_ ?_ (fun _ => ?_) (fun h2 => ?_) ?_
      all_goals dsimp only
      · simp [hcount, h0, runsOf]
      · simp [h1, runsOf]
      · rw [Function.update_of_ne (by omega), h1]
      · simp [hcount] at h2
      · simp
  | dealing k w hcount hkout hfout1 hfout2 hlast hkey hruns0 hruns1 hempty hfull hfirst =>
      have htwo' : two = true := by
        cases two
        · have := htwo rfl
          omega
        · rfl
      have hc : t.runCount % 2 < 2 := Nat.mod_lt _ (by omega)
      have hrun : (t.newRun two).write z = .ok { t with
          outs := Function.update t.outs (t.runCount % 2) (t.outs (t.runCount % 2) ++ [z])
          fout1 := some (t.runCount % 2), fout2 := t.fout1, runCount := t.runCount + 1 } := by
        rw [Twoway.newRun, Twoway.write, hfout2, htwo', hcounted]
        by_cases hone : t.runCount = 1
        · simp [hone, hfout1]
        · simp [hone]
      rw [hrun]
      refine ⟨_, rfl, rfl, rfl, rfl, perm_update t.outs hc z, fun k in1 in2 hk => ?_⟩
      refine .dealing k z (by simp) rfl (by simp) ?_ (by simp) hk.symm ?_ ?_ (fun h1 => ?_) (fun _ => ?_) ?_
      all_goals dsimp only
      · rw [if_neg (by omega), hfout1]
        congr 1
        omega
      · have := runsOf_append_le (r := p.Less) (t.outs 0) z
        by_cases heven : t.runCount % 2 = 0
        · rw [heven, Function.update_self]
          omega
        · rw [Function.update_of_ne (Ne.symm heven)]
          omega
      · have := runsOf_append_le (r := p.Less) (t.outs 1) z
        by_cases hodd : t.runCount % 2 = 1
        · rw [hodd, Function.update_self]
          omega
        · rw [Function.update_of_ne (Ne.symm hodd)]
          omega
      · dsimp only at h1
        omega
      · rw [Function.update_apply]
        split
        · simp
        · exact hfull (by omega)
      · rw [Function.update_apply]
        split
        · simp
        · exact hfirst

/-! ## A turn -/

/-- Which record `comp` selects, and that it may go before the others of the current runs. -/
inductive Twoway.Selects (p : SortParams ρ κ) (t : Twoway ρ) : Ordering → ρ → Prop
  | first {comp x} (hx : t.in1.kin = some x) (hrun : t.in1.run = true)
      (hcomp : p.less comp = true) (hbefore : t.in2.run = true → ∀ y ∈ t.in2.kin, p.Less x y) :
      Selects p t comp x
  | both {x} (y : ρ) (hx : t.in1.kin = some x) (hy : t.in2.kin = some y) (hrun1 : t.in1.run = true)
      (hrun2 : t.in2.run = true) (hunify : p.unify = true) (hkey : p.key x = p.key y) :
      Selects p t .eq x
  | second {y} (hy : t.in2.kin = some y) (hrun : t.in2.run = true)
      (hbefore : t.in1.run = true → ∀ x ∈ t.in1.kin, p.Less y x) : Selects p t .gt y

theorem Twoway.comp_ok {t : Twoway ρ} (h1 : t.in1.Sound) (h2 : t.in2.Sound)
    (hrun : t.in1.run = true ∨ t.in2.run = true) :
    ∃ comp ktmp, t.comp p = .ok comp ∧
      keyOf (if comp ≠ .gt then t.in1.kin else t.in2.kin) = .ok ktmp ∧ t.Selects p comp ktmp := by
  rw [Twoway.comp]
  by_cases hrun1 : t.in1.run = true
  · obtain ⟨x, hx⟩ := h1.exists_kin hrun1
    by_cases hrun2 : t.in2.run = true
    · obtain ⟨y, hy⟩ := h2.exists_kin hrun2
      simp only [hrun1, hrun2, Bool.not_true, Bool.false_eq_true, if_false, hx, hy, keyOf]
      dsimp only [bind, Except.bind, pure, Except.pure]
      by_cases hgt : p.compare x y = .gt
      · refine ⟨_, y, rfl, by rw [if_neg fun h => h hgt], ?_⟩
        rw [hgt]
        refine .second hy hrun2 fun _ z hz => ?_
        obtain rfl := Option.some.inj (hx.symm.trans hz)
        have hlt := (compare_gt_iff p x y).mp hgt
        rw [less_iff]
        split
        · exact hlt
        · exact hlt.le
      · refine ⟨_, x, rfl, by rw [if_pos hgt], ?_⟩
        by_cases hless : p.less (p.compare x y) = true
        · refine .first hx hrun1 hless fun _ z hz => ?_
          obtain rfl := Option.some.inj (hy.symm.trans hz)
          exact hless
        · have hunify : p.unify = true := by
            by_contra hplain
            simp [SortParams.less, hplain, hgt] at hless
          have heq : p.compare x y = .eq := by
            cases hc : p.compare x y with
            | lt => simp [SortParams.less, hunify, hc] at hless
            | eq => rfl
            | gt => exact absurd hc hgt
          rw [heq]
          exact .both y hx hy hrun1 hrun2 hunify ((compare_eq_iff p x y).mp heq)
    · simp only [hrun1, hrun2, Bool.not_true, Bool.false_eq_true, if_false, Bool.not_false, if_true]
      refine ⟨_, x, rfl, by rw [if_pos (by decide), hx, keyOf], .first hx hrun1 ?_ fun h => ?_⟩
      · rw [SortParams.less]
        split <;> rfl
      · exact absurd h hrun2
  · have hrun2 : t.in2.run = true := hrun.resolve_left hrun1
    obtain ⟨y, hy⟩ := h2.exists_kin hrun2
    simp only [hrun1, Bool.not_false, if_true]
    exact ⟨_, y, rfl, by rw [if_neg (by decide), hy, keyOf], .second hy hrun2 fun h => absurd h hrun1⟩

variable {M : Type} [AddCommMonoid M] {weight : ρ → M}

/-- What `write_merged` is for: a record of the same key that has the total of those it is
made of. -/
def SortParams.Joins (p : SortParams ρ κ) (weight : ρ → M) : Prop :=
  p.unify = true → ∀ k (g : List ρ), 2 ≤ g.length → (∀ x ∈ g, p.key x = k) →
    p.key (p.merged g) = k ∧ weight (p.merged g) = (g.map weight).sum

/-- The state after a record has been written and the next one read. -/
structure Twoway.Copied (p : SortParams ρ κ) (weight : ρ → M) (limit : Nat) (ins : List ρ)
    (t : Twoway ρ) : Prop where
  in1 : t.in1.Sound
  in2 : t.in2.Sound
  dealt : t.Dealt p
  gathers : Gathers p.key weight ins (t.outs 0 ++ t.outs 1 ++ (t.in1.pending ++ t.in2.pending))
  order : ∃ k, t.kout = some k ∧ (t.in1.run = true → ∀ x ∈ t.in1.kin, p.Less k x) ∧
    (t.in2.run = true → ∀ y ∈ t.in2.kin, p.Less k y)
  runs : t.runCount + max (t.in1.later p) (t.in2.later p) ≤ limit

/-- The state between two turns: either the runs of both inputs have just begun, or they are
being merged and none of their records comes before `kout`. -/
structure Twoway.Passing (p : SortParams ρ κ) (weight : ρ → M) (limit : Nat) (ins : List ρ)
    (t : Twoway ρ) : Prop where
  in1 : t.in1.Sound
  in2 : t.in2.Sound
  dealt : t.Dealt p
  gathers : Gathers p.key weight ins (t.outs 0 ++ t.outs 1 ++ (t.in1.pending ++ t.in2.pending))
  phase : (t.in1.run = t.in1.next ∧ t.in2.run = t.in2.next ∧
      t.runCount + max (runsOf p.Less t.in1.pending) (runsOf p.Less t.in2.pending) ≤ limit) ∨
    ((t.in1.run = true ∨ t.in2.run = true) ∧
      (∃ k, t.kout = some k ∧ (t.in1.run = true → ∀ x ∈ t.in1.kin, p.Less k x) ∧
        (t.in2.run = true → ∀ y ∈ t.in2.kin, p.Less k y)) ∧
      t.runCount + max (t.in1.later p) (t.in2.later p) ≤ limit)

theorem Twoway.Copied.nextRuns {limit : Nat} {ins : List ρ} {t : Twoway ρ}
    (h : t.Copied p weight limit ins) : t.nextRuns.Passing p weight limit ins ∧
      t.nextRuns.in1.pending = t.in1.pending ∧ t.nextRuns.in2.pending = t.in2.pending := by
  rw [Twoway.nextRuns]
  split
  · next hend =>
      simp only [Bool.not_eq_true'] at hend
      have hruns : t.runCount + max (runsOf p.Less t.in1.pending) (runsOf p.Less t.in2.pending) ≤
          limit := by
        have hlater := h.runs
        rw [Inflow.later, Inflow.later, hend.1, hend.2] at hlater
        simpa using hlater
      refine ⟨⟨⟨h.in1.next, fun h => h, h.in1.drained⟩, ⟨h.in2.next, fun h => h, h.in2.drained⟩, ?_,
        h.gathers, .inl ⟨rfl, rfl, hruns⟩⟩, rfl, rfl⟩
      cases h.dealt with
      | fresh hcount hkout hfout1 hfout2 h0 h1 => exact .fresh hcount hkout hfout1 hfout2 h0 h1
      | dealing k z hcount hkout hfout1 hfout2 hlast hkey hruns0 hruns1 hempty hfull hfirst =>
          exact .dealing k z hcount hkout hfout1 hfout2 hlast hkey hruns0 hruns1 hempty hfull hfirst
  · next hgoes =>
      refine ⟨⟨h.in1, h.in2, h.dealt, h.gathers, .inr ⟨?_, h.order, h.runs⟩⟩, rfl, rfl⟩
      by_contra hnone
      exact hgoes (by simpa using hnone)

/-- The selected record goes out. -/
theorem Twoway.copy_ok {limit : Nat} {ins : List ρ} {t t' : Twoway ρ} {comp : Ordering} {ktmp : ρ}
    (hjoins : p.Joins weight) (hin1 : t.in1.Sound) (hin2 : t.in2.Sound)
    (hgathers : Gathers p.key weight ins
      (t.outs 0 ++ t.outs 1 ++ (t.in1.pending ++ t.in2.pending)))
    (hselects : t.Selects p comp ktmp) (h' : t'.in1 = t.in1) (h'' : t'.in2 = t.in2)
    (hwrite : ∀ z, p.key z = p.key ktmp → ∃ u, t'.write z = .ok u ∧
      u.runCount + max (t.in1.later p) (t.in2.later p) ≤ limit ∧ t.Wrote p u z) :
    ∃ u, t'.copy p comp = .ok u ∧ u.Copied p weight limit ins ∧
      u.in1.pending.length + u.in2.pending.length < t.in1.pending.length + t.in2.pending.length := by
  cases hselects with
  | @first comp x hx hrun hcomp hbefore =>
      obtain ⟨u, hu, hruns, hwrote⟩ := hwrite ktmp rfl
      obtain ⟨hsound, hpending, horder⟩ := Inflow.advance_sound p ktmp t.in1
      have hlater := Inflow.later_advance (p := p) hx hrun
      have hpend := Inflow.Sound.pending_eq hx
      rw [Twoway.copy, if_pos hcomp, h', hx, keyOf]
      dsimp only [bind, Except.bind]
      rw [hu]
      dsimp only [pure, Except.pure]
      rw [hwrote.in1]
      refine ⟨_, rfl, ⟨hsound, hwrote.in2 ▸ hin2, hwrote.dealt _ _ _ rfl, ?_, ⟨ktmp, rfl, horder, ?_⟩, ?_⟩, ?_⟩
      all_goals dsimp only
      · rw [hpend] at hgathers
        rw [hpending, hwrote.in2]
        refine hgathers.trans (.of_perm ?_)
        exact List.perm_middle.trans (hwrote.outs.symm.append_right (t.in1.fin ++ t.in2.pending))
      · rw [hwrote.in2]
        exact hbefore
      · rw [hlater, hwrote.in2]
        exact hruns
      · rw [hpending, hwrote.in2, hpend, List.length_cons]
        omega
  | both y hx hy hrun1 hrun2 hunify hkey =>
      have hkeys : ∀ w ∈ [ktmp, y], p.key w = p.key ktmp := by simp [hkey]
      obtain ⟨hmkey, hmweight⟩ := hjoins hunify (p.key ktmp) [ktmp, y] le_rfl hkeys
      obtain ⟨u, hu, hruns, hwrote⟩ := hwrite (p.merged [ktmp, y]) hmkey
      obtain ⟨hsound1, hpending1, horder1⟩ := Inflow.advance_sound p ktmp t.in1
      obtain ⟨hsound2, hpending2, horder2⟩ := Inflow.advance_sound p y t.in2
      have hnot : ¬ p.less .eq = true := by simp [SortParams.less, hunify]
      have hkin1 : keyOf t'.in1.kin = .ok ktmp := by rw [h', hx, keyOf]
      have hkin2 : keyOf t'.in2.kin = .ok y := by rw [h'', hy, keyOf]
      rw [Twoway.copy, if_neg hnot, if_pos ⟨hunify, rfl⟩, hkin1, hkin2]
      dsimp only [bind, Except.bind]
      rw [hu]
      dsimp only [pure, Except.pure]
      rw [hwrote.in1, hwrote.in2]
      refine ⟨_, rfl, ⟨hsound1, hsound2, hwrote.dealt _ _ _ (hkey.symm.trans hmkey.symm), ?_,
        ⟨y, rfl, fun h z hz => ?_, horder2⟩, ?_⟩, ?_⟩
      · dsimp only
        rw [Inflow.Sound.pending_eq hx, Inflow.Sound.pending_eq hy] at hgathers
        rw [hpending1, hpending2]
        have hpair : (t.outs 0 ++ t.outs 1 ++ (ktmp :: t.in1.fin ++ y :: t.in2.fin)).Perm
            ([ktmp, y] ++ (t.outs 0 ++ t.outs 1) ++ (t.in1.fin ++ t.in2.fin)) := by
          have hinner : (ktmp :: t.in1.fin ++ y :: t.in2.fin).Perm
              ([ktmp, y] ++ (t.in1.fin ++ t.in2.fin)) := List.perm_middle.cons ktmp
          rw [List.append_assoc [ktmp, y]]
          exact (hinner.append_left _).trans (List.perm_append_comm_assoc _ _ _)
        refine (hgathers.trans (.of_perm hpair)).trans (.append (.trans ?_ (.of_perm hwrote.outs.symm)) (.refl _))
        exact (Gathers.join (List.cons_ne_nil _ _) hkeys hmkey hmweight).append (.refl _)
      · exact (less_congr hkey rfl).mp (horder1 h z hz)
      · dsimp only
        rw [Inflow.later_advance hx hrun1, Inflow.later_advance hy hrun2]
        exact hruns
      · dsimp only
        rw [hpending1, hpending2, Inflow.Sound.pending_eq hx, Inflow.Sound.pending_eq hy,
          List.length_cons, List.length_cons]
        omega
  | second hy hrun hbefore =>
      obtain ⟨u, hu, hruns, hwrote⟩ := hwrite ktmp rfl
      obtain ⟨hsound, hpending, horder⟩ := Inflow.advance_sound p ktmp t.in2
      have hlater := Inflow.later_advance (p := p) hy hrun
      have hpend := Inflow.Sound.pending_eq hy
      have hnot : ¬ p.less .gt = true := by
        rw [SortParams.less]
        split <;> decide
      rw [Twoway.copy, if_neg hnot, if_neg (fun h => by cases h.2), h'', hy, keyOf]
      dsimp only [bind, Except.bind]
      rw [hu]
      dsimp only [pure, Except.pure]
      rw [hwrote.in2]
      refine ⟨_, rfl, ⟨hwrote.in1 ▸ hin1, hsound, hwrote.dealt _ _ _ rfl, ?_, ⟨ktmp, rfl, ?_, horder⟩, ?_⟩, ?_⟩
      all_goals dsimp only
      · rw [hpend] at hgathers
        rw [hpending, hwrote.in1]
        refine hgathers.trans (.of_perm ?_)
        rw [← List.append_assoc]
        refine List.perm_middle.trans ?_
        rw [List.append_assoc (t.outs 0 ++ t.outs 1)]
        exact (hwrote.outs.symm).append_right (t.in1.pending ++ t.in2.fin)
      · rw [hwrote.in1]
        exact hbefore
      · rw [hlater, hwrote.in1]
        exact hruns
      · rw [hpending, hwrote.in1, hpend, List.length_cons]
        omega

theorem twowayTurn_ok {limit : Nat} {ins : List ρ} {t : Twoway ρ} {two : Bool}
    (hjoins : p.Joins weight) (htwo : two = false → limit ≤ 1) (hfew : limit < 2 ^ 32)
    (h : t.Passing p weight limit ins) (hnext : t.in1.next = true ∨ t.in2.next = true) :
    ∃ u, twowayTurn p two t = .ok u ∧ u.Passing p weight limit ins ∧
      u.in1.pending.length + u.in2.pending.length < t.in1.pending.length + t.in2.pending.length := by
  have hrun : t.in1.run = true ∨ t.in2.run = true := by
    rcases h.phase with ⟨h1, h2, -⟩ | ⟨hrun, -⟩
    · rwa [h1, h2]
    · exact hrun
  obtain ⟨comp, ktmp, hcomp, hktmp, hselects⟩ :=
    Twoway.comp_ok (p := p) h.in1 h.in2 hrun
  -- at most the first record of a pair of runs starts a run of the output
  have hwrite : ∀ z, p.key z = p.key ktmp → ∃ u, (t.choose p two ktmp).write z = .ok u ∧
      u.runCount + max (t.in1.later p) (t.in2.later p) ≤ limit ∧ t.Wrote p u z := by
    intro z hz
    rcases h.phase with ⟨h1, h2, hlimit⟩ | ⟨-, ⟨k, hk, hk1, hk2⟩, hlimit⟩
    · have hbegun : max (t.in1.later p) (t.in2.later p) + 1 =
          max (runsOf p.Less t.in1.pending) (runsOf p.Less t.in2.pending) := by
        have hlater : ∀ i : Inflow ρ, i.Sound → i.run = i.next →
            i.later p = runsOf p.Less i.pending - 1 ∧ (i.next = true → 0 < runsOf p.Less i.pending) := by
          intro i hi hin
          rw [Inflow.later]
          cases hn : i.next with
          | false => rw [hin, hn, (hi.pending_nil).mpr hn]; simp [runsOf]
          | true =>
              rw [hin, hn, if_pos rfl]
              refine ⟨rfl, fun _ => runsOf_pos fun hnil => ?_⟩
              rw [(hi.pending_nil).mp hnil] at hn
              cases hn
        obtain ⟨hl1, hpos1⟩ := hlater _ h.in1 h1
        obtain ⟨hl2, hpos2⟩ := hlater _ h.in2 h2
        rcases hnext with hn | hn
        · have := hpos1 hn
          omega
        · have := hpos2 hn
          omega
      by_cases hgo : t.GoesOn p ktmp
      · obtain ⟨u, hu, hcount, hwrote⟩ := h.dealt.write_on two hz hgo
        exact ⟨u, hu, by omega, hwrote⟩
      · have hfirst : two = false → t.runCount = 0 := fun hone => by
          have := htwo hone
          omega
        obtain ⟨u, hu, hcount, hwrote⟩ := h.dealt.write_new (z := z) two hgo hfirst (by omega)
        exact ⟨u, hu, by omega, hwrote⟩
    · have hgo : t.GoesOn p ktmp := by
        refine ⟨k, hk, ?_⟩
        cases hselects with
        | first hx hrun => exact hk1 hrun _ hx
        | both y hx hy hrun1 => exact hk1 hrun1 _ hx
        | second hy hrun => exact hk2 hrun _ hy
      obtain ⟨u, hu, hcount, hwrote⟩ := h.dealt.write_on two hz hgo
      exact ⟨u, hu, by omega, hwrote⟩
  have hsides : (t.choose p two ktmp).in1 = t.in1 ∧ (t.choose p two ktmp).in2 = t.in2 := by
    by_cases hgo : t.GoesOn p ktmp
    · rw [Twoway.choose_goesOn two hgo]
      exact ⟨rfl, rfl⟩
    · rw [Twoway.choose_new two hgo]
      exact ⟨rfl, rfl⟩
  obtain ⟨u, hu, hcopied, hless⟩ :=
    Twoway.copy_ok hjoins h.in1 h.in2 h.gathers hselects hsides.1 hsides.2 hwrite
  obtain ⟨hpassing, hp1, hp2⟩ := hcopied.nextRuns
  refine ⟨u.nextRuns, ?_, hpassing, by rwa [hp1, hp2]⟩
  rw [twowayTurn, hcomp]
  dsimp only [bind, Except.bind]
  rw [hktmp]
  dsimp only
  rw [hu]
  rfl

theorem twowayLoop_ok {limit : Nat} {ins : List ρ} {two : Bool} (hjoins : p.Joins weight)
    (htwo : two = false → limit ≤ 1) (hfew : limit < 2 ^ 32) (fuel : Nat) {t : Twoway ρ}
    (h : t.Passing p weight limit ins)
    (hfuel : t.in1.pending.length + t.in2.pending.length < fuel) :
    ∃ u, twowayLoop p two fuel t = .ok u ∧ u.Passing p weight limit ins ∧
      u.in1.pending = [] ∧ u.in2.pending = [] := by
  induction fuel generalizing t with
  | zero => omega
  | succ fuel ih =>
      rw [twowayLoop]
      by_cases hnext : t.in1.next = true ∨ t.in2.next = true
      · obtain ⟨u, hu, hpassing, hless⟩ := twowayTurn_ok hjoins htwo hfew h hnext
        rw [if_pos hnext, hu]
        exact ih hpassing (by omega)
      · rw [not_or, Bool.not_eq_true, Bool.not_eq_true] at hnext
        rw [if_neg (by simp [hnext])]
        exact ⟨t, rfl, h, h.in1.pending_nil.mpr hnext.1, h.in2.pending_nil.mpr hnext.2⟩

/-- What a pass leaves: the records of its inputs in two outputs, `runs` runs dealt out. -/
structure Dealing (p : SortParams ρ κ) (weight : ρ → M) (ins : List ρ) (runs : Nat)
    (r : TwowayResult ρ) : Prop where
  gathers : Gathers p.key weight ins (r.out0 ++ r.out1)
  runs0 : runsOf p.Less r.out0 ≤ r.runs0
  runs1 : runsOf p.Less r.out1 ≤ r.runs1
  count0 : r.runs0 = (runs + 1) / 2
  count1 : r.runs1 = runs / 2
  empty0 : r.out0 = [] ↔ runs = 0
  empty1 : r.out1 = [] ↔ runs ≤ 1

/-- A pass over any two inputs whose runs can be counted: nothing is lost, and there are no more
runs in its outputs than in the input that has more of them. -/
theorem twowayMerge_deals (hjoins : p.Joins weight) (ins0 ins1 : List ρ) (two : Bool)
    (htwo : two = false → max (runsOf p.Less ins0) (runsOf p.Less ins1) ≤ 1)
    (hfew : max (runsOf p.Less ins0) (runsOf p.Less ins1) + 1 < 2 ^ 32) :
    ∃ r runs, twowayMerge p ins0 ins1 two = .ok r ∧ Dealing p weight (ins0 ++ ins1) runs r ∧
      runs ≤ max (runsOf p.Less ins0) (runsOf p.Less ins1) := by
  obtain ⟨hsound0, hpending0, hrun0⟩ := Inflow.start_sound ins0
  obtain ⟨hsound1, hpending1, hrun1⟩ := Inflow.start_sound ins1
  have hstart : Twoway.Passing p weight (max (runsOf p.Less ins0) (runsOf p.Less ins1)) (ins0 ++ ins1)
      ⟨.start ins0, .start ins1, none, none, none, fun _ => [], 0⟩ := by
    refine ⟨hsound0, hsound1, .fresh rfl rfl rfl rfl rfl rfl, ?_, .inl ⟨hrun0, hrun1, ?_⟩⟩
    · rw [hpending0, hpending1]
      exact .refl _
    · rw [hpending0, hpending1]
      exact (Nat.zero_add _).le
  obtain ⟨t, hrun, hpassing, hend0, hend1⟩ := twowayLoop_ok hjoins htwo
    (by omega) (ins0.length + ins1.length + 1) hstart (by rw [hpending0, hpending1]; omega)
  have hgathers := hpassing.gathers
  rw [hend0, hend1, List.append_nil, List.append_nil] at hgathers
  have hcount : t.runCount ≤ max (runsOf p.Less ins0) (runsOf p.Less ins1) := by
    rcases hpassing.phase with ⟨-, -, hlimit⟩ | ⟨-, -, hlimit⟩ <;> omega
  have hcounted : (t.runCount + 1) % 2 ^ 32 = t.runCount + 1 := Nat.mod_eq_of_lt (by omega)
  refine ⟨_, t.runCount, by rw [twowayMerge, hrun]; rfl, ?_, hcount⟩
  · cases hpassing.dealt with
    | fresh hcount hkout hfout1 hfout2 h0 h1 =>
        refine ⟨hgathers, ?_, ?_, ?_, ?_, ?_, ?_⟩ <;>
          simp [hcount, hfout1, hfout2, h0, h1, runsOf]
    | dealing k z hcount hkout hfout1 hfout2 hlast hkey hruns0 hruns1 hempty hfull hfirst =>
        have hother : (if t.fout2.isSome ∧ t.fout2 ≠ t.fout1 then t.runCount / 2 else 0) =
            t.runCount / 2 := by
          by_cases hone : t.runCount = 1
          · simp [hfout2, hone]
          · rw [hfout2, hfout1, if_neg hone]
            exact if_pos ⟨rfl, fun h => by
              have := Option.some.inj h
              omega⟩
        refine ⟨hgathers, ?_, ?_, ?_, ?_, ?_, ?_⟩
        all_goals dsimp only
        · rwa [hfout1, Option.isSome_some, if_pos rfl, hcounted]
        · rwa [hother]
        · rw [hfout1, Option.isSome_some, if_pos rfl, hcounted]
        · exact hother
        · exact ⟨fun h => absurd h hfirst, fun h => by omega⟩
        · refine ⟨fun h => ?_, fun h => hempty (by omega)⟩
          by_contra hmany
          exact hfull (by omega) h

theorem wordCounts_joins : wordCounts.Joins Prod.snd := by
  refine fun _ k g hg hk => ⟨wordCounts_keepsKey k g hg hk, rfl⟩

theorem twowayMerge_deals_counts :
    ∃ r runs, twowayMerge wordCounts [(1, 2), (3, 5), (2, 1)] [(1, 4)] true = .ok r ∧
      Dealing wordCounts Prod.snd ([(1, 2), (3, 5), (2, 1)] ++ [(1, 4)]) runs r ∧
      runs ≤ max (runsOf wordCounts.Less [(1, 2), (3, 5), (2, 1)])
        (runsOf wordCounts.Less [(1, 4)]) :=
  twowayMerge_deals wordCounts_joins _ _ _ (by decide) (by decide)

end OpenAAA.Sorter
