import OpenAAA.Lib.Merging

/-!
`generic/sorter/s-multiway.h`: the merge of many sorted streams by a tournament. A stream
is the list of the records that are still to be read, a record its key together with the
data behind it, as `copy_data` copies them.
-/

namespace OpenAAA.Sorter

open Merging

inductive MergeFault where
  | uninitialised
  | outOfRange
  | stuck
deriving DecidableEq

/-- What the including file says: the order of its records, and with `SORT_UNIFY` how
`copy_merged` writes records of one key as one. -/
structure SortParams (ρ κ : Type) where
  key : ρ → κ
  unify : Bool
  merged : List ρ → ρ

/-- `struct mwt` -/
structure Mwt where
  i : Int
  eq : Bool
deriving DecidableEq

variable {ρ κ : Type} [LinearOrder κ]

/-- The sign of `compare`. -/
def SortParams.compare (p : SortParams ρ κ) (x y : ρ) : Ordering := cmp (p.key x) (p.key y)

/-- `keys[t.i]` -/
def keyAt (keys : Nat → Option ρ) (t : Mwt) : Except MergeFault ρ :=
  match keys t.i.toNat with
  | some x => .ok x
  | none => .error .uninitialised

/-- The value of an internal vertex. -/
def lowest (p : SortParams ρ κ) (keys : Nat → Option ρ) (left right : Mwt) :
    Except MergeFault Mwt :=
  if left.i < 0 then .ok right
  else if right.i < 0 then .ok left
  else do
    let x ← keyAt keys left
    let y ← keyAt keys right
    let t := if p.compare x y = .gt then right else left
    pure (if p.unify ∧ p.compare x y = .eq then { t with eq := true } else t)

/-- `update_tree`, with the number of vertices it may look at. -/
def updateTree (p : SortParams ρ κ) (keys : Nat → Option ρ) (size : Nat) :
    Nat → (Nat → Mwt) → Nat → Except MergeFault (Nat → Mwt)
  | 0, _, _ => .error .stuck
  | fuel + 1, tree, i =>
    if i / 2 = 0 then .ok tree
    else if size ≤ 2 * (i / 2) + 1 then .error .outOfRange
    else do
      let t ← lowest p keys (tree (2 * (i / 2))) (tree (2 * (i / 2) + 1))
      updateTree p keys size fuel (Function.update tree (i / 2) t) (i / 2)

/-- `tree[i].i = val` -/
def setIndex (tree : Nat → Mwt) (i : Nat) (val : Int) : Nat → Mwt :=
  Function.update tree i { tree i with i := val }

/-- `set_tree` -/
def setTree (p : SortParams ρ κ) (keys : Nat → Option ρ) (size : Nat) (tree : Nat → Mwt) (i : Nat)
    (val : Int) : Except MergeFault (Nat → Mwt) :=
  updateTree p keys size i (setIndex tree i val) i

/-- The variables of `multiway_merge`. -/
structure Multiway (ρ : Type) where
  fins : Nat → List ρ
  keys : Nat → Option ρ
  tree : Nat → Mwt
  fout : List ρ

/-- `read_key(fins[i], &keys[i])` -/
def Multiway.readKey (m : Multiway ρ) (i : Nat) : Bool × Multiway ρ :=
  match m.fins i with
  | [] => (false, m)
  | x :: rest => (true, { m with
      fins := Function.update m.fins i rest
      keys := Function.update m.keys i (some x) })

/-- The next key of a stream whose leaf is empty. -/
def enter (p : SortParams ρ κ) (n2 size i : Nat) (m : Multiway ρ) :
    Except MergeFault (Multiway ρ) :=
  match m.readKey i with
  | (false, m) => .ok m
  | (true, m) => do
    let tree ← setTree p m.keys size m.tree (n2 + i) i
    pure { m with tree := tree }

/-- The first keys of the streams from `i` on. -/
def firstKeys (p : SortParams ρ κ) (n2 size : Nat) :
    Nat → Nat → Multiway ρ → Except MergeFault (Multiway ρ)
  | 0, _, m => .ok m
  | left + 1, i, m => do
    let m ← enter p n2 size i m
    firstKeys p n2 size left (i + 1) m

/-- The turn for a unique key, the only one without `SORT_UNIFY`. -/
def copyTurn (p : SortParams ρ κ) (n2 size : Nat) (m : Multiway ρ) :
    Except MergeFault (Multiway ρ) := do
  let i := (m.tree 1).i.toNat
  let x ← keyAt m.keys (m.tree 1)
  let m := { m with fout := m.fout ++ [x] }
  let (more, m) := m.readKey i
  let tree := if more then m.tree else setIndex m.tree (n2 + i) (-1)
  let tree ← updateTree p m.keys size (n2 + i) tree (n2 + i)
  pure { m with tree := tree }

/-- The streams that hold `key`, from `i` on, taken out of the tree; `left` is what is free
of `hits`. -/
def collectHits (p : SortParams ρ κ) (keys : Nat → Option ρ) (n2 size : Nat) (key : ρ) :
    Nat → Nat → (Nat → Mwt) → Except MergeFault (List Nat × (Nat → Mwt))
  | 0, _, _ => .error .outOfRange
  | left + 1, i, tree => do
    let tree ← setTree p keys size tree (n2 + i) (-1)
    if (tree 1).i < 0 then pure ([i], tree)
    else do
      let y ← keyAt keys (tree 1)
      if p.compare key y = .eq then do
        let (hits, tree) ← collectHits p keys n2 size key left (tree 1).i.toNat tree
        pure (i :: hits, tree)
      else pure ([i], tree)

/-- The next keys of the streams in `hits`. -/
def refill (p : SortParams ρ κ) (n2 size : Nat) :
    List Nat → Multiway ρ → Except MergeFault (Multiway ρ)
  | [], m => .ok m
  | i :: hits, m => do
    let m ← enter p n2 size i m
    refill p n2 size hits m

/-- `*mkeys[j]` for the streams in `hits` -/
def hitKeys (keys : Nat → Option ρ) : List Nat → Except MergeFault (List ρ)
  | [] => .ok []
  | i :: hits =>
    match keys i with
    | none => .error .uninitialised
    | some x => do
      let xs ← hitKeys keys hits
      pure (x :: xs)

/-- The turn for a key that several streams may hold. -/
def mergeTurn (p : SortParams ρ κ) (numIns n2 size : Nat) (m : Multiway ρ) :
    Except MergeFault (Multiway ρ) := do
  let key ← keyAt m.keys (m.tree 1)
  let (hits, tree) ← collectHits p m.keys n2 size key numIns (m.tree 1).i.toNat m.tree
  let mkeys ← hitKeys m.keys hits
  refill p n2 size hits { m with tree := tree, fout := m.fout ++ [p.merged mkeys] }

def turn (p : SortParams ρ κ) (numIns n2 size : Nat) (m : Multiway ρ) :
    Except MergeFault (Multiway ρ) :=
  if p.unify ∧ (m.tree 1).eq then mergeTurn p numIns n2 size m else copyTurn p n2 size m

def mergeLoop (p : SortParams ρ κ) (numIns n2 size : Nat) :
    Nat → Multiway ρ → Except MergeFault (Multiway ρ)
  | 0, _ => .error .stuck
  | fuel + 1, m =>
    if (m.tree 1).i < 0 then .ok m
    else do
      let m ← turn p numIns n2 size m
      mergeLoop p numIns n2 size fuel m

/-- `while (n2 < num_ins) n2 *= 2;` on an `uns` -/
def leafCount (numIns : Nat) : Nat → Nat → Except MergeFault Nat
  | 0, _ => .error .stuck
  | fuel + 1, n2 => if n2 < numIns then leafCount numIns fuel (2 * n2 % 2 ^ 32) else .ok n2

/-- `multiway_merge`: what is written to the output bucket. -/
def multiwayMerge (p : SortParams ρ κ) (ins : List (List ρ)) : Except MergeFault (List ρ) := do
  let numIns := ins.length
  let n2 ← leafCount numIns (numIns + 1) 1
  let size := 2 * n2 % 2 ^ 32
  let m ← firstKeys p n2 size numIns 0
    { fins := fun i => ins.getD i [], keys := fun _ => none, tree := fun _ => ⟨-1, false⟩, fout := [] }
  let m ← mergeLoop p numIns n2 size (ins.flatten.length + 1) m
  pure m.fout

/-! ## The tournament -/

section Tournament

variable {p : SortParams ρ κ} {s keys : Nat → Option ρ}

theorem compare_eq_iff (p : SortParams ρ κ) (x y : ρ) :
    p.compare x y = .eq ↔ p.key x = p.key y := cmp_eq_eq_iff _ _

theorem compare_gt_iff (p : SortParams ρ κ) (x y : ρ) :
    p.compare x y = .gt ↔ p.key y < p.key x := cmp_eq_gt_iff _ _

/-- `t` says who wins among the streams of `A`, whose next records are given by `s`. -/
def Winner (p : SortParams ρ κ) (s : Nat → Option ρ) (A : Nat → Prop) (t : Mwt) : Prop :=
  (t.i < 0 ∧ ∀ i, A i → s i = none) ∨
  ∃ (i : Nat) (x : ρ), t.i = i ∧ A i ∧ s i = some x ∧
    (∀ k, A k → ∀ y, s k = some y → p.key x ≤ p.key y ∧ (k < i → p.key x < p.key y)) ∧
    (p.unify = true →
      (t.eq = true ↔ ∃ k, A k ∧ k ≠ i ∧ ∃ y, s k = some y ∧ p.key y = p.key x))

theorem Winner.congr {A B : Nat → Prop} {t : Mwt} (hAB : ∀ i, A i ↔ B i) (h : Winner p s A t) :
    Winner p s B t := by
  rwa [← funext fun i => propext (hAB i)]

theorem Winner.agree {A : Nat → Prop} {t : Mwt} {s' : Nat → Option ρ} (h : Winner p s A t)
    (hs : ∀ i, A i → s' i = s i) : Winner p s' A t := by
  obtain ⟨hneg, hnone⟩ | ⟨i, x, hi, hA, hx, hleast, heq⟩ := h
  · exact .inl ⟨hneg, fun i hi => (hs i hi).trans (hnone i hi)⟩
  · refine .inr ⟨i, x, hi, hA, (hs i hA).trans hx, fun k hk y hy => hleast k hk y (hs k hk ▸ hy),
      fun hunify => (heq hunify).trans (exists_congr fun k => and_congr_right fun hk => ?_)⟩
    rw [hs k hk]

theorem Winner.keyAt {A : Nat → Prop} {t : Mwt} {i : Nat} {x : ρ}
    (hread : ∀ i, A i → ∀ x, s i = some x → keys i = some x) (ht : t.i = i) (hi : A i)
    (hx : s i = some x) : keyAt keys t = .ok x := by
  rw [Sorter.keyAt, ht, Int.toNat_natCast, hread i hi x hx]

/-- The winner of a vertex from those of its two children. -/
theorem Winner.lowest {A B : Nat → Prop} {a b : Mwt} (hAB : ∀ i k, A i → B k → i < k)
    (hread : ∀ i, A i ∨ B i → ∀ x, s i = some x → keys i = some x)
    (ha : Winner p s A a) (hb : Winner p s B b) :
    ∃ t, lowest p keys a b = .ok t ∧ Winner p s (fun i => A i ∨ B i) t := by
  obtain ⟨hneg, hnone⟩ | ⟨i, x, hi, hA, hx, hleast, heq⟩ := ha
  · refine ⟨b, if_pos hneg, ?_⟩
    obtain ⟨hneg', hnone'⟩ | ⟨k, y, hk, hB, hy, hleast', heq'⟩ := hb
    · exact .inl ⟨hneg', fun k hk => hk.elim (hnone k) (hnone' k)⟩
    · refine .inr ⟨k, y, hk, .inr hB, hy, fun l hl z hz => ?_, fun hunify => ?_⟩
      · rcases hl with hl | hl
        · simp [hnone l hl] at hz
        · exact hleast' l hl z hz
      · rw [heq' hunify]
        refine ⟨fun ⟨l, hl, htie⟩ => ⟨l, .inr hl, htie⟩, fun ⟨l, hl, hne, z, hz, htie⟩ => ?_⟩
        rcases hl with hl | hl
        · simp [hnone l hl] at hz
        · exact ⟨l, hl, hne, z, hz, htie⟩
  · have hpos : ¬ a.i < 0 := by omega
    obtain ⟨hneg', hnone'⟩ | ⟨k, y, hk, hB, hy, hleast', heq'⟩ := hb
    · refine ⟨a, by rw [Sorter.lowest, if_neg hpos, if_pos hneg'], .inr ⟨i, x, hi, .inl hA, hx,
        fun l hl z hz => ?_, fun hunify => ?_⟩⟩
      · rcases hl with hl | hl
        · exact hleast l hl z hz
        · simp [hnone' l hl] at hz
      · rw [heq hunify]
        refine ⟨fun ⟨l, hl, htie⟩ => ⟨l, .inl hl, htie⟩, fun ⟨l, hl, hne, z, hz, htie⟩ => ?_⟩
        rcases hl with hl | hl
        · exact ⟨l, hl, hne, z, hz, htie⟩
        · simp [hnone' l hl] at hz
    · have hpos' : ¬ b.i < 0 := by omega
      have hik : i < k := hAB i k hA hB
      rw [Sorter.lowest, if_neg hpos, if_neg hpos',
        Winner.keyAt (fun i hi => hread i (.inl hi)) hi hA hx,
        Winner.keyAt (fun i hi => hread i (.inr hi)) hk hB hy]
      refine ⟨_, rfl, .inr ?_⟩
      by_cases hgt : p.compare x y = .gt
      · have hlt := (compare_gt_iff p x y).mp hgt
        have hbehind : ∀ l, A l → ∀ z, s l = some z → p.key y < p.key z :=
          fun l hl z hz => hlt.trans_le (hleast l hl z hz).1
        rw [if_pos hgt, if_neg fun h => by rw [hgt] at h; cases h.2]
        refine ⟨k, y, hk, .inr hB, hy, fun l hl z hz => ?_, fun hunify => ?_⟩
        · rcases hl with hl | hl
          · exact ⟨(hbehind l hl z hz).le, fun _ => hbehind l hl z hz⟩
          · exact hleast' l hl z hz
        · rw [heq' hunify]
          refine ⟨fun ⟨l, hl, htie⟩ => ⟨l, .inr hl, htie⟩, fun ⟨l, hl, hne, z, hz, htie⟩ => ?_⟩
          rcases hl with hl | hl
          · exact absurd htie (hbehind l hl z hz).ne'
          · exact ⟨l, hl, hne, z, hz, htie⟩
      · have hle : p.key x ≤ p.key y := not_lt.mp fun h => hgt ((compare_gt_iff p x y).mpr h)
        rw [if_neg hgt]
        refine ⟨i, x, by split <;> exact hi, .inl hA, hx, fun l hl z hz => ?_, fun hunify => ?_⟩
        · rcases hl with hl | hl
          · exact hleast l hl z hz
          · have hil := hAB i l hA hl
            exact ⟨hle.trans (hleast' l hl z hz).1, fun hli => by omega⟩
        · by_cases htie : p.key x = p.key y
          · rw [if_pos ⟨hunify, (compare_eq_iff p x y).mpr htie⟩]
            exact ⟨fun _ => ⟨k, .inr hB, by omega, y, hy, htie.symm⟩, fun _ => rfl⟩
          · rw [if_neg fun h => htie ((compare_eq_iff p x y).mp h.2), heq hunify]
            refine ⟨fun ⟨l, hl, hz⟩ => ⟨l, .inl hl, hz⟩, fun ⟨l, hl, hne, z, hz, hzx⟩ => ?_⟩
            rcases hl with hl | hl
            · exact ⟨l, hl, hne, z, hz, hzx⟩
            · have hyz := (hleast' l hl z hz).1
              exact absurd (le_antisymm hle (hzx ▸ hyz)) htie

/-- The leaf of stream `i`. -/
def leafOf (i : Nat) (o : Option ρ) : Mwt := ⟨if o.isSome then i else -1, false⟩

/-- The streams `d` levels below vertex `j` of a tree with `n2` leaves. -/
def Below (n2 d j i : Nat) : Prop := i < n2 ∧ (n2 + i) / 2 ^ d = j

theorem below_succ (n2 d j i : Nat) :
    Below n2 (d + 1) j i ↔ Below n2 d (2 * j) i ∨ Below n2 d (2 * j + 1) i := by
  unfold Below
  rw [pow_succ, ← Nat.div_div_eq_div_mul]
  omega

theorem lt_of_below {n2 d j i k : Nat} (hi : Below n2 d (2 * j) i)
    (hk : Below n2 d (2 * j + 1) k) : i < k := by
  obtain ⟨-, hi⟩ := hi
  obtain ⟨-, hk⟩ := hk
  by_contra h
  have := Nat.div_le_div_right (c := 2 ^ d) (Nat.add_le_add_left (Nat.le_of_not_lt h) n2)
  omega

/-- The tree over the streams with the next records `s`: the keys of these have been read,
and every vertex says which of its children is lower. -/
structure Tournament (p : SortParams ρ κ) (n2 : Nat) (s keys : Nat → Option ρ)
    (tree : Nat → Mwt) : Prop where
  leaf : ∀ i < n2, tree (n2 + i) = leafOf i (s i)
  read : ∀ i < n2, ∀ x, s i = some x → keys i = some x
  vertex : ∀ j, 1 ≤ j → j < n2 → lowest p keys (tree (2 * j)) (tree (2 * j + 1)) = .ok (tree j)

variable {n2 H : Nat} {tree : Nat → Mwt}

theorem winner_leaf (i : Nat) (s : Nat → Option ρ) : Winner p s (i = ·) (leafOf i (s i)) := by
  cases hs : s i with
  | none => exact .inl ⟨by simp [leafOf], fun k hk => hk ▸ hs⟩
  | some x =>
      refine .inr ⟨i, x, by simp [leafOf], rfl, hs, fun k hk y hy => ?_, fun _ => ?_⟩
      · obtain rfl := hk
        obtain rfl := Option.some.inj (hs.symm.trans hy)
        exact ⟨le_rfl, fun h => absurd h (lt_irrefl _)⟩
      · refine ⟨fun h => by simp [leafOf] at h, fun ⟨k, hk, hne, _⟩ => absurd hk.symm hne⟩

/-- Every vertex has the winner of the streams below it. -/
theorem Tournament.winner (h : Tournament p (2 ^ H) s keys tree) (d : Nat) {j : Nat}
    (hd : d ≤ H) (hj : 2 ^ (H - d) ≤ j) (hj' : j < 2 ^ (H - d + 1)) :
    Winner p s (Below (2 ^ H) d j) (tree j) := by
  induction d generalizing j with
  | zero =>
      rw [Nat.sub_zero] at hj hj'
      rw [pow_succ] at hj'
      obtain ⟨i, rfl⟩ : ∃ i, j = 2 ^ H + i := ⟨j - 2 ^ H, by omega⟩
      rw [h.leaf i (by omega)]
      refine (winner_leaf i s).congr fun k => ?_
      rw [Below, pow_zero, Nat.div_one]
      omega
  | succ d ih =>
      have hexp : H - d = H - (d + 1) + 1 := by omega
      have hpow : 2 ^ (H - d) = 2 * 2 ^ (H - (d + 1)) := by rw [hexp, pow_succ, Nat.mul_comm]
      have hpow' : 2 ^ (H - d + 1) = 2 * 2 ^ (H - (d + 1) + 1) := by
        rw [pow_succ, Nat.mul_comm, ← hexp]
      have hpos : 1 ≤ 2 ^ (H - (d + 1)) := Nat.one_le_two_pow
      have hlt : j < 2 ^ H := hj'.trans_le (Nat.pow_le_pow_right (by omega) (by omega))
      have hleft := ih (by omega) (show 2 ^ (H - d) ≤ 2 * j by omega) (by omega)
      have hright := ih (by omega) (show 2 ^ (H - d) ≤ 2 * j + 1 by omega) (by omega)
      obtain ⟨t, ht, hwin⟩ := hleft.lowest (fun i k => lt_of_below)
        (fun i hi => h.read i (hi.elim And.left And.left)) hright
      have hvertex := h.vertex j (by omega) hlt
      rw [ht] at hvertex
      obtain rfl := Except.ok.inj hvertex
      exact hwin.congr fun i => (below_succ _ _ _ _).symm

/-- The root has the winner of all streams. -/
theorem Tournament.root (h : Tournament p (2 ^ H) s keys tree) :
    Winner p s (· < 2 ^ H) (tree 1) := by
  refine (h.winner H le_rfl (j := 1) (by simp) (by simp)).congr fun i => ?_
  rw [Below, and_iff_left_iff_imp]
  intro hi
  rw [Nat.div_eq_iff (by positivity)]
  omega

/-- The vertices between a leaf and the root, and those above it. -/
def OnPath (a j : Nat) : Prop := ∃ e, a / 2 ^ e = j

theorem OnPath.parent {a j k : Nat} (h : OnPath a k) (hk : k = 2 * j ∨ k = 2 * j + 1) :
    OnPath a j := by
  obtain ⟨e, rfl⟩ := h
  refine ⟨e + 1, ?_⟩
  rw [pow_succ, ← Nat.div_div_eq_div_mul]
  omega

theorem exists_level {j : Nat} (hj : 1 ≤ j) (hlt : j < 2 ^ (H + 1)) :
    ∃ d ≤ H, 2 ^ (H - d) ≤ j ∧ j < 2 ^ (H - d + 1) := by
  have hlog : Nat.log 2 j < H + 1 := Nat.log_lt_of_lt_pow (by omega) hlt
  refine ⟨H - Nat.log 2 j, by omega, ?_⟩
  rw [Nat.sub_sub_self (by omega)]
  exact ⟨Nat.pow_log_le_self 2 (by omega), Nat.lt_pow_succ_log_self (by omega) j⟩

theorem level_unique {a d e : Nat} (ha : 2 ^ H ≤ a) (ha' : a < 2 ^ (H + 1)) (hd : d ≤ H)
    (hlo : 2 ^ (H - d) ≤ a / 2 ^ e) (hhi : a / 2 ^ e < 2 ^ (H - d + 1)) : e = d := by
  have hle : 2 ^ (H - d + e) < 2 ^ (H + 1) := by
    rw [pow_add]
    exact ((Nat.le_div_iff_mul_le (by positivity)).mp hlo).trans_lt ha'
  have hge : 2 ^ H < 2 ^ (H - d + 1 + e) := by
    rw [pow_add _ _ e]
    exact ha.trans_lt ((Nat.div_lt_iff_lt_mul (by positivity)).mp hhi)
  have h₁ := (Nat.pow_lt_pow_iff_right (by omega)).mp hle
  have h₂ := (Nat.pow_lt_pow_iff_right (by omega)).mp hge
  omega

/-- The entry of a vertex is a stream below it. -/
theorem Tournament.entry (h : Tournament p (2 ^ H) s keys tree) {j : Nat} (hj : 1 ≤ j)
    (hlt : j < 2 ^ (H + 1)) (hpos : 0 ≤ (tree j).i) :
    OnPath (2 ^ H + (tree j).i.toNat) j := by
  obtain ⟨d, hd, hlo, hhi⟩ := exists_level hj hlt
  obtain ⟨hneg, -⟩ | ⟨i, x, hi, ⟨-, hbelow⟩, -⟩ := h.winner d hd hlo hhi
  · omega
  · rw [hi, Int.toNat_natCast]
    exact ⟨d, hbelow⟩

theorem lowest_congr {keys' : Nat → Option ρ} {a b : Mwt}
    (ha : 0 ≤ a.i → keys' a.i.toNat = keys a.i.toNat)
    (hb : 0 ≤ b.i → keys' b.i.toNat = keys b.i.toNat) :
    lowest p keys' a b = lowest p keys a b := by
  unfold lowest
  split
  · rfl
  split
  · rfl
  rw [keyAt, keyAt, keyAt, keyAt, ha (by omega), hb (by omega)]

/-- `update_tree` on the way up from the leaf of a stream whose next record has changed. -/
theorem updateTree_ok (s' : Nat → Option ρ) {keys' : Nat → Option ρ} {tree₀ : Nat → Mwt} {i : Nat} (hi : i < 2 ^ H)
    (h : Tournament p (2 ^ H) s keys tree₀) (hs : ∀ k ≠ i, s' k = s k)
    (hkeys : ∀ k ≠ i, keys' k = keys k) (hread : ∀ x, s' i = some x → keys' i = some x)
    (fuel : Nat) {d : Nat} (tree : Nat → Mwt) (hd : d ≤ H)
    (hoff : ∀ j, ¬ OnPath (2 ^ H + i) j → tree j = tree₀ j)
    (hleaf : tree (2 ^ H + i) = leafOf i (s' i))
    (hwin : Winner p s' (Below (2 ^ H) d ((2 ^ H + i) / 2 ^ d)) (tree ((2 ^ H + i) / 2 ^ d)))
    (hpath : ∀ e, 1 ≤ e → e ≤ d → lowest p keys' (tree (2 * ((2 ^ H + i) / 2 ^ e)))
      (tree (2 * ((2 ^ H + i) / 2 ^ e) + 1)) = .ok (tree ((2 ^ H + i) / 2 ^ e)))
    (hfuel : (2 ^ H + i) / 2 ^ d ≤ fuel) :
    ∃ tree', updateTree p keys' (2 * 2 ^ H) fuel tree ((2 ^ H + i) / 2 ^ d) = .ok tree' ∧
      Tournament p (2 ^ H) s' keys' tree' := by
  have hreads : ∀ k < 2 ^ H, ∀ x, s' k = some x → keys' k = some x := by
    intro k hk x hx
    by_cases hki : k = i
    · subst hki
      exact hread x hx
    · rw [hkeys k hki]
      exact h.read k hk x (hs k hki ▸ hx)
  have hpos : 1 ≤ (2 ^ H + i) / 2 ^ d := by
    rw [Nat.le_div_iff_mul_le (by positivity), one_mul]
    exact (Nat.pow_le_pow_right (by omega) hd).trans (Nat.le_add_right _ _)
  induction fuel generalizing d tree with
  | zero => omega
  | succ fuel ih =>
      have hstep : (2 ^ H + i) / 2 ^ d / 2 = (2 ^ H + i) / 2 ^ (d + 1) := by
        rw [pow_succ, Nat.div_div_eq_div_mul]
      rw [updateTree]
      by_cases hroot : (2 ^ H + i) / 2 ^ d / 2 = 0
      · rw [if_pos hroot]
        refine ⟨tree, rfl, fun k hk => ?_, hreads, fun j hj hjlt => ?_⟩
        · by_cases hki : k = i
          · subst hki
            exact hleaf
          · have hnot : ¬ OnPath (2 ^ H + i) (2 ^ H + k) := by
              rintro ⟨e, he⟩
              rcases Nat.eq_zero_or_pos e with rfl | he'
              · rw [pow_zero, Nat.div_one] at he
                omega
              · have hle : (2 ^ H + i) / 2 ^ e ≤ (2 ^ H + i) / 2 :=
                  Nat.div_le_div_left (by simpa using Nat.pow_le_pow_right (n := 2) (by omega) he')
                    (by omega)
                omega
            rw [hoff _ hnot, h.leaf k hk, hs k hki]
        · by_cases hon : OnPath (2 ^ H + i) j
          · obtain ⟨e, rfl⟩ := hon
            refine hpath e ?_ ?_
            · rcases Nat.eq_zero_or_pos e with rfl | he
              · rw [pow_zero, Nat.div_one] at hjlt
                omega
              · exact he
            · by_contra hed
              have hle : (2 ^ H + i) / 2 ^ e ≤ (2 ^ H + i) / 2 ^ (d + 1) :=
                Nat.div_le_div_left (Nat.pow_le_pow_right (by omega) (by omega)) (by positivity)
              omega
          · -- the vertex and its children are as before, and so are the keys they speak of
            have hl : ¬ OnPath (2 ^ H + i) (2 * j) := fun h => hon (h.parent (.inl rfl))
            have hr : ¬ OnPath (2 ^ H + i) (2 * j + 1) := fun h => hon (h.parent (.inr rfl))
            rw [hoff j hon, hoff _ hl, hoff _ hr, ← h.vertex j hj hjlt]
            refine lowest_congr (fun hpos => hkeys _ fun heq => hl ?_)
              fun hpos => hkeys _ fun heq => hr ?_
            · have := h.entry (by omega) (by rw [pow_succ]; omega) hpos
              rwa [heq] at this
            · have := h.entry (by omega) (by rw [pow_succ]; omega) hpos
              rwa [heq] at this
      · have hdlt : d < H := by
          by_contra hdH
          obtain rfl : d = H := by omega
          have : (2 ^ d + i) / 2 ^ d < 2 := by
            rw [Nat.div_lt_iff_lt_mul (by positivity)]
            omega
          omega
        have hlevel : (2 ^ H + i) / 2 ^ (d + 1) < 2 ^ (H - (d + 1) + 1) := by
          rw [Nat.div_lt_iff_lt_mul (by positivity), ← pow_add,
            show H - (d + 1) + 1 + (d + 1) = H + 1 from by omega, pow_succ]
          omega
        have hlevel' : 2 ^ (H - (d + 1)) ≤ (2 ^ H + i) / 2 ^ (d + 1) := by
          rw [Nat.le_div_iff_mul_le (by positivity), ← pow_add, Nat.sub_add_cancel hdlt]
          omega
        have hsize : (2 ^ H + i) / 2 ^ (d + 1) < 2 ^ H :=
          hlevel.trans_le (Nat.pow_le_pow_right (by omega) (by omega))
        rw [if_neg hroot, hstep, if_neg (by omega)]
        have hchild : ∀ c, c / 2 = (2 ^ H + i) / 2 ^ (d + 1) →
            Winner p s' (Below (2 ^ H) d c) (tree c) := by
          intro c hc
          by_cases hcon : c = (2 ^ H + i) / 2 ^ d
          · rw [hcon]
            exact hwin
          · -- the other child is off the path, and what is below it has not changed
            have hlo : 2 ^ (H - d) ≤ c := by
              have : 2 ^ (H - d) = 2 * 2 ^ (H - (d + 1)) := by
                rw [show H - d = H - (d + 1) + 1 from by omega, pow_succ, Nat.mul_comm]
              omega
            have hhi : c < 2 ^ (H - d + 1) := by
              have : 2 ^ (H - d + 1) = 2 * 2 ^ (H - (d + 1) + 1) := by
                rw [show H - d = H - (d + 1) + 1 from by omega, pow_succ, Nat.mul_comm]
              omega
            have hnot : ¬ OnPath (2 ^ H + i) c := by
              rintro ⟨e, he⟩
              have hed : e = d := level_unique (a := 2 ^ H + i) (by omega) (by rw [pow_succ]; omega)
                hd (he ▸ hlo) (he ▸ hhi)
              exact hcon (by rw [← he, hed])
            rw [hoff c hnot]
            refine (h.winner d hd hlo hhi).agree fun k hk => hs k ?_
            rintro rfl
            exact hcon hk.2.symm
        generalize hq : (2 ^ H + i) / 2 ^ (d + 1) = q at hstep hlevel hlevel' hsize hchild ⊢
        obtain ⟨t, ht, hwint⟩ := (hchild (2 * q) (by omega)).lowest (fun a b => lt_of_below)
          (fun k hk => hreads k (hk.elim And.left And.left)) (hchild (2 * q + 1) (by omega))
        have hq1 : 1 ≤ q := by omega
        have hbehind : ∀ e ≤ d, q < (2 ^ H + i) / 2 ^ e := fun e he => by
          have hle : (2 ^ H + i) / 2 ^ d ≤ (2 ^ H + i) / 2 ^ e :=
            Nat.div_le_div_left (Nat.pow_le_pow_right (by omega) he) (by positivity)
          omega
        have hne : (2 ^ H + i) ≠ q := by omega
        rw [ht]
        dsimp only [bind, Except.bind]
        rw [← hq]
        refine ih _ (d := d + 1) hdlt (fun j hj => ?_) ?_ ?_ (fun e he he' => ?_) (by omega) (by omega)
        · rw [hq, Function.update_of_ne (fun h => hj ⟨d + 1, hq.trans h.symm⟩)]
          exact hoff j hj
        · rw [hq, Function.update_of_ne hne]
          exact hleaf
        · rw [hq, Function.update_self]
          exact hwint.congr fun k => (below_succ _ _ _ _).symm
        · rcases Nat.eq_or_lt_of_le he' with rfl | hlt
          · rw [hq, Function.update_self, Function.update_of_ne (by omega),
              Function.update_of_ne (by omega)]
            exact ht
          · have := hbehind e (by omega)
            rw [hq, Function.update_of_ne (by omega), Function.update_of_ne (by omega),
              Function.update_of_ne (by omega)]
            exact hpath e he (by omega)

/-- The tree after the next record of a stream has changed. -/
theorem Tournament.change (h : Tournament p (2 ^ H) s keys tree) {i : Nat} (hi : i < 2 ^ H)
    (keys' : Nat → Option ρ) (o : Option ρ) (hkeys : ∀ k ≠ i, keys' k = keys k)
    (hread : ∀ x, o = some x → keys' i = some x) :
    ∃ tree', updateTree p keys' (2 * 2 ^ H) (2 ^ H + i)
        (setIndex tree (2 ^ H + i) (leafOf i o).i) (2 ^ H + i) = .ok tree' ∧
      Tournament p (2 ^ H) (Function.update s i o) keys' tree' := by
  have hleaf : setIndex tree (2 ^ H + i) (leafOf i o).i (2 ^ H + i) = leafOf i o := by
    rw [setIndex, Function.update_self, h.leaf i hi]
    rfl
  have key := updateTree_ok (Function.update s i o) hi h
    (fun k hk => Function.update_of_ne hk ..) hkeys
    (fun x hx => hread x (by rwa [Function.update_self] at hx)) (2 ^ H + i) (d := 0)
    (setIndex tree (2 ^ H + i) (leafOf i o).i) (Nat.zero_le H)
    (fun j hj => Function.update_of_ne (fun h => hj ⟨0, by simpa using h.symm⟩) ..)
    (by rw [hleaf, Function.update_self])
  rw [pow_zero, Nat.div_one] at key
  refine key ?_ (fun e he he' => by omega) le_rfl
  rw [hleaf]
  have hwin : Winner p (Function.update s i o) (i = ·) (leafOf i (Function.update s i o i)) :=
    winner_leaf i _
  rw [Function.update_self] at hwin
  refine hwin.congr fun k => ?_
  rw [Below, pow_zero, Nat.div_one]
  omega

end Tournament

end OpenAAA.Sorter
