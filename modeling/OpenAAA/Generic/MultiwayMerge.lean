import OpenAAA.Generic.Multiway

/-!
What `multiway_merge` writes: without unification the stable sort of the streams one after
the other, with unification one record for each key.
-/

namespace OpenAAA.Sorter

open Merging

variable {ρ κ : Type} [LinearOrder κ] {p : SortParams ρ κ} {H numIns : Nat} {s : Nat → Option ρ}
  {m : Multiway ρ}

/-! ## Reading on -/

/-- The state after one more record of stream `i` has been read. -/
structure Advanced (p : SortParams ρ κ) (H : Nat) (s : Nat → Option ρ) (i : Nat)
    (m m' : Multiway ρ) : Prop where
  tree : Tournament p (2 ^ H) (Function.update s i (m.fins i).head?) m'.keys m'.tree
  fins : m'.fins = Function.update m.fins i (m.fins i).tail

theorem readKey_nil {i : Nat} (h : m.fins i = []) : m.readKey i = (false, m) := by
  rw [Multiway.readKey, h]

theorem readKey_cons {i : Nat} {x : ρ} {rest : List ρ} (h : m.fins i = x :: rest) :
    m.readKey i = (true, { m with
      fins := Function.update m.fins i rest
      keys := Function.update m.keys i (some x) }) := by
  rw [Multiway.readKey, h]

/-- The turn for the winner of the tree. -/
theorem copyTurn_ok (h : Tournament p (2 ^ H) s m.keys m.tree) {i : Nat} {x : ρ}
    (hi : i < 2 ^ H) (hroot : (m.tree 1).i = i) (hx : s i = some x) :
    ∃ m', copyTurn p (2 ^ H) (2 * 2 ^ H) m = .ok m' ∧ Advanced p H s i m m' ∧
      m'.fout = m.fout ++ [x] := by
  have hkey : keyAt m.keys (m.tree 1) = .ok x :=
    Winner.keyAt (A := (· < 2 ^ H)) h.read hroot hi hx
  rw [copyTurn, hroot, Int.toNat_natCast, hkey]
  dsimp only [bind, Except.bind]
  cases hfins : m.fins i with
  | nil =>
      obtain ⟨tree', hrun, htree⟩ := h.change hi m.keys none (fun _ _ => rfl) (by simp)
      have hout : setIndex m.tree (2 ^ H + i) (-1) =
          setIndex m.tree (2 ^ H + i) (leafOf i (none : Option ρ)).i := rfl
      rw [readKey_nil (m := { m with fout := m.fout ++ [x] }) hfins]
      dsimp only
      rw [if_neg Bool.false_ne_true, hout, hrun]
      refine ⟨_, rfl, ⟨?_, ?_⟩, rfl⟩
      · rw [hfins]
        exact htree
      · rw [hfins, List.tail_nil, ← hfins, Function.update_eq_self]
  | cons y rest =>
      have hleaf : setIndex m.tree (2 ^ H + i) (leafOf i (some y)).i = m.tree := by
        rw [setIndex, Function.update_eq_self_iff, h.leaf i hi, hx]
        rfl
      obtain ⟨tree', hrun, htree⟩ := h.change hi (Function.update m.keys i (some y)) (some y)
        (fun k hk => Function.update_of_ne hk ..) (fun z hz => by rw [← hz, Function.update_self])
      rw [hleaf] at hrun
      rw [readKey_cons (m := { m with fout := m.fout ++ [x] }) hfins]
      dsimp only
      rw [if_pos rfl, hrun]
      refine ⟨_, rfl, ⟨?_, ?_⟩, rfl⟩
      · rw [hfins]
        exact htree
      · rw [hfins]
        rfl

/-- A stream comes back into the tree. -/
theorem enter_ok (h : Tournament p (2 ^ H) s m.keys m.tree) {i : Nat} (hi : i < 2 ^ H)
    (hnone : s i = none) :
    ∃ m', enter p (2 ^ H) (2 * 2 ^ H) i m = .ok m' ∧ Advanced p H s i m m' ∧
      m'.fout = m.fout := by
  rw [enter]
  cases hfins : m.fins i with
  | nil =>
      rw [readKey_nil hfins]
      refine ⟨m, rfl, ⟨?_, ?_⟩, rfl⟩
      · rw [hfins, List.head?_nil, ← hnone, Function.update_eq_self]
        exact h
      · rw [hfins, List.tail_nil, ← hfins, Function.update_eq_self]
  | cons x rest =>
      obtain ⟨tree', hrun, htree⟩ := h.change hi (Function.update m.keys i (some x)) (some x)
        (fun k hk => Function.update_of_ne hk ..) (fun z hz => by rw [← hz, Function.update_self])
      rw [readKey_cons hfins]
      dsimp only [setTree]
      have hval : ((i : Nat) : Int) = (leafOf i (some x)).i := rfl
      rw [hval, hrun]
      refine ⟨_, rfl, ⟨?_, ?_⟩, rfl⟩
      · rw [hfins]
        exact htree
      · rw [hfins]
        rfl

theorem refill_ok {hits : List Nat} (hnodup : hits.Nodup) (hlt : ∀ i ∈ hits, i < 2 ^ H)
    (hnone : ∀ i ∈ hits, s i = none) (h : Tournament p (2 ^ H) s m.keys m.tree) :
    ∃ m', refill p (2 ^ H) (2 * 2 ^ H) hits m = .ok m' ∧
      Tournament p (2 ^ H) (fun i => if i ∈ hits then (m.fins i).head? else s i) m'.keys m'.tree ∧
      (∀ i, m'.fins i = if i ∈ hits then (m.fins i).tail else m.fins i) ∧ m'.fout = m.fout := by
  induction hits generalizing s m with
  | nil => exact ⟨m, rfl, by simpa using h, by simp, rfl⟩
  | cons i hits ih =>
      rw [List.nodup_cons] at hnodup
      obtain ⟨m₁, hrun₁, hadv, hout₁⟩ := enter_ok h (hlt i (by simp)) (hnone i (by simp))
      have hne : ∀ k ∈ hits, k ≠ i := fun k hk hki => hnodup.1 (hki ▸ hk)
      obtain ⟨m', hrun, htree, hfins, hout⟩ := ih hnodup.2 (fun k hk => hlt k (by simp [hk]))
        (fun k hk => by
          rw [Function.update_of_ne (hne k hk)]
          exact hnone k (by simp [hk])) hadv.tree
      refine ⟨m', ?_, ?_, fun k => ?_, hout.trans hout₁⟩
      · rw [refill, hrun₁]
        exact hrun
      · have hs : (fun k => if k ∈ hits then (m₁.fins k).head?
            else Function.update s i (m.fins i).head? k) =
            fun k => if k ∈ i :: hits then (m.fins k).head? else s k := by
          funext k
          rw [hadv.fins]
          by_cases hki : k = i
          · subst hki
            simp [hnodup.1]
          · simp [hki]
        rwa [hs] at htree
      · rw [hfins k, hadv.fins]
        by_cases hki : k = i
        · subst hki
          simp [hnodup.1]
        · simp [hki]

theorem firstKeys_eq (n2 size left i : Nat) (m : Multiway ρ) :
    firstKeys p n2 size left i m = refill p n2 size (List.range' i left) m := by
  induction left generalizing i m with
  | zero => rfl
  | succ left ih =>
      rw [firstKeys, List.range'_succ, refill]
      congr 1
      funext m
      exact ih (i + 1) m

/-! ## The streams that hold one key -/

/-- The streams whose next record has key `k`. -/
def holders (p : SortParams ρ κ) (numIns : Nat) (s : Nat → Option ρ) (k : κ) : List Nat :=
  (List.range numIns).filter fun i => (s i).any fun x => p.key x = k

theorem mem_holders {k : κ} {i : Nat} :
    i ∈ holders p numIns s k ↔ i < numIns ∧ ∃ x, s i = some x ∧ p.key x = k := by
  simp [holders, Option.any_eq_true]

theorem holders_nodup (k : κ) : (holders p numIns s k).Nodup :=
  List.nodup_range.filter _

theorem holders_length_le (k : κ) : (holders p numIns s k).length ≤ numIns :=
  (List.length_filter_le _ _).trans_eq List.length_range

/-- The leftmost of them comes first. -/
theorem holders_cons {i : Nat} {x : ρ} (hi : i < numIns) (hx : s i = some x)
    (hleft : ∀ j < i, ∀ y, s j = some y → p.key y ≠ p.key x) :
    holders p numIns s (p.key x) =
      i :: holders p numIns (Function.update s i none) (p.key x) := by
  obtain ⟨n, rfl⟩ : ∃ n, numIns = i + 1 + n := ⟨numIns - i - 1, by omega⟩
  have hnone : ∀ t : Nat → Option ρ, (∀ j < i, t j = s j) →
      (List.range i).filter (fun j => (t j).any fun y => p.key y = p.key x) = [] := by
    intro t ht
    rw [List.filter_eq_nil_iff]
    intro j hj hany
    obtain ⟨y, hy, hyx⟩ : ∃ y, t j = some y ∧ p.key y = p.key x := by
      simpa [Option.any_eq_true] using hany
    rw [ht j (List.mem_range.mp hj)] at hy
    exact hleft j (List.mem_range.mp hj) y hy hyx
  have hrest : ∀ j ∈ (List.range n).map (i + 1 + ·), Function.update s i none j = s j := by
    intro j hj
    obtain ⟨k, -, rfl⟩ := List.mem_map.mp hj
    exact Function.update_of_ne (by omega) ..
  unfold holders
  rw [List.range_add, List.range_succ, List.filter_append, List.filter_append, List.filter_append,
    List.filter_append, hnone s fun _ _ => rfl,
    hnone _ fun j hj => Function.update_of_ne (by omega) ..]
  have hsame : ((List.range n).map (i + 1 + ·)).filter
      (fun j => (Function.update s i none j).any fun y => p.key y = p.key x) =
      ((List.range n).map (i + 1 + ·)).filter fun j => (s j).any fun y => p.key y = p.key x :=
    List.filter_congr fun j hj => by rw [hrest j hj]
  rw [hsame]
  simp [hx]

/-- The loop over the streams that hold the least key. -/
theorem collectHits_ok {keys : Nat → Option ρ} {tree : Nat → Mwt} (left : Nat) {i : Nat} {x : ρ}
    (key : ρ) (hkey : p.key key = p.key x) (hspare : ∀ i, numIns ≤ i → s i = none)
    (hsize : numIns ≤ 2 ^ H) (h : Tournament p (2 ^ H) s keys tree) (hx : s i = some x)
    (hleast : ∀ j y, s j = some y → p.key x ≤ p.key y ∧ (j < i → p.key x < p.key y))
    (hleft : (holders p numIns s (p.key x)).length ≤ left) :
    ∃ tree', collectHits p keys (2 ^ H) (2 * 2 ^ H) key left i tree =
        .ok (holders p numIns s (p.key x), tree') ∧
      Tournament p (2 ^ H) (fun j => if j ∈ holders p numIns s (p.key x) then none else s j)
        keys tree' := by
  induction left generalizing i x s tree with
  | zero =>
      have hi : i < numIns := by
        by_contra hge
        simp [hspare i (by omega)] at hx
      have hmem : i ∈ holders p numIns s (p.key x) := mem_holders.mpr ⟨hi, x, hx, rfl⟩
      have := List.length_pos_of_mem hmem
      omega
  | succ left ih =>
      have hi : i < numIns := by
        by_contra hge
        simp [hspare i (by omega)] at hx
      have hcons := holders_cons (p := p) hi hx fun j hj y hy => ((hleast j y hy).2 hj).ne'
      obtain ⟨tree₁, hrun₁, htree₁⟩ := h.change (i := i) (by omega) keys none
        (fun _ _ => rfl) (by simp)
      have hrun₁ : setTree p keys (2 * 2 ^ H) tree (2 ^ H + i) (-1) = .ok tree₁ := hrun₁
      have hout : (fun j => if j ∈ holders p numIns s (p.key x) then none else s j) =
          fun j => if j ∈ holders p numIns (Function.update s i none) (p.key x) then none
            else Function.update s i none j := by
        funext j
        rw [hcons]
        by_cases hji : j = i
        · subst hji
          simp
        · simp [hji]
      have hspare₁ : ∀ j, numIns ≤ j → Function.update s i none j = none := fun j hj => by
        rw [Function.update_of_ne (by omega)]
        exact hspare j hj
      rw [collectHits, hrun₁, hout, hcons]
      dsimp only [bind, Except.bind]
      obtain ⟨hneg, hnone⟩ | ⟨k, y, hk, hkn, hy, hleasty, -⟩ := htree₁.root
      · have hnil : holders p numIns (Function.update s i none) (p.key x) = [] := by
          rw [List.eq_nil_iff_forall_not_mem]
          intro j hj
          obtain ⟨hjn, z, hz, -⟩ := mem_holders.mp hj
          simp [hnone j (by omega)] at hz
        rw [if_pos hneg, hnil]
        exact ⟨tree₁, rfl, by simpa using htree₁⟩
      · have hki : k ≠ i := by
          rintro rfl
          simp at hy
        have hxy : p.key x ≤ p.key y := (hleast k y (by rwa [Function.update_of_ne hki] at hy)).1
        have hyat : keyAt keys (tree₁ 1) = .ok y :=
          Winner.keyAt (A := (· < 2 ^ H)) htree₁.read hk hkn hy
        rw [if_neg (by omega), hyat]
        dsimp only
        have hleasty' : ∀ j z, Function.update s i none j = some z →
            p.key y ≤ p.key z ∧ (j < k → p.key y < p.key z) := by
          intro j z hz
          refine hleasty j ?_ z hz
          by_contra hge
          simp [hspare₁ j (by omega)] at hz
        by_cases heq : p.key x = p.key y
        · rw [if_pos ((compare_eq_iff p key y).mpr (hkey.trans heq)), hk, Int.toNat_natCast]
          obtain ⟨tree', hrun, htree'⟩ := ih (hkey.trans heq) hspare₁ htree₁ hy hleasty' (by
            rw [hcons, List.length_cons, heq] at hleft
            omega)
          rw [← heq] at hrun htree'
          rw [hrun]
          exact ⟨tree', rfl, htree'⟩
        · have hnil : holders p numIns (Function.update s i none) (p.key x) = [] := by
            rw [List.eq_nil_iff_forall_not_mem]
            intro j hj
            obtain ⟨-, z, hz, hzx⟩ := mem_holders.mp hj
            exact heq (le_antisymm hxy (hzx ▸ (hleasty' j z hz).1))
          rw [if_neg fun h => heq (hkey.symm.trans ((compare_eq_iff p key y).mp h)), hnil]
          exact ⟨tree₁, rfl, by simpa using htree₁⟩

theorem hitKeys_ok {keys : Nat → Option ρ} {hits : List Nat}
    (h : ∀ i ∈ hits, ∃ x, s i = some x ∧ keys i = some x) :
    hitKeys keys hits = .ok (hits.filterMap s) := by
  induction hits with
  | nil => rfl
  | cons i hits ih =>
      obtain ⟨x, hs, hkeys⟩ := h i (by simp)
      rw [hitKeys, hkeys, ih fun j hj => h j (by simp [hj])]
      simp [hs, bind, Except.bind, pure, Except.pure]

/-! ## The loop -/

/-- What is still to be merged. -/
def remaining (s : Nat → Option ρ) (fins : Nat → List ρ) (i : Nat) : List ρ :=
  (s i).toList ++ fins i

/-- The state between two turns of the loop. -/
structure Running (p : SortParams ρ κ) (H numIns : Nat) (s : Nat → Option ρ) (m : Multiway ρ) :
    Prop where
  tree : Tournament p (2 ^ H) s m.keys m.tree
  spare : ∀ i, numIns ≤ i → s i = none
  drained : ∀ i, s i = none → m.fins i = []

theorem Running.lt (h : Running p H numIns s m) {i : Nat} {x : ρ} (hx : s i = some x) :
    i < numIns := by
  by_contra hge
  simp [h.spare i (by omega)] at hx

theorem Running.mem (h : Running p H numIns s m) {i : Nat} {y : ρ}
    (hy : y ∈ (remaining s m.fins i).head?) : s i = some y := by
  cases hs : s i with
  | none => simp [remaining, hs, h.drained i hs] at hy
  | some x => simpa [remaining, hs] using hy

/-- The root is empty at the end, and else it has the leftmost of the least records. -/
theorem Running.root (h : Running p H numIns s m) (hsize : numIns ≤ 2 ^ H) :
    ((m.tree 1).i < 0 ∧ ∀ i < numIns, remaining s m.fins i = []) ∨
    ∃ (i : Nat) (x : ρ), (m.tree 1).i = i ∧ i < numIns ∧ s i = some x ∧
      (∀ j y, s j = some y → p.key x ≤ p.key y ∧ (j < i → p.key x < p.key y)) ∧
      (p.unify = true →
        ((m.tree 1).eq = true ↔ ∃ j, j ≠ i ∧ ∃ y, s j = some y ∧ p.key y = p.key x)) := by
  obtain ⟨hneg, hnone⟩ | ⟨i, x, hi, hlt, hx, hleast, heq⟩ := h.tree.root
  · refine .inl ⟨hneg, fun i hi => ?_⟩
    have hs := hnone i (by omega)
    rw [remaining, hs, h.drained i hs]
    rfl
  · refine .inr ⟨i, x, hi, h.lt hx, hx, fun j y hy => hleast j ((h.lt hy).trans_le hsize) y hy,
      fun hunify => (heq hunify).trans ⟨fun ⟨j, _, hne, htie⟩ => ⟨j, hne, htie⟩,
        fun ⟨j, hne, y, hy, htie⟩ => ⟨j, (h.lt hy).trans_le hsize, hne, y, hy, htie⟩⟩⟩

theorem Running.advance (h : Running p H numIns s m) {i : Nat} {x : ρ} {m' : Multiway ρ}
    (hx : s i = some x) (hadv : Advanced p H s i m m') :
    Running p H numIns (Function.update s i (m.fins i).head?) m' ∧
      remaining (Function.update s i (m.fins i).head?) m'.fins =
        Function.update (remaining s m.fins) i (m.fins i) := by
  have hi := h.lt hx
  refine ⟨⟨hadv.tree, fun j hj => ?_, fun j hj => ?_⟩, ?_⟩
  · rw [Function.update_of_ne (by omega)]
    exact h.spare j hj
  · rw [hadv.fins]
    by_cases hji : j = i
    · subst hji
      rw [Function.update_self, List.head?_eq_none_iff] at hj
      rw [Function.update_self, hj, List.tail_nil]
    · rw [Function.update_of_ne hji] at hj ⊢
      exact h.drained j hj
  · funext j
    rw [remaining, hadv.fins]
    by_cases hji : j = i
    · subst hji
      rw [Function.update_self, Function.update_self, Function.update_self]
      cases m.fins j <;> rfl
    · rw [Function.update_of_ne hji, Function.update_of_ne hji, Function.update_of_ne hji, remaining]

/-- The loop without unification is the stable merge. -/
theorem mergeLoop_merges (hunify : p.unify = false) (hsize : numIns ≤ 2 ^ H) (fuel : Nat)
    (h : Running p H numIns s m)
    (hfuel : (concat numIns (remaining s m.fins)).length < fuel) :
    ∃ m' out, mergeLoop p numIns (2 ^ H) (2 * 2 ^ H) fuel m = .ok m' ∧
      m'.fout = m.fout ++ out ∧ MergesTo p.key numIns (remaining s m.fins) out := by
  induction fuel generalizing s m with
  | zero => omega
  | succ fuel ih =>
      rw [mergeLoop]
      obtain ⟨hneg, hnone⟩ | ⟨i, x, hi, hlt, hx, hleast, -⟩ := h.root hsize
      · rw [if_pos hneg]
        exact ⟨m, [], rfl, by simp, .done hnone⟩
      · obtain ⟨m₁, hrun₁, hadv, hout₁⟩ := copyTurn_ok h.tree (hlt.trans_le hsize) hi hx
        obtain ⟨hrunning, hrest⟩ := h.advance hx hadv
        have hstream : remaining s m.fins i = x :: m.fins i := by rw [remaining, hx]; rfl
        have hlen := (concat_take hlt hstream).length_eq
        rw [List.length_cons, ← hrest] at hlen
        obtain ⟨m', out, hrun, hout, hmerge⟩ := ih hrunning (by omega)
        rw [if_neg (by omega), turn, if_neg (by simp [hunify]), hrun₁]
        refine ⟨m', x :: out, hrun, by rw [hout, hout₁]; simp, ?_⟩
        rw [hrest] at hmerge
        exact .take hlt hstream (fun j _ y hy => hleast j y (h.mem hy)) hmerge

/-- `copy_merged` for several records, the record itself for one. -/
def SortParams.unite (p : SortParams ρ κ) : List ρ → ρ
  | [x] => x
  | xs => p.merged xs

/-- What the holders of the least key have, and what is left without it. -/
theorem filter_holders (h : Running p H numIns s m) {k : κ}
    (hleast : ∀ j y, s j = some y → k ≤ p.key y)
    (hstrict : ∀ i < numIns, (remaining s m.fins i).Pairwise fun x y => p.key x < p.key y) :
    (concat numIns (remaining s m.fins)).filter (p.key · = k) =
        (holders p numIns s k).filterMap s ∧
      (concat numIns (remaining s m.fins)).filter (p.key · ≠ k) = concat numIns fun i =>
        if i ∈ holders p numIns s k then m.fins i else remaining s m.fins i := by
  have hone : ∀ i < numIns,
      (remaining s m.fins i).filter (p.key · = k) =
        (if i ∈ holders p numIns s k then (s i).toList else []) ∧
      (remaining s m.fins i).filter (p.key · ≠ k) =
        (if i ∈ holders p numIns s k then m.fins i else remaining s m.fins i) := by
    intro i hi
    have hsorted := hstrict i hi
    cases hs : s i with
    | none =>
        have hnot : i ∉ holders p numIns s k := by simp [mem_holders, hs]
        simp [remaining, hs, h.drained i hs, hnot]
    | some x =>
        have hstream : remaining s m.fins i = x :: m.fins i := by rw [remaining, hs]; rfl
        rw [hstream, List.pairwise_cons] at hsorted
        have hbehind : ∀ y ∈ m.fins i, p.key y ≠ k := fun y hy =>
          ((hleast i x hs).trans_lt (hsorted.1 y hy)).ne'
        have hnone : (m.fins i).filter (p.key · = k) = [] :=
          List.filter_eq_nil_iff.mpr fun y hy => by simpa using hbehind y hy
        have hall : (m.fins i).filter (p.key · ≠ k) = m.fins i :=
          List.filter_eq_self.mpr fun y hy => by simpa using hbehind y hy
        rw [hstream, List.filter_cons, List.filter_cons, hnone, hall]
        by_cases hxk : p.key x = k
        · rw [if_pos (mem_holders.mpr ⟨hi, x, hs, hxk⟩), if_pos (mem_holders.mpr ⟨hi, x, hs, hxk⟩)]
          simp [hxk]
        · have hnot : i ∉ holders p numIns s k := fun hmem => by
            obtain ⟨-, y, hy, hyk⟩ := mem_holders.mp hmem
            obtain rfl := Option.some.inj (hs.symm.trans hy)
            exact hxk hyk
          rw [if_neg hnot, if_neg hnot]
          simp [hxk]
  constructor
  · rw [concat_filter, concat_congr fun i hi => (hone i hi).1]
    have hfilter : ∀ (q : Nat → Bool) (l : List Nat), (∀ i ∈ l, i ∈ holders p numIns s k ↔ q i) →
        l.flatMap (fun i => if i ∈ holders p numIns s k then (s i).toList else []) =
          (l.filter q).filterMap s := by
      intro q l hq
      induction l with
      | nil => rfl
      | cons i l ih =>
          rw [List.flatMap_cons, ih fun j hj => hq j (by simp [hj]), List.filter_cons]
          by_cases hqi : q i
          · rw [if_pos ((hq i (by simp)).mpr hqi), if_pos hqi, List.filterMap_cons]
            cases s i <;> rfl
          · rw [if_neg fun hmem => hqi ((hq i (by simp)).mp hmem), if_neg hqi]
            rfl
    refine hfilter _ _ fun i hi => ?_
    rw [holders, List.mem_filter, and_iff_right hi]
  · rw [concat_filter]
    exact concat_congr fun i hi => (hone i hi).2

/-- The turn that joins the records of the least key. -/
theorem mergeTurn_ok (h : Running p H numIns s m) (hsize : numIns ≤ 2 ^ H) {i : Nat} {x : ρ}
    (hi : (m.tree 1).i = i) (hx : s i = some x)
    (hleast : ∀ j y, s j = some y → p.key x ≤ p.key y ∧ (j < i → p.key x < p.key y)) :
    ∃ s' m', mergeTurn p numIns (2 ^ H) (2 * 2 ^ H) m = .ok m' ∧ Running p H numIns s' m' ∧
      m'.fout = m.fout ++ [p.merged ((holders p numIns s (p.key x)).filterMap s)] ∧
      ∀ j, remaining s' m'.fins j =
        if j ∈ holders p numIns s (p.key x) then m.fins j else remaining s m.fins j := by
  have hkey : keyAt m.keys (m.tree 1) = .ok x :=
    Winner.keyAt (A := (· < 2 ^ H)) h.tree.read hi ((h.lt hx).trans_le hsize) hx
  obtain ⟨tree, hcollect, htree⟩ := collectHits_ok numIns x rfl h.spare hsize h.tree hx
    hleast (holders_length_le _)
  have hread : ∀ j ∈ holders p numIns s (p.key x), ∃ y, s j = some y ∧ m.keys j = some y := by
    intro j hj
    obtain ⟨hjn, y, hy, -⟩ := mem_holders.mp hj
    exact ⟨y, hy, h.tree.read j (by omega) y hy⟩
  rw [mergeTurn, hi, Int.toNat_natCast, hkey]
  dsimp only [bind, Except.bind]
  rw [hcollect]
  dsimp only
  rw [hitKeys_ok hread]
  generalize hhits : holders p numIns s (p.key x) = hits at *
  obtain ⟨m', hrun, htree', hfins, hout⟩ := refill_ok
    (m := { m with tree := tree, fout := m.fout ++ [p.merged (hits.filterMap s)] })
    (hhits ▸ holders_nodup _)
    (fun j hj => by
      obtain ⟨hjn, -⟩ := mem_holders.mp (hhits ▸ hj)
      omega)
    (fun j hj => if_pos hj) htree
  refine ⟨_, m', hrun, ⟨htree', fun j hj => ?_, fun j hj => ?_⟩, hout, fun j => ?_⟩
  · have hnot : j ∉ hits := fun hmem => by
      obtain ⟨hjn, -⟩ := mem_holders.mp (hhits ▸ hmem)
      omega
    simp [hnot, h.spare j hj]
  · rw [hfins]
    by_cases hmem : j ∈ hits
    · simp only [hmem, if_true, List.head?_eq_none_iff] at hj ⊢
      rw [hj, List.tail_nil]
    · simp only [hmem, if_false] at hj ⊢
      exact h.drained j hj
  · rw [remaining, hfins]
    by_cases hmem : j ∈ hits
    · simp only [hmem, if_true]
      cases m.fins j <;> rfl
    · simp only [hmem, if_false]
      rfl

/-- Either turn writes one record and takes the least key out of the streams. -/
theorem turn_ok (hunify : p.unify = true) (hsize : numIns ≤ 2 ^ H) (h : Running p H numIns s m)
    {i : Nat} {x : ρ} (hi : (m.tree 1).i = i) (hx : s i = some x)
    (hleast : ∀ j y, s j = some y → p.key x ≤ p.key y ∧ (j < i → p.key x < p.key y))
    (heq : (m.tree 1).eq = true ↔ ∃ j, j ≠ i ∧ ∃ y, s j = some y ∧ p.key y = p.key x) :
    ∃ s' m', turn p numIns (2 ^ H) (2 * 2 ^ H) m = .ok m' ∧ Running p H numIns s' m' ∧
      m'.fout = m.fout ++ [p.unite ((holders p numIns s (p.key x)).filterMap s)] ∧
      ∀ j, remaining s' m'.fins j =
        if j ∈ holders p numIns s (p.key x) then m.fins j else remaining s m.fins j := by
  have hlt := h.lt hx
  have hcons := holders_cons (p := p) hlt hx fun j hj y hy => ((hleast j y hy).2 hj).ne'
  rw [turn]
  by_cases heqt : (m.tree 1).eq = true
  · obtain ⟨j, hji, y, hy, hyx⟩ := heq.mp heqt
    obtain ⟨s', m', hrun, hrunning, hout, hrest⟩ := mergeTurn_ok h hsize hi hx hleast
    rw [if_pos ⟨hunify, heqt⟩]
    refine ⟨s', m', hrun, hrunning, ?_, hrest⟩
    rw [hout, SortParams.unite]
    rintro z hz
    -- two streams hold the key, so there are two records of it
    have hmemj : j ∈ holders p numIns (Function.update s i none) (p.key x) :=
      mem_holders.mpr ⟨h.lt hy, y, by rwa [Function.update_of_ne hji], hyx⟩
    have hmemy : y ∈ (holders p numIns (Function.update s i none) (p.key x)).filterMap s :=
      List.mem_filterMap.mpr ⟨j, hmemj, hy⟩
    rw [hcons, List.filterMap_cons, hx] at hz
    rw [(List.cons.inj hz).2] at hmemy
    simp at hmemy
  · have hone : holders p numIns s (p.key x) = [i] := by
      rw [hcons, List.cons.injEq, and_iff_right rfl, List.eq_nil_iff_forall_not_mem]
      intro j hj
      obtain ⟨-, y, hy, hyx⟩ := mem_holders.mp hj
      have hji : j ≠ i := by
        rintro rfl
        simp at hy
      rw [Function.update_of_ne hji] at hy
      exact heqt (heq.mpr ⟨j, hji, y, hy, hyx⟩)
    obtain ⟨m', hrun, hadv, hout⟩ := copyTurn_ok h.tree (hlt.trans_le hsize) hi hx
    obtain ⟨hrunning, hrest⟩ := h.advance hx hadv
    rw [if_neg fun h => heqt h.2, hone]
    refine ⟨_, m', hrun, hrunning, ?_, fun j => ?_⟩
    · rw [hout]
      simp [hx, SortParams.unite]
    · rw [hrest, Function.update_apply]
      by_cases hji : j = i
      · subst hji
        simp
      · simp [hji]

/-- The loop with unification joins the records of each key. -/
theorem mergeLoop_unifies (hunify : p.unify = true) (hsize : numIns ≤ 2 ^ H) (fuel : Nat)
    (h : Running p H numIns s m)
    (hstrict : ∀ i < numIns, (remaining s m.fins i).Pairwise fun x y => p.key x < p.key y)
    (hfuel : (concat numIns (remaining s m.fins)).length < fuel) :
    ∃ m' out, mergeLoop p numIns (2 ^ H) (2 * 2 ^ H) fuel m = .ok m' ∧
      m'.fout = m.fout ++ out ∧
      Unifies p.key p.unite (concat numIns (remaining s m.fins)) out := by
  induction fuel generalizing s m with
  | zero => omega
  | succ fuel ih =>
      rw [mergeLoop]
      obtain ⟨hneg, hnone⟩ | ⟨i, x, hi, hlt, hx, hleast, heq⟩ := h.root hsize
      · have hnil : concat numIns (remaining s m.fins) = [] := by
          rw [concat_congr hnone]
          simp [concat]
        rw [if_pos hneg, hnil]
        exact ⟨m, [], rfl, by simp, .nil⟩
      · have hmem : i ∈ holders p numIns s (p.key x) := mem_holders.mpr ⟨hlt, x, hx, rfl⟩
        obtain ⟨s₁, m₁, hturn, hrunning, hout₁, hrest⟩ :=
          turn_ok hunify hsize h hi hx hleast (heq hunify)
        obtain ⟨hgroup, hbehind⟩ := filter_holders h (k := p.key x)
          (fun j y hy => (hleast j y hy).1) hstrict
        rw [← concat_congr fun j _ => hrest j] at hbehind
        have hleft : ∀ z ∈ concat numIns (remaining s m.fins), p.key x ≤ p.key z := by
          intro z hz
          obtain ⟨j, hj, hzj⟩ := mem_concat.mp hz
          obtain ⟨y, hy, hyz⟩ := head_le ((hstrict j hj).imp le_of_lt) hzj
          exact (hleast j y (h.mem hy)).1.trans hyz
        have hxmem : x ∈ (concat numIns (remaining s m.fins)).filter (p.key · = p.key x) := by
          rw [hgroup]
          exact List.mem_filterMap.mpr ⟨i, hmem, hx⟩
        have hlen : (concat numIns (remaining s₁ m₁.fins)).length
            < (concat numIns (remaining s m.fins)).length := by
          rw [← hbehind]
          exact List.length_filter_lt_length_iff_exists.mpr
            ⟨x, (List.mem_filter.mp hxmem).1, by simp⟩
        obtain ⟨m', out, hrun, hout, hunifies⟩ := ih hrunning (fun j hj => by
          rw [hrest]
          have hsorted := hstrict j hj
          split
          · rw [remaining, List.pairwise_append] at hsorted
            exact hsorted.2.1
          · exact hsorted) (by omega)
        rw [if_neg (by omega), hturn]
        refine ⟨m', _, hrun, by rw [hout, hout₁, List.append_assoc], ?_⟩
        rw [← hgroup]
        refine .cons (p.key x) (List.ne_nil_of_mem hxmem) hleft ?_
        rw [hbehind]
        exact hunifies

/-! ## The whole merge -/

theorem leafCount_ok (hmany : numIns ≤ 2 ^ 30) (fuel h : Nat) (hh : h ≤ 30)
    (hfuel : numIns < fuel + 2 ^ h) (hpos : 0 < fuel) :
    ∃ H ≤ 30, leafCount numIns fuel (2 ^ h) = .ok (2 ^ H) ∧ numIns ≤ 2 ^ H := by
  induction fuel generalizing h with
  | zero => omega
  | succ fuel ih =>
      rw [leafCount]
      by_cases hlt : 2 ^ h < numIns
      · have hh30 : h + 1 ≤ 30 := by
          by_contra hge
          obtain rfl : h = 30 := by omega
          omega
        have hpow : 2 * 2 ^ h = 2 ^ (h + 1) := by rw [pow_succ, Nat.mul_comm]
        have hbound : 2 ^ (h + 1) ≤ 2 ^ 30 := Nat.pow_le_pow_right (by omega) hh30
        have hone : 1 ≤ 2 ^ h := Nat.one_le_two_pow
        rw [if_pos hlt, hpow, Nat.mod_eq_of_lt (by omega)]
        exact ih (h + 1) hh30 (by omega) (by omega)
      · exact ⟨h, hh, if_neg hlt, by omega⟩

/-- Before the loop every stream has its first record in the tree. -/
theorem multiwayMerge_start (p : SortParams ρ κ) (ins : List (List ρ))
    (hmany : ins.length ≤ 2 ^ 30) :
    ∃ H s m, ins.length ≤ 2 ^ H ∧ Running p H ins.length s m ∧ m.fout = [] ∧
      (∀ i, remaining s m.fins i = ins.getD i []) ∧
      multiwayMerge p ins = (mergeLoop p ins.length (2 ^ H) (2 * 2 ^ H)
        (ins.flatten.length + 1) m).map Multiway.fout := by
  obtain ⟨H, hH, hcount, hle⟩ := leafCount_ok hmany (ins.length + 1) 0 (by omega) (by omega) (by omega)
  have hempty : Tournament p (2 ^ H) (fun _ => none) (fun _ => none) fun _ => ⟨-1, false⟩ :=
    ⟨fun _ _ => rfl, fun _ _ _ h => by simp at h, fun _ _ _ => if_pos (by decide)⟩
  have hnodup : (List.range' 0 ins.length).Nodup := List.nodup_range'
  obtain ⟨m, hrun, htree, hfins, hout⟩ := refill_ok
    (m := ⟨fun i => ins.getD i [], fun _ => none, fun _ => ⟨-1, false⟩, []⟩) hnodup
    (fun i hi => by
      rw [List.mem_range'_1] at hi
      omega) (fun _ _ => rfl) hempty
  have hmem : ∀ i, i ∈ List.range' 0 ins.length ↔ i < ins.length := fun i => by
    rw [List.mem_range'_1]
    omega
  have hbehind : ∀ i, ¬ i < ins.length → ins.getD i [] = [] := fun i hi => by
    rw [List.getD_eq_getElem?_getD, List.getElem?_eq_none (by omega), Option.getD_none]
  have hpow : 2 ^ H ≤ 2 ^ 30 := Nat.pow_le_pow_right (by omega) hH
  refine ⟨H, _, m, hle, ⟨htree, fun i hi => ?_, fun i hi => ?_⟩, hout, fun i => ?_, ?_⟩
  · rw [if_neg (by rw [hmem]; omega)]
  · rw [hfins]
    by_cases hlt : i < ins.length
    · simp only [hmem, hlt, if_true, List.head?_eq_none_iff] at hi ⊢
      rw [hi, List.tail_nil]
    · simp only [hmem, hlt, if_false]
      exact hbehind i hlt
  · rw [remaining, hfins]
    by_cases hlt : i < ins.length
    · simp only [hmem, hlt, if_true]
      cases ins.getD i [] <;> rfl
    · simp [hmem, hlt]
  · rw [pow_zero] at hcount
    rw [multiwayMerge, hcount]
    dsimp only [bind, Except.bind]
    rw [Nat.mod_eq_of_lt (by omega), firstKeys_eq, hrun]
    dsimp only
    cases mergeLoop p ins.length (2 ^ H) (2 * 2 ^ H) (ins.flatten.length + 1) m <;> rfl

/-- Without unification `multiway_merge` writes the stable sort of its sorted inputs, one
after the other: records of one key come in the order of the inputs. -/
theorem multiwayMerge_stable (p : SortParams ρ κ) (hunify : p.unify = false) (ins : List (List ρ))
    (hmany : ins.length ≤ 2 ^ 30)
    (hsorted : ∀ l ∈ ins, l.Pairwise fun x y => p.key x ≤ p.key y) :
    multiwayMerge p ins = .ok (stableSort p.key ins.flatten) := by
  obtain ⟨H, s, m, hle, hrunning, hout₀, hrest, heq⟩ := multiwayMerge_start p ins hmany
  have hconcat : concat ins.length (remaining s m.fins) = ins.flatten := by
    rw [concat_congr fun i _ => hrest i, concat_getD]
  obtain ⟨m', out, hrun, hout, hmerge⟩ := mergeLoop_merges hunify hle (ins.flatten.length + 1)
    hrunning (by rw [hconcat]; omega)
  have hstable := hmerge.eq_stableSort fun i hi => by
    rw [hrest, ← List.getElem_eq_getD (h := hi) []]
    exact hsorted _ (List.getElem_mem hi)
  rw [heq, hrun, Except.map, hout, hout₀, hstable, hconcat, List.nil_append]

theorem multiwayMerge_stable_three :
    multiwayMerge ⟨Prod.fst, false, fun l => l.headD (0, 0)⟩ [[(1, 7), (3, 7)], [], [(1, 9)]] =
      .ok (stableSort Prod.fst [(1, 7), (3, 7), (1, 9)]) :=
  multiwayMerge_stable _ rfl _ (by decide) (by decide)

theorem multiwayMerge_joins (p : SortParams ρ κ) (hunify : p.unify = true) (ins : List (List ρ))
    (hmany : ins.length ≤ 2 ^ 30)
    (hstrict : ∀ l ∈ ins, l.Pairwise fun x y => p.key x < p.key y) :
    ∃ out, multiwayMerge p ins = .ok out ∧ Unifies p.key p.unite ins.flatten out := by
  obtain ⟨H, s, m, hle, hrunning, hout₀, hrest, heq⟩ := multiwayMerge_start p ins hmany
  have hconcat : concat ins.length (remaining s m.fins) = ins.flatten := by
    rw [concat_congr fun i _ => hrest i, concat_getD]
  obtain ⟨m', out, hrun, hout, hunifies⟩ := mergeLoop_unifies hunify hle (ins.flatten.length + 1)
    hrunning (fun i hi => by
      rw [hrest, ← List.getElem_eq_getD (h := hi) []]
      exact hstrict _ (List.getElem_mem hi)) (by rw [hconcat]; omega)
  refine ⟨out, ?_, by rwa [hconcat] at hunifies⟩
  rw [heq, hrun, Except.map, hout, hout₀, List.nil_append]

/-- What `SORT_UNIFY` asks of `write_merged`: the record has the key of those it is made of. -/
def SortParams.KeepsKey (p : SortParams ρ κ) : Prop :=
  ∀ k (g : List ρ), 2 ≤ g.length → (∀ x ∈ g, p.key x = k) → p.key (p.merged g) = k

omit [LinearOrder κ] in
theorem SortParams.KeepsKey.unite (h : p.KeepsKey) (k : κ) (g : List ρ) (hg : g ≠ [])
    (hk : ∀ x ∈ g, p.key x = k) : p.key (p.unite g) = k := by
  rcases g with _ | ⟨x, _ | ⟨y, g⟩⟩
  · exact absurd rfl hg
  · exact hk x (by simp)
  · exact h k _ (by simp) hk

/-- With unification `multiway_merge` writes one record for each key of its inputs, in the
order of the keys; `write_merged` only ever gets several records, all of one key, in the
order of the inputs. -/
theorem multiwayMerge_unifies (p : SortParams ρ κ) (hunify : p.unify = true)
    (hmerged : p.KeepsKey) (ins : List (List ρ)) (hmany : ins.length ≤ 2 ^ 30)
    (hstrict : ∀ l ∈ ins, l.Pairwise fun x y => p.key x < p.key y) :
    ∃ out, multiwayMerge p ins = .ok out ∧ (out.Pairwise fun x y => p.key x < p.key y) ∧
      ∀ r, r ∈ out ↔ ∃ x ∈ ins.flatten,
        r = p.unite (ins.flatten.filter fun y => p.key y = p.key x) := by
  obtain ⟨out, hrun, hunifies⟩ := multiwayMerge_joins p hunify ins hmany hstrict
  exact ⟨out, hrun, hunifies.increasing hmerged.unite, hunifies.mem⟩

/-- Counts that are added up for each word. -/
def wordCounts : SortParams (Nat × Nat) Nat where
  key := Prod.fst
  unify := true
  merged := fun l => ((l.headD (0, 0)).1, (l.map Prod.snd).sum)

theorem wordCounts_keepsKey : wordCounts.KeepsKey := by
  intro k g hg hk
  cases g with
  | nil => simp at hg
  | cons x g => exact hk x (by simp)

theorem multiwayMerge_unifies_counts :
    ∃ out, multiwayMerge wordCounts [[(1, 2), (3, 5)], [(1, 4)]] = .ok out ∧
      (out.Pairwise fun x y => x.1 < y.1) ∧
      ∀ r, r ∈ out ↔ ∃ x ∈ [[(1, 2), (3, 5)], [(1, 4)]].flatten,
        r = wordCounts.unite ([[(1, 2), (3, 5)], [(1, 4)]].flatten.filter fun y => y.1 = x.1) :=
  multiwayMerge_unifies wordCounts rfl wordCounts_keepsKey _ (by decide) (by decide)

end OpenAAA.Sorter
