import OpenAAA.Generic.GovernBuckets
import OpenAAA.Lib.Scatter

/-!
The strategies of `govern.c`: each takes the first bucket behind the final one off the list
and either sorts it into the final one, leaves it sorted in its place, or splits it.
-/

namespace OpenAAA.Sorter

open Merging

variable {ρ κ : Type} [LinearOrder κ] {c : SortContext ρ κ} {M : Type} [AddCommMonoid M]
  {weight : ρ → M}

/-! ## What a strategy leaves -/

/-- `b'` is `b` with `n` more runs that hold the records `l`. -/
structure SortBucket.Put (c : SortContext ρ κ) (b : SortBucket ρ) (l : List ρ) (n : Nat)
    (b' : SortBucket ρ) : Prop where
  out : b'.Out c
  final : b'.final = b.final
  custom : b'.customPresort = b.customPresort
  runs : b'.runs = b.runs + n
  file : b'.file = b.file ++ l
  opened : n ≠ 0 → b'.openWrite = true

omit [LinearOrder κ] in
theorem SortBucket.Out.put_ok {b : SortBucket ρ} (h : b.Out c) (l : List ρ) (runs : Nat)
    (hl : runs = 0 → l = []) (hfew : b.runs + runs < 2 ^ 32) :
    ∃ b', b.put l runs = .ok b' ∧ b.Put c l runs b' := by
  by_cases hruns : runs = 0
  · have hnone : l = [] := hl hruns
    refine ⟨b, if_pos ⟨hruns, by rw [hnone]; rfl⟩, ⟨h, rfl, rfl, ?_, ?_, fun hne => absurd hruns hne⟩⟩
    · rw [hruns, Nat.add_zero]
    · rw [hnone, List.append_nil]
  · obtain ⟨pos, hput⟩ := h.put l hruns hfew
    exact ⟨_, hput, ⟨h.grown l runs pos, rfl, rfl, rfl, rfl, fun _ => rfl⟩⟩

omit [LinearOrder κ] in
theorem SortBucket.Out.put_grown {b : SortBucket ρ} (h : b.Out c) (l : List ρ) (runs pos : Nat) :
    b.Put c l runs (b.grown l runs pos) :=
  ⟨h.grown l runs pos, rfl, rfl, rfl, rfl, fun _ => rfl⟩

/-- The records `l` of a bucket have been sorted: into the final bucket, or to a bucket of
their own. -/
inductive Outcome (c : SortContext ρ κ) (weight : ρ → M) (bout : SortBucket ρ)
    (rest : List (SortBucket ρ)) (l : List ρ) : List (SortBucket ρ) → Prop
  | joined (bout' : SortBucket ρ) (l' : List ρ) (hput : bout.Put c l' 0 bout')
      (hsorted : l'.Pairwise c.params.Less) (hgathers : Gathers c.params.key weight l l') :
      Outcome c weight bout rest l (bout' :: rest)
  | placed (b' : SortBucket ρ) (hout : b'.Out c) (hcustom : b'.customPresort = false)
      (hsorted : b'.file.Pairwise c.params.Less) (hruns : b'.file = [] ∨ b'.runs = 1)
      (hgathers : Gathers c.params.key weight l b'.file) :
      Outcome c weight bout rest l (bout :: b' :: rest)

/-- What the joins of `sbuck_ins_or_join` and `sorter_twoway` leave. -/
theorem Outcome.join {bout bout' : SortBucket ρ} (rest : List (SortBucket ρ)) {l run : List ρ}
    (hruns : bout.runs = 1) (hput : bout.Put c run 1 bout')
    (hsorted : run.Pairwise c.params.Less) (hgathers : Gathers c.params.key weight l run)
    (b : Option (SortBucket ρ)) :
    ∃ L, sbuckInsOrJoin b true bout' rest = .ok L ∧ Outcome c weight bout rest l L := by
  have htwo : bout'.runs = 2 := by rw [hput.runs, hruns]
  refine ⟨{ bout' with runs := 1 } :: rest, ?_, .joined _ run ⟨⟨hput.out.openRead, hput.out.opened,
    hput.out.closed, hput.out.size⟩, hput.final, hput.custom, hruns.symm, hput.file,
    fun h => absurd rfl h⟩ hsorted hgathers⟩
  rw [sbuckInsOrJoin, if_pos ⟨rfl, by omega⟩, if_pos htwo]

/-- Nothing was joined. -/
theorem sbuckInsOrJoin_place {bout : SortBucket ρ} {rest : List (SortBucket ρ)} {join : Bool}
    (hruns : bout.runs = 1) (b : Option (SortBucket ρ)) :
    sbuckInsOrJoin b join bout rest = .ok (bout :: b.toList ++ rest) := by
  rw [sbuckInsOrJoin, if_neg]
  rintro ⟨-, h⟩
  omega

omit [LinearOrder κ] in
theorem sbuckJoinTo_ok {bout : SortBucket ρ} (hruns : bout.runs = 1) :
    ∃ join, sbuckJoinTo c bout = .ok join := by
  rw [sbuckJoinTo]
  rw [if_pos hruns]
  split
  · exact ⟨_, rfl⟩
  split
  · exact ⟨_, rfl⟩
  · exact ⟨_, rfl⟩

/-! ## The two-way strategy -/

/-- Two presorted buckets, with no more runs than they say. -/
structure RunPair (c : SortContext ρ κ) (ins0 ins1 : SortBucket ρ) : Prop where
  out0 : ins0.Out c
  out1 : ins1.Out c
  runs0 : runsOf c.params.Less ins0.file ≤ ins0.runs
  runs1 : runsOf c.params.Less ins1.file ≤ ins1.runs

theorem RunPair.symm {a b : SortBucket ρ} (h : RunPair c a b) : RunPair c b a :=
  ⟨h.out1, h.out0, h.runs1, h.runs0⟩

theorem Outcome.of_gathers {bout : SortBucket ρ} {rest L : List (SortBucket ρ)} {l₁ l₂ : List ρ}
    (hl : Gathers c.params.key weight l₁ l₂) (h : Outcome c weight bout rest l₂ L) :
    Outcome c weight bout rest l₁ L := by
  cases h with
  | joined bout' l' hput hsorted hgathers => exact .joined bout' l' hput hsorted (hl.trans hgathers)
  | placed b' hout hcustom hsorted hruns hgathers =>
      exact .placed b' hout hcustom hsorted hruns (hl.trans hgathers)

/-- A part that has been sorted. -/
structure Part (c : SortContext ρ κ) (b : SortBucket ρ) : Prop where
  out : b.Out c
  opened : b.openWrite = true
  custom : b.customPresort = false
  runs : b.runs = 1
  sorted : b.file.Pairwise c.params.Less

theorem Part.swapOut {b : SortBucket ρ} (h : Part c b) :
    Part c (sbuckSwapOut c b) ∧ (sbuckSwapOut c b).file = b.file := by
  obtain ⟨hout, hfile, hruns, hopen, hcustom, -⟩ := h.out.swapOut
  exact ⟨⟨hout, hopen.trans h.opened, hcustom.trans h.custom, hruns.trans h.runs, hfile ▸ h.sorted⟩,
    hfile⟩

theorem part_grown {run : List ρ} (hsorted : run.Pairwise c.params.Less) (pos : Nat) :
    Part c ((sbuckNew : SortBucket ρ).grown run 1 pos) :=
  ⟨(out_sbuckNew c).grown run 1 pos, rfl, rfl, rfl, hsorted⟩

/-- `multiway_merge` of sorted parts, with or without unification. -/
theorem multiwayMerge_gathers {p : SortParams ρ κ} (hjoins : p.Joins weight) {ins : List (List ρ)}
    (hmany : ins.length ≤ 2 ^ 30) (hsorted : ∀ l ∈ ins, l.Pairwise p.Less) :
    ∃ out, multiwayMerge p ins = .ok out ∧ out.Pairwise p.Less ∧
      Gathers p.key weight ins.flatten out := by
  cases hunify : p.unify with
  | false =>
      have hless : ∀ x y, p.Less x y ↔ p.key x ≤ p.key y := fun x y => by
        rw [less_iff, hunify, if_neg Bool.false_ne_true]
      refine ⟨_, multiwayMerge_stable p hunify ins hmany fun l hl =>
        (hsorted l hl).imp fun h => (hless _ _).mp h, ?_, .of_perm (stableSort_perm _ _).symm⟩
      exact (stableSort_sorted p.key _).imp fun {x y} h => (hless x y).mpr h
  | true =>
      have hless : ∀ x y, p.Less x y ↔ p.key x < p.key y := fun x y => by
        rw [less_iff, hunify, if_pos rfl]
      obtain ⟨out, hrun, hunifies⟩ := multiwayMerge_joins p hunify ins hmany fun l hl =>
        (hsorted l hl).imp fun h => (hless _ _).mp h
      exact ⟨out, hrun, unifies_run hjoins hunify hunifies⟩

/-- The presorting loop: every part is one run; if everything fits at once and the result may
be joined, it goes straight into the final bucket. -/
theorem presortParts_ok (hinternal : c.Presorts weight)
    (hsize : ∀ x, 0 < c.recSize x) {bout : SortBucket ρ} (hbout : bout.Out c)
    (hruns : bout.runs = 1) (join : Bool) (fuel : Nat) {batches : List (List ρ)}
    {bin : SortBucket ρ} {parts : List (SortBucket ρ)}
    {l : List ρ} (hfeeds : Feeds c batches bin l) (hparts : ∀ b ∈ parts, Part c b)
    (hfuel : presortTurns batches bin l < fuel) :
    ∃ batches' bout' parts', presortParts c join fuel batches bin bout parts =
        .ok (batches', bout', parts') ∧ (∀ b ∈ parts', Part c b) ∧
      (bout' = bout ∧ Gathers c.params.key weight (parts.flatMap SortBucket.file ++ l)
          (parts'.flatMap SortBucket.file) ∨
        parts = [] ∧ parts' = [] ∧ join = true ∧ ∃ run, bout.Put c run 1 bout' ∧
          run.Pairwise c.params.Less ∧ Gathers c.params.key weight l run) := by
  induction fuel generalizing batches bin parts l with
  | zero => omega
  | succ fuel ih =>
      have honly : ∀ o ∈ (if parts.isEmpty = true ∧ join = true then some bout else none),
          o.Out c ∧ o.runs + 1 < 2 ^ 32 := by
        intro o ho
        split at ho
        · obtain rfl := Option.some.inj ho
          exact ⟨hbout, by rw [hruns]; decide⟩
        · cases ho
      obtain ⟨r, hrun, hgoes, hends⟩ := sorterPresort_ok hinternal hfeeds (out_sbuckNew c)
        sbuckNew_runs_lt honly
      rw [presortParts, hrun]
      dsimp only [bind, Except.bind]
      -- what the call wrote becomes a part if it is anything
      have hnext : ∀ (run : List ρ), r.out.file = run → run.Pairwise c.params.Less → r.out.Out c →
          (run ≠ [] → Part c r.out) →
          (∀ b ∈ (if sbuckHave c r.out = true then parts ++ [sbuckSwapOut c r.out] else parts),
            Part c b) ∧
          (if sbuckHave c r.out = true then parts ++ [sbuckSwapOut c r.out] else parts).flatMap
            SortBucket.file = parts.flatMap SortBucket.file ++ run := by
        intro run hfile _ hout hpart
        by_cases hhave : sbuckHave c r.out = true
        · have hne : run ≠ [] := hfile ▸ (hout.have_iff hsize).mp hhave
          obtain ⟨hswapped, hfile'⟩ := (hpart hne).swapOut
          rw [if_pos hhave]
          refine ⟨fun b hb => ?_, ?_⟩
          · rcases List.mem_append.mp hb with hb | hb
            · exact hparts b hb
            · obtain rfl := List.mem_singleton.mp hb
              exact hswapped
          · rw [List.flatMap_append, List.flatMap_singleton, hfile', hfile]
        · have hnil : run = [] := by
            by_contra hne
            exact hhave ((hout.have_iff hsize).mpr (hfile ▸ hne))
          rw [if_neg hhave, hnil, List.append_nil]
          exact ⟨hparts, rfl⟩
      cases hmore : r.more with
      | true =>
          obtain ⟨⟨run, left, pos, hout, hsorted, hfeeds', hgathers, hless⟩, honly'⟩ := hgoes hmore
          obtain ⟨hparts', hfiles⟩ := hnext run (by rw [hout]; rfl) hsorted
            (by rw [hout]; exact (out_sbuckNew c).grown run 1 pos)
            (fun _ => by rw [hout]; exact part_grown hsorted pos)
          have hbout' : r.only.getD bout = bout := by
            rw [honly']
            split <;> rfl
          rw [if_pos rfl, hbout']
          obtain ⟨batches', bout', parts', hrec, hall, hresult⟩ := ih hfeeds' hparts' (by omega)
          rw [hrec]
          refine ⟨batches', bout', parts', rfl, hall, ?_⟩
          rcases hresult with ⟨rfl, hkeep⟩ | ⟨hnil, hnil', hjoin, run', hput, hsorted', hkeep⟩
          · refine .inl ⟨rfl, ?_⟩
            rw [hfiles, List.append_assoc] at hkeep
            exact ((Gathers.refl _).append hgathers).trans hkeep
          · rw [hnil] at hfiles
            obtain ⟨hnil₀, rfl⟩ := List.append_eq_nil_iff.mp hfiles.symm
            have hempty : parts = [] := by
              by_cases hhave : sbuckHave c r.out = true
              · rw [if_pos hhave] at hnil
                simp at hnil
              · rwa [if_neg hhave] at hnil
            exact .inr ⟨hempty, hnil', hjoin, run', hput, hsorted', hgathers.trans hkeep⟩
      | false =>
          rw [if_neg Bool.false_ne_true]
          cases hends hmore with
          | none hl hout honly' =>
              have hbout' : r.only.getD bout = bout := by
                rw [honly']
                split <;> rfl
              obtain ⟨hparts', hfiles⟩ := hnext [] (by rcases hout with h | ⟨pos, h⟩ <;> rw [h] <;> rfl)
                .nil (by
                  rcases hout with h | ⟨pos, h⟩ <;> rw [h]
                  · exact out_sbuckNew c
                  · exact (out_sbuckNew c).grown [] 1 pos) (fun h => absurd rfl h)
              rw [hbout']
              refine ⟨_, _, _, rfl, hparts', .inl ⟨rfl, ?_⟩⟩
              rw [hfiles, hl]
              exact .refl _
          | out run pos hnone hout honly' hsorted hgathers =>
              obtain ⟨hparts', hfiles⟩ := hnext run (by rw [hout]; rfl) hsorted
                (by rw [hout]; exact (out_sbuckNew c).grown run 1 pos)
                (fun _ => by rw [hout]; exact part_grown hsorted pos)
              rw [honly', Option.getD_none]
              refine ⟨_, _, _, rfl, hparts', .inl ⟨rfl, ?_⟩⟩
              rw [hfiles]
              exact (Gathers.refl _).append hgathers
          | only o run pos hsome hout honly' hsorted hgathers =>
              by_cases hfirst : parts.isEmpty = true ∧ join = true
              · rw [if_pos hfirst] at hsome
                obtain rfl : bout = o := Option.some.inj hsome
                have hhave : sbuckHave c r.out ≠ true := by
                  rw [hout, ne_eq, (out_sbuckNew c).have_iff hsize]
                  exact fun h => h rfl
                have hempty := List.isEmpty_iff.mp hfirst.1
                rw [if_neg hhave, honly', Option.getD_some]
                exact ⟨_, _, _, rfl, hparts, .inr ⟨hempty, hempty, hfirst.2, run,
                  hbout.put_grown run 1 pos, hsorted, hgathers⟩⟩
              · rw [if_neg hfirst] at hsome
                cases hsome

theorem readAll_ok {parts : List (SortBucket ρ)} (hparts : ∀ b ∈ parts, Part c b) :
    readAll c parts = .ok (parts.map SortBucket.file) := by
  induction parts with
  | nil => rfl
  | cons b parts ih =>
      obtain ⟨b', hread, hunread, -⟩ := (hparts b (by simp)).out.read (hparts b (by simp)).opened
      rw [readAll, hread, ih fun x hx => hparts x (by simp [hx])]
      dsimp only [bind, Except.bind]
      rw [hunread]
      rfl

theorem mergeParts_ok (hjoins : c.params.Joins weight) (hbits : 0 < c.maxMultiwayBits)
    (hbits' : c.maxMultiwayBits ≤ 30) {bout : SortBucket ρ} (hbout : bout.Out c)
    (hruns : bout.runs = 1) (join : Bool) (rest : List (SortBucket ρ)) (fuel : Nat)
    {parts : List (SortBucket ρ)} (hparts : ∀ b ∈ parts, Part c b) (hmany : 2 ≤ parts.length)
    (hfuel : parts.length ≤ fuel) :
    ∃ L, mergeParts c join bout rest fuel parts = .ok L ∧
      Outcome c weight bout rest (parts.flatMap SortBucket.file) L := by
  induction fuel generalizing parts with
  | zero => omega
  | succ fuel ih =>
      have htwo : 2 ≤ 2 ^ c.maxMultiwayBits :=
        (show 2 = 2 ^ 1 from rfl) ▸ Nat.pow_le_pow_right (by omega) hbits
      have hlimit : 2 ^ c.maxMultiwayBits ≤ 2 ^ 30 := Nat.pow_le_pow_right (by omega) hbits'
      generalize hn : 2 ^ c.maxMultiwayBits = n at htwo hlimit
      have hways : ∀ b ∈ parts.take n, Part c b := fun b hb => hparts b (List.mem_of_mem_take hb)
      have hins : ∀ l ∈ (parts.take n).map SortBucket.file, l.Pairwise c.params.Less := by
        intro l hl
        obtain ⟨b, hb, rfl⟩ := List.mem_map.mp hl
        exact (hways b hb).sorted
      obtain ⟨out, hmerge, hsorted, hgathers⟩ :=
        multiwayMerge_gathers hjoins (by simp; omega) hins
      rw [← List.flatMap_def] at hgathers
      have hsplit : parts.flatMap SortBucket.file = (parts.take n).flatMap SortBucket.file ++
          (parts.drop n).flatMap SortBucket.file := by
        rw [← List.flatMap_append, List.take_append_drop]
      rw [mergeParts, hn, if_neg (by simp; omega), readAll_ok hways]
      dsimp only [bind, Except.bind]
      rw [hmerge]
      dsimp only
      rw [hsplit]
      by_cases hlast : (parts.drop n).isEmpty = true
      · have hnil := List.isEmpty_iff.mp hlast
        rw [if_pos hlast, hnil, List.flatMap_nil, List.append_nil]
        cases join with
        | true =>
            obtain ⟨bout', hput, hdone⟩ := hbout.put_ok out 1 (by simp) (by rw [hruns]; decide)
            rw [if_pos rfl, hput]
            exact Outcome.join rest hruns hdone hsorted hgathers none
        | false =>
            obtain ⟨pos, hput⟩ := (out_sbuckNew c).put out one_ne_zero sbuckNew_runs_lt
            have hpart := part_grown (c := c) hsorted pos
            rw [if_neg Bool.false_ne_true, hput]
            dsimp only
            rw [sbuckInsOrJoin_place hruns]
            exact ⟨_, rfl, .placed _ hpart.out hpart.custom hpart.sorted (.inr hpart.runs) hgathers⟩
      · obtain ⟨pos, hput⟩ := (out_sbuckNew c).put out one_ne_zero sbuckNew_runs_lt
        obtain ⟨hpart, hfile⟩ := (part_grown (c := c) hsorted pos).swapOut
        have hleft : 0 < (parts.drop n).length := List.length_pos_iff.mpr fun h => hlast (by rw [h]; rfl)
        rw [List.length_drop] at hleft
        rw [if_neg hlast, hput]
        dsimp only
        have hparts' : ∀ b ∈ parts.drop n ++
            [sbuckSwapOut c ((sbuckNew : SortBucket ρ).grown out 1 pos)], Part c b := by
          intro b hb
          rcases List.mem_append.mp hb with hb | hb
          · exact hparts b (List.mem_of_mem_drop hb)
          · obtain rfl := List.mem_singleton.mp hb
            exact hpart
        obtain ⟨L, hrec, houtcome⟩ := ih hparts' (by simp; omega) (by simp; omega)
        rw [hrec]
        refine ⟨L, rfl, houtcome.of_gathers ?_⟩
        rw [List.flatMap_append, List.flatMap_singleton, hfile]
        exact (hgathers.append (.refl _)).trans (.of_perm List.perm_append_comm)

theorem sorterMultiway_ok (hinternal : c.Presorts weight)
    (hjoins : c.params.Joins weight) (hsize : ∀ x, 0 < c.recSize x)
    (hbits : 0 < c.maxMultiwayBits) (hbits' : c.maxMultiwayBits ≤ 30)
    (hpresort : c.noPresort = false) {batches : List (List ρ)} {bout b : SortBucket ρ} {l : List ρ}
    (hfeeds : Feeds c batches b l) (hbout : bout.Out c) (hruns : bout.runs = 1)
    (rest : List (SortBucket ρ)) (hlen : l.length ≤ b.file.length + batches.flatten.length) :
    ∃ batches' L, sorterMultiway c batches bout b rest = .ok (batches', L) ∧
      Outcome c weight bout rest l L := by
  obtain ⟨join, hjoin⟩ := sbuckJoinTo_ok (c := c) hruns
  have hturns : presortTurns batches b l ≤ l.length + batches.length := by
    rw [presortTurns]
    split <;> omega
  obtain ⟨batches', bout', parts, hrun, hparts, hresult⟩ := presortParts_ok hinternal hsize hbout
    hruns join (b.file.length + batches.flatten.length + batches.length + 1) hfeeds
    (fun p (hp : p ∈ []) => absurd hp List.not_mem_nil) (by omega)
  rw [sorterMultiway, hjoin]
  dsimp only [bind, Except.bind]
  rw [if_neg (by simp [hpresort]), hrun]
  dsimp only
  rcases hresult with ⟨rfl, hgathers⟩ | ⟨-, rfl, rfl, run, hput, hsorted, hgathers⟩
  · rw [List.flatMap_nil, List.nil_append] at hgathers
    by_cases hfew : parts.length ≤ 1
    · rw [if_pos hfew, sbuckInsOrJoin_place hruns]
      cases parts with
      | nil =>
          refine ⟨batches', _, rfl, .joined bout' [] ⟨hbout, rfl, rfl, rfl, ?_, fun h => absurd rfl h⟩
            .nil hgathers⟩
          exact (List.append_nil _).symm
      | cons part parts =>
          obtain rfl : parts = [] := List.length_eq_zero_iff.mp (by simpa using hfew)
          have hpart := hparts part (by simp)
          rw [List.flatMap_cons, List.flatMap_nil, List.append_nil] at hgathers
          exact ⟨batches', _, rfl, .placed part hpart.out hpart.custom hpart.sorted
            (.inr hpart.runs) hgathers⟩
    · obtain ⟨L, hmerge, houtcome⟩ := mergeParts_ok hjoins hbits hbits' hbout hruns join rest
        parts.length hparts (by omega) le_rfl
      rw [if_neg hfew, if_neg (by omega), hmerge]
      exact ⟨batches', L, rfl, houtcome.of_gathers hgathers⟩
  · obtain ⟨L, hins, houtcome⟩ := Outcome.join rest hruns hput hsorted hgathers none
    have hins' : sbuckInsOrJoin none (true && true) bout' rest = .ok L := hins
    rw [if_pos (by simp)]
    dsimp only [List.head?_nil, List.isEmpty_nil]
    rw [hins']
    exact ⟨batches', L, rfl, houtcome⟩

/-! ## Radix splits -/

theorem radixSplitTo_eq (hash : ρ → Nat) (bitpos numbits : Nat) (l : List ρ) (outs : Nat → List ρ)
    (i : Nat) :
    radixSplitTo hash bitpos numbits l outs i =
      outs i ++ l.filter fun x => hash x >>> bitpos % 2 ^ numbits = i := by
  induction l generalizing outs with
  | nil => simp [radixSplitTo]
  | cons x l ih =>
      rw [radixSplitTo, ih, Nat.and_two_pow_sub_one_eq_mod, List.filter_cons]
      by_cases hx : hash x >>> bitpos % 2 ^ numbits = i
      · rw [hx, Function.update_self, if_pos (by simp)]
        simp
      · rw [Function.update_of_ne (Ne.symm hx), if_neg (by simpa using hx)]

/-- A bucket of unsorted records after a split. -/
structure Fresh (c : SortContext ρ κ) (hashBits : Nat) (b : SortBucket ρ) (l : List ρ) : Prop where
  out : b.Out c
  custom : b.customPresort = false
  runs : b.runs = 0
  hashBits : b.hashBits = hashBits
  file : b.file = l

omit [LinearOrder κ] in
theorem radixOuts_ok (c : SortContext ρ κ) (hashBits nbuck : Nat) (outs : Nat → List ρ)
    (left i : Nat) :
    ∃ L, radixOuts c hashBits nbuck outs left i = .ok L ∧
      List.Forall₂ (Fresh c hashBits) L ((List.range' i left).map outs) := by
  induction left generalizing i with
  | zero => exact ⟨[], rfl, .nil⟩
  | succ left ih =>
      obtain ⟨L, hrec, hall⟩ := ih (i + 1)
      have hnew : ({ (sbuckNew : SortBucket ρ) with hashBits := hashBits } : SortBucket ρ).Out c :=
        ⟨rfl, fun h => absurd h Bool.false_ne_true, fun _ => ⟨rfl, rfl, rfl, rfl⟩,
          fun h => absurd h Bool.false_ne_true⟩
      obtain ⟨b, hfill, hfresh⟩ : ∃ b, SortBucket.fill (outs i)
          { (sbuckNew : SortBucket ρ) with hashBits := hashBits } = .ok b ∧
          Fresh c hashBits b (outs i) := by
        rw [SortBucket.fill]
        by_cases hempty : (outs i).isEmpty = true
        · rw [if_pos hempty, List.isEmpty_iff.mp hempty]
          exact ⟨_, rfl, hnew, rfl, rfl, rfl, rfl⟩
        · obtain ⟨pos, hwrite⟩ := hnew.write
          rw [if_neg hempty, hwrite]
          exact ⟨_, rfl, ⟨rfl, fun _ => .inl rfl, fun h => absurd h.symm Bool.false_ne_true,
            fun h => absurd h Bool.false_ne_true⟩, rfl, rfl, rfl, rfl⟩
      rw [radixOuts, hfill, List.range'_succ, List.map_cons]
      dsimp only [bind, Except.bind]
      rw [hrec]
      refine ⟨_, rfl, .cons ?_ hall⟩
      split
      · obtain ⟨hout, hfile, hruns, -, hcustom, hbits⟩ := hfresh.out.swapOut
        exact ⟨hout, hcustom.trans hfresh.custom, hruns.trans hfresh.runs,
          hbits.trans hfresh.hashBits, hfile.trans hfresh.file⟩
      · exact hfresh

/-- Everything in the first list comes before everything in the second. -/
def Precedes (p : SortParams ρ κ) (l m : List ρ) : Prop := ∀ x ∈ l, ∀ y ∈ m, p.key x < p.key y

/-- A radix split: the buckets have the records in order of their hashes, and those of one
bucket have the same hash above its remaining bits. -/
theorem sorterRadix_ok {hash : ρ → Nat}
    (hmono : ∀ x y, c.params.key x ≤ c.params.key y → hash x ≤ hash y) {batches : List (List ρ)}
    {b : SortBucket ρ} {l : List ρ} {bits : Nat} (hfeeds : Feeds c batches b l)
    (hcustom : b.customPresort = false) (hhash : c.hash = some hash)
    (bout : SortBucket ρ) (rest : List (SortBucket ρ))
    (hsmall : addedBits c bits ≤ 30) (hbits : addedBits c bits ≤ b.hashBits) :
    ∃ bs ls, sorterRadix c hash batches bout b rest bits = .ok (batches, bout :: bs ++ rest) ∧
      List.Forall₂ (Fresh c (b.hashBits - addedBits c bits)) bs ls ∧
      ls.length = 2 ^ addedBits c bits ∧ ls.flatten.Perm l ∧
      ls.Pairwise (Precedes c.params) ∧
      ∀ m ∈ ls, c.Alike (b.hashBits - addedBits c bits) m := by
  obtain ⟨b', hread, hunread, -, -, -, hb', halike⟩ := hfeeds.read hcustom
  rw [sorterRadix]
  dsimp only
  generalize addedBits c bits = n at hsmall hbits ⊢
  obtain ⟨bs, hrun, hfresh⟩ := radixOuts_ok c (b.hashBits - n) (2 ^ n)
    (radixSplitTo hash (b.hashBits - n) n l fun _ => []) (2 ^ n) 0
  have hdigit : ∀ x ∈ l, ∀ y ∈ l, hash x >>> (b.hashBits - n) / 2 ^ n =
      hash y >>> (b.hashBits - n) / 2 ^ n := by
    intro x hx y hy
    have h := halike.agree hash hhash x hx y hy
    rwa [← Nat.sub_add_cancel hbits, Nat.shiftRight_add, Nat.shiftRight_add,
      Nat.shiftRight_eq_div_pow _ n, Nat.shiftRight_eq_div_pow _ n] at h
  have hlists : ∀ i, radixSplitTo hash (b.hashBits - n) n l (fun _ => []) i =
      l.filter fun x => hash x >>> (b.hashBits - n) % 2 ^ n = i := fun i => by
    rw [radixSplitTo_eq, List.nil_append]
  refine ⟨bs, _, ?_, hfresh, by simp, ?_, ?_, ?_⟩
  · rw [if_neg (by omega), hread]
    dsimp only [bind, Except.bind]
    rw [hunread, hb', hrun]
    rfl
  · have hperm : (Scatter.arranged (fun x => hash x >>> (b.hashBits - n) % 2 ^ n) l (2 ^ n)).Perm l :=
      Scatter.arranged_perm fun x _ => Nat.mod_lt _ (by positivity)
    rw [Scatter.arranged, List.flatMap_def] at hperm
    rw [← List.range_eq_range', List.map_congr_left fun i _ => hlists i]
    exact hperm
  · rw [List.pairwise_map]
    refine (List.pairwise_lt_range' 1).imp fun {i j} hij x hx y hy => ?_
    rw [hlists, List.mem_filter, decide_eq_true_iff] at hx hy
    have hsame := hdigit x hx.1 y hy.1
    have hx' := Nat.div_add_mod (hash x >>> (b.hashBits - n)) (2 ^ n)
    have hy' := Nat.div_add_mod (hash y >>> (b.hashBits - n)) (2 ^ n)
    by_contra hle
    have hhash := hmono y x (not_lt.mp hle)
    have hshift : hash y >>> (b.hashBits - n) ≤ hash x >>> (b.hashBits - n) := by
      rw [Nat.shiftRight_eq_div_pow, Nat.shiftRight_eq_div_pow]
      exact Nat.div_le_div_right hhash
    rw [hsame] at hx'
    omega
  · intro m hm
    obtain ⟨i, -, rfl⟩ := List.mem_map.mp hm
    refine ⟨(Nat.sub_le _ _).trans halike.bits, fun hash' hhash' x hx y hy => ?_⟩
    obtain rfl := Option.some.inj (hhash.symm.trans hhash')
    rw [hlists, List.mem_filter, decide_eq_true_iff] at hx hy
    have hsame := hdigit x hx.1 y hy.1
    have hx' := Nat.div_add_mod (hash x >>> (b.hashBits - n)) (2 ^ n)
    have hy' := Nat.div_add_mod (hash y >>> (b.hashBits - n)) (2 ^ n)
    rw [hsame, hx.2] at hx'
    rw [hy.2] at hy'
    exact hx'.symm.trans hy'

end OpenAAA.Sorter
