import OpenAAA.Generic.ArraySorter
import OpenAAA.Generic.GovernStrategies
import OpenAAA.Generic.InternalPresorts

/-!
Whole runs of `sorter_run`. The final bucket holds what is done, the buckets behind it hold the
rest in the order of their keys, and every decision of `sorter_decide` brings the end nearer.
-/

namespace OpenAAA.Sorter

open Merging Sys

variable {ρ κ : Type} [LinearOrder κ] {c : SortContext ρ κ} {M : Type} [AddCommMonoid M]
  {weight : ρ → M}

/-! ## The buckets of a run -/

/-- What the sorter asks of its including file and its configuration. -/
structure SortContext.Fits (c : SortContext ρ κ) (weight : ρ → M) : Prop where
  presorts : c.Presorts weight
  joins : c.params.Joins weight
  recSize : ∀ x, 0 < c.recSize x
  hash : ∀ hash ∈ c.hash, ∀ x y, c.params.key x ≤ c.params.key y → hash x ≤ hash y
  radix : c.maxRadixBits ≤ 30
  added : c.addRadixBits + c.maxRadixBits < 2 ^ 32
  multiway : c.maxMultiwayBits ≤ 30

/-- A bucket behind the final one, with the records it has. -/
inductive Waiting (c : SortContext ρ κ) (batches : List (List ρ)) (b : SortBucket ρ) :
    List ρ → Prop
  | sorted (hout : b.Out c) (hcustom : b.customPresort = false)
      (hsorted : b.file.Pairwise c.params.Less) (hruns : b.file = [] ∨ b.runs = 1) :
      Waiting c batches b b.file
  | empty (hhave : sbuckHave c b = false) : Waiting c batches b []
  | unsorted {l : List ρ} (hfeeds : Feeds c batches b l) (hruns : b.runs = 0)
      (hsize : sbuckHave c b = false → l = []) (hfew : presortTurns batches b l + 3 < 2 ^ 32) :
      Waiting c batches b l

/-- The final bucket with what is `done`, in front of the others with `ls`. -/
structure Governed (c : SortContext ρ κ) (weight : ρ → M) (pre input : List ρ)
    (batches : List (List ρ)) (bout : SortBucket ρ) (bs : List (SortBucket ρ)) (done : List ρ)
    (ls : List (List ρ)) : Prop where
  out : bout.Out c
  final : bout.final = true
  runs : bout.runs = 1
  file : bout.file = pre ++ done
  waiting : List.Forall₂ (Waiting c batches) bs ls
  plain : ∀ b ∈ bs.tail, b.customPresort = false
  sorted : done.Pairwise c.params.Less
  order : (done :: ls).Pairwise (Precedes c.params)
  gathers : Gathers c.params.key weight input (done ++ ls.flatten)

/-- How many decisions a bucket may still take. -/
def SortBucket.cost (c : SortContext ρ κ) (b : SortBucket ρ) : Nat :=
  if sbuckHave c b = true ∧ b.runs = 0 then 3 * 4 ^ b.hashBits else 1

def totalCost (c : SortContext ρ κ) (bs : List (SortBucket ρ)) : Nat :=
  (bs.map (SortBucket.cost c)).sum

/-- Where the sorter fails: the additional radix bits may exceed the hash bits that are left, without
memory an unknown size is shifted too far, and without presorting the two-way merge follows a null
pointer. -/
def SortContext.Fails (c : SortContext ρ κ) (fault : GovernFault) : Prop :=
  fault = .shift ∧ (c.hash ≠ none ∧ 0 < c.addRadixBits ∨ c.mem = 0) ∨
    fault = .nullBucket ∧ c.noPresort = true

theorem Precedes.less {l m : List ρ} (h : Precedes c.params l m) :
    ∀ x ∈ l, ∀ y ∈ m, c.params.Less x y := by
  intro x hx y hy
  rw [less_iff]
  split
  · exact h x hx y hy
  · exact (h x hx y hy).le

theorem Precedes.of_gathers_left {l l' m : List ρ} (h : Precedes c.params l m)
    (hl : Gathers c.params.key weight l l') : Precedes c.params l' m := by
  intro x hx y hy
  obtain ⟨z, hz, hzx⟩ := hl.keys x hx
  exact hzx ▸ h z hz y hy

theorem Precedes.of_gathers_right {l m m' : List ρ} (h : Precedes c.params l m)
    (hm : Gathers c.params.key weight m m') : Precedes c.params l m' := by
  intro x hx y hy
  obtain ⟨z, hz, hzy⟩ := hm.keys y hy
  exact hzy ▸ h x hx z hz

/-- The first of the lists behind `done` may become part of it. -/
theorem precedes_append {done l l' : List ρ} {ls : List (List ρ)}
    (h : (done :: l :: ls).Pairwise (Precedes c.params)) (hl : Gathers c.params.key weight l l') :
    ((done ++ l') :: ls).Pairwise (Precedes c.params) := by
  obtain ⟨hdone, hrest⟩ := List.pairwise_cons.mp h
  obtain ⟨hfirst, hls⟩ := List.pairwise_cons.mp hrest
  refine List.pairwise_cons.mpr ⟨fun m hm x hx => ?_, hls⟩
  rcases List.mem_append.mp hx with hx | hx
  · exact hdone m (by simp [hm]) x hx
  · exact (hfirst m hm).of_gathers_left hl x hx

/-! ## Single decisions -/

theorem Feeds.length_le {batches : List (List ρ)} {b : SortBucket ρ} {l : List ρ}
    (h : Feeds c batches b l) : l.length ≤ b.file.length + batches.flatten.length := by
  cases h with
  | reading =>
      rw [SortBucket.unread, List.length_drop]
      omega
  | written => exact Nat.le_add_right _ _
  | custom => exact Nat.le_add_left _ _

theorem Waiting.of_plain {batches batches' : List (List ρ)} {b : SortBucket ρ} {l : List ρ}
    (h : Waiting c batches b l) (hplain : b.customPresort = false) : Waiting c batches' b l := by
  cases h with
  | sorted hout hcustom hsorted hruns => exact .sorted hout hcustom hsorted hruns
  | empty hhave => exact .empty hhave
  | unsorted hfeeds hruns hsize hfew =>
      have hturns : ∀ batches, presortTurns batches b l = l.length := fun batches => by
        rw [presortTurns, hplain, if_neg Bool.false_ne_true, Nat.add_zero]
      refine .unsorted ?_ hruns hsize (by rw [hturns] at hfew ⊢; exact hfew)
      cases hfeeds with
      | reading hcustom hread hswapped halike => exact .reading hcustom hread hswapped halike
      | written hcustom hout hopen halike => exact .written hcustom hout hopen halike
      | custom hcustom => rw [hplain] at hcustom; cases hcustom

theorem waiting_of_plain {batches batches' : List (List ρ)} {bs : List (SortBucket ρ)}
    {ls : List (List ρ)} (h : List.Forall₂ (Waiting c batches) bs ls)
    (hplain : ∀ b ∈ bs, b.customPresort = false) : List.Forall₂ (Waiting c batches') bs ls := by
  induction h with
  | nil => exact .nil
  | cons hb _ ih =>
      exact .cons (hb.of_plain (hplain _ (by simp))) (ih fun b hb => hplain b (by simp [hb]))

theorem forall_tail_append {P : SortBucket ρ → Prop} {bs rest : List (SortBucket ρ)}
    (hbs : ∀ b ∈ bs, P b) (hrest : ∀ b ∈ rest, P b) : ∀ b ∈ (bs ++ rest).tail, P b := by
  intro b hb
  rcases List.mem_append.mp (List.mem_of_mem_tail hb) with hb | hb
  · exact hbs b hb
  · exact hrest b hb

section Decisions

variable {pre input done l : List ρ} {batches : List (List ρ)} {bout b : SortBucket ρ}
  {rest : List (SortBucket ρ)} {ls : List (List ρ)}

/-- The first bucket was empty. -/
theorem Governed.drop (h : Governed c weight pre input batches bout (b :: rest) done (l :: ls))
    (hl : l = []) : Governed c weight pre input batches bout rest done ls := by
  obtain ⟨hdone, hrest⟩ := List.pairwise_cons.mp h.order
  refine ⟨h.out, h.final, h.runs, h.file, (List.forall₂_cons.mp h.waiting).2,
    fun x hx => h.plain x (List.mem_of_mem_tail hx), h.sorted,
    List.pairwise_cons.mpr ⟨fun m hm => hdone m (by simp [hm]), (List.pairwise_cons.mp hrest).2⟩, ?_⟩
  have hgathers := h.gathers
  rwa [hl, List.flatten_cons, List.nil_append] at hgathers

/-- The records of the first bucket have been added to the final one. -/
theorem Governed.join (h : Governed c weight pre input batches bout (b :: rest) done (l :: ls))
    {bout' : SortBucket ρ} {l' : List ρ} (hout : bout'.Out c) (hfinal : bout'.final = true)
    (hruns : bout'.runs = 1) (hfile : bout'.file = bout.file ++ l')
    (hsorted : l'.Pairwise c.params.Less) (hgathers : Gathers c.params.key weight l l')
    (batches' : List (List ρ)) :
    Governed c weight pre input batches' bout' rest (done ++ l') ls := by
  obtain ⟨hdone, -⟩ := List.pairwise_cons.mp h.order
  refine ⟨hout, hfinal, hruns, by rw [hfile, h.file, List.append_assoc],
    waiting_of_plain (List.forall₂_cons.mp h.waiting).2 h.plain,
    fun x hx => h.plain x (List.mem_of_mem_tail hx),
    List.pairwise_append.mpr ⟨h.sorted, hsorted, ?_⟩, precedes_append h.order hgathers, ?_⟩
  · exact ((hdone l (by simp)).of_gathers_right hgathers).less
  · have hall := h.gathers
    rw [List.flatten_cons, ← List.append_assoc] at hall
    exact hall.trans (((Gathers.refl done).append hgathers).append (.refl _))

/-- What a strategy leaves is governed again. -/
theorem Governed.outcome
    (h : Governed c weight pre input batches bout (b :: rest) done (l :: ls))
    {L : List (SortBucket ρ)} (houtcome : Outcome c weight bout rest l L)
    (batches' : List (List ρ)) :
    ∃ bout' bs' done' ls', L = bout' :: bs' ∧
      Governed c weight pre input batches' bout' bs' done' ls' ∧
      totalCost c bs' ≤ totalCost c rest + 1 := by
  cases houtcome with
  | joined bout' l' hput hsorted hgathers =>
      exact ⟨bout', rest, done ++ l', ls, rfl, h.join hput.out (hput.final.trans h.final)
        (hput.runs.trans h.runs) hput.file hsorted hgathers batches', Nat.le_succ _⟩
  | placed b' hout hcustom hsorted hruns hgathers =>
      obtain ⟨hdone, hrest⟩ := List.pairwise_cons.mp h.order
      obtain ⟨hfirst, hls⟩ := List.pairwise_cons.mp hrest
      refine ⟨bout, b' :: rest, done, b'.file :: ls, rfl, ⟨h.out, h.final, h.runs, h.file,
        .cons (.sorted hout hcustom hsorted hruns)
          (waiting_of_plain (List.forall₂_cons.mp h.waiting).2 h.plain), h.plain, h.sorted, ?_, ?_⟩, ?_⟩
      · refine List.pairwise_cons.mpr ⟨fun m hm => ?_, List.pairwise_cons.mpr
          ⟨fun m hm => (hfirst m hm).of_gathers_left hgathers, hls⟩⟩
        rcases List.mem_cons.mp hm with rfl | hm
        · exact (hdone l (by simp)).of_gathers_right hgathers
        · exact hdone m (by simp [hm])
      · have hall := h.gathers
        rw [List.flatten_cons] at hall ⊢
        exact hall.trans ((Gathers.refl done).append (hgathers.append (.refl _)))
      · have hcost : b'.cost c = 1 := by
          rw [SortBucket.cost, if_neg]
          rintro ⟨hhave, hzero⟩
          rcases hruns with hfile | hone
          · rw [sbuckHave, hout.size_eq, hfile] at hhave
            simp [bytes] at hhave
          · omega
        rw [totalCost, List.map_cons, List.sum_cons, hcost, Nat.add_comm]
        rfl

theorem waiting_of_fresh (hsize : ∀ x, 0 < c.recSize x) (batches : List (List ρ)) {hashBits : Nat}
    {bs : List (SortBucket ρ)} {ls : List (List ρ)} (hfresh : List.Forall₂ (Fresh c hashBits) bs ls)
    (halike : ∀ m ∈ ls, c.Alike hashBits m) (hfew : ∀ m ∈ ls, m.length + 3 < 2 ^ 32) :
    List.Forall₂ (Waiting c batches) bs ls ∧ (∀ b ∈ bs, b.customPresort = false) ∧
      totalCost c bs ≤ bs.length * (3 * 4 ^ hashBits) := by
  induction hfresh with
  | nil => exact ⟨.nil, by simp, Nat.zero_le _⟩
  | @cons b m bs ls hb _ ih =>
      obtain ⟨hwaiting, hplain, hcost⟩ := ih (fun m hm => halike m (by simp [hm]))
        fun m hm => hfew m (by simp [hm])
      refine ⟨.cons ?_ hwaiting, ?_, ?_⟩
      · have hhave := hb.out.have_iff hsize
        rw [hb.file] at hhave
        by_cases hm : m = []
        · subst hm
          exact .empty (by simpa using hhave)
        · have hfeeds : Feeds c batches b b.file :=
            .written hb.custom hb.out (hb.out.openWrite_of (by rwa [hb.file])) <| by
              rw [hb.hashBits, hb.file]
              exact halike m (by simp)
          rw [hb.file] at hfeeds
          refine .unsorted hfeeds hb.runs (fun hnone => ?_) ?_
          · rw [hhave.mpr hm] at hnone
            cases hnone
          · rw [presortTurns, hb.custom, if_neg Bool.false_ne_true]
            exact hfew m (by simp)
      · rintro x hx
        rcases List.mem_cons.mp hx with rfl | hx
        · exact hb.custom
        · exact hplain x hx
      · have hpos : 1 ≤ 4 ^ hashBits := Nat.one_le_pow _ _ (by omega)
        have hone : b.cost c ≤ 3 * 4 ^ hashBits := by
          rw [SortBucket.cost, hb.hashBits]
          split <;> omega
        rw [totalCost, List.map_cons, List.sum_cons, List.length_cons, Nat.succ_mul, Nat.add_comm]
        exact Nat.add_le_add hcost hone

theorem split_cost {bits hashBits : Nat} (hbits : 0 < bits) (hle : bits ≤ hashBits) :
    2 ^ bits * (3 * 4 ^ (hashBits - bits)) < 3 * 4 ^ hashBits := by
  have hpow : 4 ^ hashBits = 4 ^ (hashBits - bits) * (2 ^ bits * 2 ^ bits) := by
    rw [← Nat.mul_pow, ← Nat.pow_add, Nat.sub_add_cancel hle]
  have htwo : 2 ^ 1 ≤ 2 ^ bits := Nat.pow_le_pow_right (by omega) hbits
  have hpos : 0 < 2 ^ bits * (3 * 4 ^ (hashBits - bits)) := by positivity
  calc 2 ^ bits * (3 * 4 ^ (hashBits - bits))
      < 2 ^ bits * (2 ^ bits * (3 * 4 ^ (hashBits - bits))) := by nlinarith
    _ = 3 * 4 ^ hashBits := by rw [hpow]; ring

/-- A radix split of the first bucket. -/
theorem Governed.radix (hfits : c.Fits weight)
    (h : Governed c weight pre input batches bout (b :: rest) done (l :: ls))
    (hfeeds : Feeds c batches b l) (hcustom : b.customPresort = false) {hash : ρ → Nat}
    (hhash : c.hash = some hash) {bits : Nat} (hpos : 0 < addedBits c bits)
    (hbits : addedBits c bits ≤ b.hashBits) (hfew : l.length + 3 < 2 ^ 32) :
    ∃ bs ls', sorterRadix c hash batches bout b rest bits = .ok (batches, bout :: bs) ∧
      Governed c weight pre input batches bout bs done ls' ∧
      totalCost c bs < 3 * 4 ^ b.hashBits + totalCost c rest := by
  obtain ⟨bs, ls', hrun, hfresh, hlen, hperm, horder, halike⟩ :=
    sorterRadix_ok (hfits.hash hash hhash) hfeeds hcustom hhash bout rest
      ((min_le_right _ _).trans hfits.radix) hbits
  have hlength : ∀ m ∈ ls', m.length + 3 < 2 ^ 32 := fun m hm => by
    have hle := (List.sublist_flatten_of_mem hm).length_le
    have hall := hperm.length_eq
    omega
  obtain ⟨hwaiting, hplain, hcost⟩ := waiting_of_fresh hfits.recSize batches hfresh halike hlength
  have hsplit := split_cost hpos hbits
  obtain ⟨hdone, hrest⟩ := List.pairwise_cons.mp h.order
  obtain ⟨hfirst, hls⟩ := List.pairwise_cons.mp hrest
  have hsub : ∀ m ∈ ls', ∀ x ∈ m, x ∈ l := fun m hm x hx =>
    hperm.mem_iff.mp (List.mem_flatten.mpr ⟨m, hm, hx⟩)
  refine ⟨bs ++ rest, ls' ++ ls, hrun, ⟨h.out, h.final, h.runs, h.file,
    List.rel_append hwaiting (List.forall₂_cons.mp h.waiting).2, forall_tail_append hplain h.plain, h.sorted, ?_, ?_⟩, ?_⟩
  · refine List.pairwise_cons.mpr ⟨fun m hm => ?_, List.pairwise_append.mpr ⟨horder, hls, ?_⟩⟩
    · rcases List.mem_append.mp hm with hm | hm
      · exact fun x hx y hy => hdone l (by simp) x hx y (hsub m hm y hy)
      · exact hdone m (by simp [hm])
    · exact fun m hm m' hm' x hx y hy => hfirst m' hm' x (hsub m hm x hx) y hy
  · have hall := h.gathers
    rw [List.flatten_cons] at hall
    rw [List.flatten_append]
    exact hall.trans (.of_perm ((hperm.symm.append_right _).append_left _))
  · have hcount := hfresh.length_eq.trans hlen
    rw [hcount] at hcost
    rw [totalCost, List.map_append, List.sum_append]
    change totalCost c bs + totalCost c rest < _
    omega

/-- What `sorter_decide` may come to. -/
def Decided (c : SortContext ρ κ) (weight : ρ → M) (pre input : List ρ) (cost : Nat)
    (r : Except GovernFault (Sorted ρ)) : Prop :=
  (∃ batches bout bs done ls, r = .ok (batches, bout :: bs) ∧
    Governed c weight pre input batches bout bs done ls ∧ totalCost c bs < cost) ∨
  ∃ fault, r = .error fault ∧ c.Fails fault

theorem Governed.multiway (hfits : c.Fits weight)
    (h : Governed c weight pre input batches bout (b :: rest) done (l :: ls))
    (hfeeds : Feeds c batches b l) {bits cost : Nat} (hbits : multiwayBitsOf c bits ≠ 0)
    (hcost : totalCost c rest + 1 < cost) :
    Decided c weight pre input cost (sorterMultiway c batches bout b rest) := by
  have hpresort : c.noPresort = false ∧ 0 < c.maxMultiwayBits := by
    rw [multiwayBitsOf] at hbits
    split at hbits
    · exact absurd rfl hbits
    · next hno =>
        refine ⟨by simpa using (not_or.mp hno).2, Nat.pos_of_ne_zero fun hzero => hbits ?_⟩
        simp [hzero]
  obtain ⟨batches', L, hrun, houtcome⟩ := sorterMultiway_ok hfits.presorts hfits.joins hfits.recSize
    hpresort.2 hfits.multiway hpresort.1 hfeeds h.out h.runs rest hfeeds.length_le
  obtain ⟨bout', bs', done', ls', rfl, hgoverned, hless⟩ := h.outcome houtcome batches'
  exact .inl ⟨batches', bout', bs', done', ls', hrun, hgoverned, by omega⟩

end Decisions

/-! ## Whole runs -/

/-- The records of the input. -/
def SortInput.records : SortInput ρ → List ρ
  | .stream records _ => records
  | .batches l => l.flatten

/-- Hashes have the bits that the context says, a stream whose size is zero has no records, and
a custom presorter gives sorted batches. There are so few of all these that runs can be counted. -/
def SortInput.Sound (c : SortContext ρ κ) : SortInput ρ → Prop
  | .stream records size =>
    (size = 0 → records = []) ∧ (∀ hash ∈ c.hash, ∀ x ∈ records, hash x < 2 ^ c.hashBits) ∧
      records.length + 3 < 2 ^ 32
  | .batches l => (∀ batch ∈ l, batch.Pairwise c.params.Less) ∧
      l.flatten.length + l.length + 3 < 2 ^ 32

/-- `array_sort` without threads for keys that are their own records. -/
def arraySort [Inhabited κ] (a : AsortContext κ) (radix : Bool) (hashBits : Nat) (l : List κ) :
    Except MergeFault (List κ) :=
  match asortRun a (fun i => l.getD i default) (fun _ => default) l.length hashBits radix with
  | .error _ => .error .stuck
  | .ok (swap, array, buffer) =>
    .ok (Scatter.slice (if swap then buffer else array) 0 l.length)

end OpenAAA.Sorter
