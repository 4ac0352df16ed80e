import OpenAAA.Generic.Govern

/-!
What the strategies of `govern.c` rely on: the state of a bucket that is written, that of a
bucket that is read, and one pass of presorting or merging between them.
-/

namespace OpenAAA.Sorter

open Merging

variable {ρ κ : Type} {c : SortContext ρ κ}

/-! ## Buckets that are written -/

/-- A bucket that has been written to, or that has no file yet. -/
structure SortBucket.Out (c : SortContext ρ κ) (b : SortBucket ρ) : Prop where
  openRead : b.openRead = false
  opened : b.openWrite = true → b.fb = true ∨ b.swappedOut = true
  closed : b.openWrite = false → b.file = [] ∧ b.fb = false ∧ b.swappedOut = false ∧ b.size = 0
  size : b.swappedOut = true → b.size = bytes c b.file

/-- `b` with more records in its file. -/
def SortBucket.grown (b : SortBucket ρ) (l : List ρ) (runs pos : Nat) : SortBucket ρ :=
  { b with
    fb := true, openWrite := true, swappedOut := false, pos := pos
    file := b.file ++ l, runs := b.runs + runs }

theorem out_sbuckNew (c : SortContext ρ κ) : (sbuckNew : SortBucket ρ).Out c :=
  ⟨rfl, fun h => absurd h Bool.false_ne_true, fun _ => ⟨rfl, rfl, rfl, rfl⟩,
    fun h => absurd h Bool.false_ne_true⟩

theorem sbuckNew_runs_lt : (sbuckNew : SortBucket ρ).runs + 1 < 2 ^ 32 :=
  show 0 + 1 < 2 ^ 32 by decide

theorem SortBucket.Out.grown {b : SortBucket ρ} (h : b.Out c) (l : List ρ) (runs pos : Nat) :
    (b.grown l runs pos).Out c :=
  ⟨h.openRead, fun _ => .inl rfl, fun h => absurd h.symm Bool.false_ne_true,
    fun h => absurd h Bool.false_ne_true⟩

theorem SortBucket.Out.write {b : SortBucket ρ} (h : b.Out c) :
    ∃ pos, sbuckWrite b = .ok (b.grown [] 0 pos) := by
  obtain ⟨hread, hopened, hclosed, -⟩ := h
  cases b with
  | mk final source customPresort openWrite openRead swappedOut fb file pos size runs hashBits =>
      dsimp only at hread hopened hclosed
      cases openWrite with
      | true =>
          cases swappedOut with
          | true => exact ⟨file.length, by simp [sbuckWrite, sbuckSwapIn, SortBucket.grown]⟩
          | false =>
              have hfb : fb = true := (hopened rfl).resolve_right Bool.false_ne_true
              exact ⟨pos, by simp [sbuckWrite, sbuckSwapIn, SortBucket.grown, hfb]⟩
      | false =>
          obtain ⟨hfile, hfb, hswapped, -⟩ := hclosed rfl
          exact ⟨0, by simp [sbuckWrite, sbuckSwapIn, SortBucket.grown, hfile, hswapped, hread]⟩

theorem SortBucket.Out.put {b : SortBucket ρ} (h : b.Out c) (l : List ρ) {runs : Nat}
    (hruns : runs ≠ 0) (hfew : b.runs + runs < 2 ^ 32) :
    ∃ pos, b.put l runs = .ok (b.grown l runs pos) := by
  obtain ⟨pos, hwrite⟩ := h.write
  have hcounted : (b.runs + 0 + runs) % 2 ^ 32 = b.runs + runs := Nat.mod_eq_of_lt hfew
  refine ⟨pos, ?_⟩
  rw [SortBucket.put, if_neg fun hnone => hruns hnone.1, hwrite]
  dsimp only [SortBucket.grown, bind, Except.bind, pure, Except.pure]
  rw [hcounted, List.append_nil]

theorem SortBucket.Out.size_eq {b : SortBucket ρ} (h : b.Out c) : sbuckSize c b = bytes c b.file := by
  rw [sbuckSize]
  split
  · rfl
  · next hnot =>
      cases hswapped : b.swappedOut with
      | true => exact h.size hswapped
      | false =>
          have hclosed : b.openWrite = false := by simpa [hswapped] using hnot
          obtain ⟨hfile, -, -, hsize⟩ := h.closed hclosed
          rw [hsize, hfile]
          rfl

theorem bytes_eq_zero (hsize : ∀ x, 0 < c.recSize x) (l : List ρ) : bytes c l = 0 ↔ l = [] := by
  cases l with
  | nil => exact ⟨fun _ => rfl, fun _ => rfl⟩
  | cons x l =>
      have := hsize x
      rw [bytes, List.map_cons, List.sum_cons]
      exact ⟨fun h => by omega, fun h => by cases h⟩

theorem SortBucket.Out.have_iff {b : SortBucket ρ} (h : b.Out c) (hsize : ∀ x, 0 < c.recSize x) :
    sbuckHave c b = true ↔ b.file ≠ [] := by
  rw [sbuckHave, h.size_eq, decide_eq_true_iff]
  exact not_congr (bytes_eq_zero hsize _)

theorem SortBucket.Out.openWrite_of {b : SortBucket ρ} (h : b.Out c) (hfile : b.file ≠ []) :
    b.openWrite = true := by
  by_contra hclosed
  exact hfile (h.closed (by simpa using hclosed)).1

theorem SortBucket.Out.swapOut {b : SortBucket ρ} (h : b.Out c) :
    (sbuckSwapOut c b).Out c ∧ (sbuckSwapOut c b).file = b.file ∧
      (sbuckSwapOut c b).runs = b.runs ∧ (sbuckSwapOut c b).openWrite = b.openWrite ∧
      (sbuckSwapOut c b).customPresort = b.customPresort ∧
      (sbuckSwapOut c b).hashBits = b.hashBits := by
  rw [sbuckSwapOut]
  split
  · next hopen =>
      have hwrite : b.openWrite = true := by simpa [h.openRead] using hopen.1
      exact ⟨⟨h.openRead, fun _ => .inr rfl, fun hclosed => by simp [hwrite] at hclosed,
        fun _ => if_pos hwrite⟩, rfl, rfl, rfl, rfl, rfl⟩
  · exact ⟨h, rfl, rfl, rfl, rfl, rfl⟩

/-- Reading what has been written. -/
theorem SortBucket.Out.read {b : SortBucket ρ} (h : b.Out c) (hopen : b.openWrite = true) :
    ∃ b', sbuckRead c b = .ok b' ∧ b'.unread = b.file ∧ b'.openRead = true ∧
      b'.swappedOut = false ∧ b'.customPresort = b.customPresort ∧ b'.file = b.file ∧
      b'.hashBits = b.hashBits := by
  rw [sbuckRead, sbuckSwapIn]
  cases hswapped : b.swappedOut with
  | true =>
      rw [if_pos rfl]
      dsimp only
      rw [h.openRead, if_neg Bool.false_ne_true, if_pos hopen]
      exact ⟨_, rfl, rfl, rfl, rfl, rfl, rfl, rfl⟩
  | false =>
      rw [if_neg Bool.false_ne_true, h.openRead, if_neg Bool.false_ne_true, if_pos hopen]
      exact ⟨_, rfl, rfl, rfl, hswapped, rfl, rfl, rfl⟩

/-! ## Presorting -/

variable [LinearOrder κ] {M : Type} [AddCommMonoid M] {weight : ρ → M}

/-- Unified records are a run. -/
theorem unifies_run {p : SortParams ρ κ} (hjoins : p.Joins weight) (hunify : p.unify = true)
    {l out : List ρ} (h : Unifies p.key p.unite l out) :
    out.Pairwise p.Less ∧ Gathers p.key weight l out := by
  have hless : ∀ x y, p.Less x y ↔ p.key x < p.key y := fun x y => by
    rw [less_iff, hunify, if_pos rfl]
  have hkeeps : p.KeepsKey := fun k g hg hk => (hjoins hunify k g hg hk).1
  refine ⟨(h.increasing hkeeps.unite).imp fun h => (hless _ _).mpr h,
    h.gathers hkeeps.unite fun k g hg hk => ?_⟩
  rcases g with _ | ⟨x, _ | ⟨y, g⟩⟩
  · exact absurd rfl hg
  · simp [SortParams.unite]
  · exact (hjoins hunify k _ (by simp) hk).2

/-- Of the bits of the hashes `hashBits` are left: above them the records agree. -/
structure SortContext.Alike (c : SortContext ρ κ) (hashBits : Nat) (l : List ρ) : Prop where
  bits : hashBits ≤ c.hashBits
  agree : ∀ hash ∈ c.hash, ∀ x ∈ l, ∀ y ∈ l, hash x >>> hashBits = hash y >>> hashBits

omit [LinearOrder κ] in
theorem SortContext.Alike.subset {hashBits : Nat} {l m : List ρ} (h : c.Alike hashBits l)
    (hm : ∀ x ∈ m, x ∈ l) : c.Alike hashBits m :=
  ⟨h.bits, fun hash hhash x hx y hy => h.agree hash hhash x (hm x hx) y (hm y hy)⟩

/-- An `internal_sort` that gets on: it takes some of the records that are waiting, all of them
when it reports the end, and writes them as one run. -/
def SortContext.Presorts (c : SortContext ρ κ) (weight : ρ → M) : Prop :=
  ∀ hashBits, ∀ xs ≠ [], c.Alike hashBits xs → ∃ r, c.internal hashBits xs = .ok r ∧
    0 < r.taken ∧ (r.more = false → xs.length ≤ r.taken) ∧ r.runs = 1 ∧
    r.written.Pairwise c.params.Less ∧ Gathers c.params.key weight (xs.take r.taken) r.written

/-- A bucket whose records wait to be presorted. -/
inductive Feeds (c : SortContext ρ κ) (batches : List (List ρ)) (b : SortBucket ρ) :
    List ρ → Prop
  | reading (hcustom : b.customPresort = false) (hread : b.openRead = true)
      (hswapped : b.swappedOut = false) (halike : c.Alike b.hashBits b.unread) :
      Feeds c batches b b.unread
  | written (hcustom : b.customPresort = false) (hout : b.Out c) (hopen : b.openWrite = true)
      (halike : c.Alike b.hashBits b.file) : Feeds c batches b b.file
  | custom (hcustom : b.customPresort = true)
      (hsorted : ∀ l ∈ batches, l.Pairwise c.params.Less) : Feeds c batches b batches.flatten

/-- How many more turns the presorting of a bucket may take. -/
def presortTurns (batches : List (List ρ)) (b : SortBucket ρ) (l : List ρ) : Nat :=
  l.length + if b.customPresort then batches.length else 0

/-- What a call of `sorter_presort` leaves when it reports more records. -/
structure Presort.GoesOn (c : SortContext ρ κ) (weight : ρ → M) (batches : List (List ρ))
    (bin : SortBucket ρ) (l : List ρ) (out : SortBucket ρ) (only : Option (SortBucket ρ))
    (r : Presort ρ) : Prop where
  out : ∃ run rest pos, r.out = out.grown run 1 pos ∧ run.Pairwise c.params.Less ∧
    Feeds c r.batches r.bin rest ∧ Gathers c.params.key weight l (run ++ rest) ∧
    presortTurns r.batches r.bin rest < presortTurns batches bin l
  only : r.only = only

/-- What it leaves when it reports the end. -/
inductive Presort.Ends (c : SortContext ρ κ) (weight : ρ → M) (l : List ρ) (out : SortBucket ρ)
    (only : Option (SortBucket ρ)) (r : Presort ρ) : Prop
  | none (hl : l = []) (hout : r.out = out ∨ ∃ pos, r.out = out.grown [] 1 pos)
      (honly : r.only = only)
  | out (run : List ρ) (pos : Nat) (hnone : only = .none) (hout : r.out = out.grown run 1 pos)
      (honly : r.only = .none) (hsorted : run.Pairwise c.params.Less)
      (hgathers : Gathers c.params.key weight l run)
  | only (join : SortBucket ρ) (run : List ρ) (pos : Nat) (hjoin : only = some join)
      (hout : r.out = out) (honly : r.only = some (join.grown run 1 pos))
      (hsorted : run.Pairwise c.params.Less) (hgathers : Gathers c.params.key weight l run)

theorem Feeds.read {batches : List (List ρ)} {b : SortBucket ρ} {l : List ρ}
    (h : Feeds c batches b l) (hcustom : b.customPresort = false) :
    ∃ b', sbuckRead c b = .ok b' ∧ b'.unread = l ∧ b'.openRead = true ∧ b'.swappedOut = false ∧
      b'.customPresort = false ∧ b'.hashBits = b.hashBits ∧ c.Alike b.hashBits l := by
  cases h with
  | reading _ hread hswapped halike =>
      refine ⟨b, ?_, rfl, hread, hswapped, hcustom, rfl, halike⟩
      rw [sbuckRead, sbuckSwapIn, hswapped, if_neg Bool.false_ne_true, if_pos hread]
  | written _ hout hopen halike =>
      obtain ⟨b', hread, hunread, hopen', hswapped, hcustom', -, hbits⟩ := hout.read hopen
      exact ⟨b', hread, hunread, hopen', hswapped, hcustom'.trans hcustom, hbits, halike⟩
  | custom hcustom' => rw [hcustom] at hcustom'; cases hcustom'

theorem sorterPresort_ok (hinternal : c.Presorts weight)
    {batches : List (List ρ)} {bin out : SortBucket ρ} {only : Option (SortBucket ρ)} {l : List ρ}
    (hfeeds : Feeds c batches bin l) (hout : out.Out c) (hfew : out.runs + 1 < 2 ^ 32)
    (honly : ∀ join ∈ only, join.Out c ∧ join.runs + 1 < 2 ^ 32) :
    ∃ r, sorterPresort c batches bin out only = .ok r ∧
      (r.more = true → r.GoesOn c weight batches bin l out only) ∧
      (r.more = false → r.Ends c weight l out only) := by
  unfold sorterPresort
  cases hcustom : bin.customPresort with
  | true =>
      rw [if_pos rfl]
      cases hfeeds with
      | reading hplain => rw [hcustom] at hplain; cases hplain
      | written hplain => rw [hcustom] at hplain; cases hplain
      | custom _ hsorted =>
          cases batches with
          | nil =>
              obtain ⟨pos, hput⟩ := hout.put [] one_ne_zero hfew
              dsimp only
              rw [hput]
              exact ⟨_, rfl, fun h => absurd h Bool.false_ne_true,
                fun _ => .none rfl (.inr ⟨pos, rfl⟩) rfl⟩
          | cons run batches =>
              obtain ⟨pos, hput⟩ := hout.put run one_ne_zero hfew
              dsimp only
              rw [hput]
              refine ⟨_, rfl, fun _ => ⟨⟨run, batches.flatten, pos, rfl, hsorted run (by simp),
                .custom hcustom fun l hl => hsorted l (by simp [hl]), ?_, ?_⟩, rfl⟩,
                fun h => absurd h.symm Bool.false_ne_true⟩
              · rw [List.flatten_cons]
                exact .refl _
              · rw [presortTurns, presortTurns, hcustom, if_pos rfl, if_pos rfl,
                  List.flatten_cons, List.length_append, List.length_cons]
                dsimp only
                omega
  | false =>
      obtain ⟨b, hread, hunread, hopen, hswapped, hplain, hbits, halike⟩ := hfeeds.read hcustom
      rw [if_neg Bool.false_ne_true, hread]
      dsimp only [bind, Except.bind]
      rw [hunread]
      cases hl : l with
      | nil => exact ⟨_, rfl, fun h => absurd h Bool.false_ne_true, fun _ => .none rfl (.inl rfl) rfl⟩
      | cons x xs =>
          rw [hl, ← hbits] at halike
          rw [hl] at hunread
          obtain ⟨p, hrun, htaken, hall, hruns, hsorted, hgathers⟩ :=
            hinternal b.hashBits (x :: xs) (List.cons_ne_nil _ _) halike
          dsimp only
          rw [hrun]
          dsimp only
          cases hmore : p.more with
          | true =>
              obtain ⟨pos, hput⟩ := hout.put p.written one_ne_zero hfew
              rw [if_pos rfl, hruns, hput]
              refine ⟨_, rfl, fun _ => ⟨⟨p.written, (x :: xs).drop p.taken, pos, rfl, hsorted, ?_, ?_, ?_⟩,
                rfl⟩, fun h => absurd h.symm Bool.false_ne_true⟩
              · have hrest : ({ b with pos := b.pos + p.taken } : SortBucket ρ).unread =
                    (x :: xs).drop p.taken := by
                  rw [← hunread, SortBucket.unread, SortBucket.unread, List.drop_drop]
                rw [← hrest]
                refine .reading hplain hopen hswapped (halike.subset fun y hy => ?_)
                exact List.mem_of_mem_drop (hrest ▸ hy)
              · have hsplit := (Gathers.append hgathers (.refl ((x :: xs).drop p.taken)))
                rwa [List.take_append_drop] at hsplit
              · rw [presortTurns, presortTurns, hplain, hcustom, if_neg Bool.false_ne_true,
                  List.length_drop, List.length_cons]
                omega
          | false =>
              have hwhole : Gathers c.params.key weight (x :: xs) p.written := by
                rwa [List.take_of_length_le (hall hmore)] at hgathers
              rw [if_neg Bool.false_ne_true]
              cases honly' : only with
              | none =>
                  obtain ⟨pos, hput⟩ := hout.put p.written one_ne_zero hfew
                  dsimp only
                  rw [hruns, hput]
                  exact ⟨_, rfl, fun h => absurd h Bool.false_ne_true,
                    fun _ => .out p.written pos rfl rfl rfl hsorted hwhole⟩
              | some join =>
                  obtain ⟨hjoin, hone⟩ := honly join honly'
                  obtain ⟨pos, hput⟩ := hjoin.put p.written one_ne_zero hone
                  dsimp only
                  rw [hruns, hput]
                  exact ⟨_, rfl, fun h => absurd h Bool.false_ne_true,
                    fun _ => .only join p.written pos rfl rfl rfl hsorted hwhole⟩

end OpenAAA.Sorter
