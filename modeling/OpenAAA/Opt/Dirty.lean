import OpenAAA.Generic.Sorter
import Mathlib.Data.Prod.Lex

/-!
`generic/opt/section.c`: the list of dirty sections and the commit. `cf_add_dirty`
appends the instances whose values a configuration changed, `sort_dirty` puts them in
order and drops repetitions, and `commit_section` walks the tree of sections and calls
the commit hooks of those it finds in the list.
-/

namespace OpenAAA.Opt

open Arrays Sorter

/-- `struct dirty_section`: the addresses of a section and of its instance. `ASORT_LT` is the
lexicographic order. -/
abbrev DirtySection := Nat ×ₗ Nat

/-- The fields `dirty` and `dirties` of the context. -/
structure DirtyList where
  dirty : Nat → DirtySection
  dirties : Nat

def cfAddDirty (cc : DirtyList) (x : DirtySection) : DirtyList :=
  if 0 < cc.dirties ∧ cc.dirty (cc.dirties - 1) = x then cc
  else ⟨Function.update cc.dirty cc.dirties x, cc.dirties + 1⟩

/-- `while (read < limit)`, with the number of turns. -/
def compress : Nat → Nat → Nat → (Nat → DirtySection) → DirtyList
  | 0, _, write, A => ⟨A, write⟩
  | k + 1, read, write, A =>
      if A read ≠ A (read - 1) then
        compress k (read + 1) (write + 1)
          (if read ≠ write then Function.update A write (A read) else A)
      else compress k (read + 1) write A

def sortDirty (cc : DirtyList) : Except SortFault DirtyList :=
  if cc.dirties ≤ 1 then .ok cc
  else
    match sort cc.dirty cc.dirties with
    | .error fault => .error fault
    | .ok A => .ok (compress (cc.dirties - 1) 1 1 A)

/-- `BIN_SEARCH_FIRST_GE_CMP`, on unsigned indices. -/
def binSearchFirstGe (A : Nat → DirtySection) (x : DirtySection) : Nat → Nat → Nat → Nat
  | 0, l, _ => l
  | fuel + 1, l, r =>
      if l < r then
        let m := (l + r) % 2 ^ 32 / 2
        if A m < x then binSearchFirstGe A x fuel (m + 1) r else binSearchFirstGe A x fuel l m
      else l

def isDirty (cc : DirtyList) (x : DirtySection) : Bool :=
  let pos := binSearchFirstGe cc.dirty x cc.dirties 0 cc.dirties
  pos < cc.dirties ∧ cc.dirty pos = x

/-- The items of a section that the commit looks at, with the offsets of their variables. -/
inductive CommitItem where
  | section (offset sec : Nat)
  | list (offset sec : Nat)
  | other

/-- The declared sections and the lists in memory: the root, the items of each section and whether
it has a commit hook, and the nodes of the list with a given head. -/
structure SectionTree where
  sections : Nat
  items : Nat → List CommitItem
  hasCommit : Nat → Bool
  nodes : Nat → List Nat

/-- What stops a commit: a message, or a tree that never ends. -/
inductive CommitError where
  | msg (text : String)
  | endless
deriving DecidableEq

/-- The hooks called and the error returned. -/
structure Commits where
  calls : List DirtySection
  err : Option CommitError
deriving DecidableEq

/-- The message a part's own error is replaced by. -/
def Commits.failWith (text : String) (c : Commits) : Commits :=
  match c.err with
  | some (.msg _) => ⟨c.calls, some (.msg text)⟩
  | _ => c

/-- A loop that returns at the first error. -/
def commitEach {β : Type} (commit : β → Commits) : List β → Commits
  | [] => ⟨[], none⟩
  | b :: bs =>
      match (commit b).err with
      | some err => ⟨(commit b).calls, some err⟩
      | none =>
          let rest := commitEach commit bs
          ⟨(commit b).calls ++ rest.calls, rest.err⟩

def commitItem (T : SectionTree) (commit : Nat → Nat → Commits) (ptr : Nat) :
    CommitItem → Commits
  | .section offset sec => (commit sec (ptr + offset)).failWith "commit of a subsection failed"
  | .list offset sec =>
      commitEach (fun n => (commit sec n).failWith "commit of a list failed") (T.nodes (ptr + offset))
  | .other => ⟨[], none⟩

/-- `commit_section`, with a bound on the depth of the tree. -/
def commitSection (T : SectionTree) (hook : DirtySection → Option String) (cc : DirtyList)
    (commitAll : Bool) : Nat → Nat → Nat → Commits
  | 0, _, _ => ⟨[], some .endless⟩
  | fuel + 1, sec, ptr =>
      let parts := commitEach (commitItem T (commitSection T hook cc commitAll fuel) ptr) (T.items sec)
      match parts.err with
      | some _ => parts
      | none =>
          if T.hasCommit sec ∧ (commitAll ∨ isDirty cc (toLex (sec, ptr))) then
            ⟨parts.calls ++ [toLex (sec, ptr)], (hook (toLex (sec, ptr))).map .msg⟩
          else parts

/-- `enum cf_commit_mode` -/
inductive CommitMode where
  | noCommit
  | commit
  | commitAll
deriving DecidableEq

/-- The value returned, the hooks called and the list of dirty sections after. The root section has
no instance of its own. -/
def cfCommitAll (T : SectionTree) (hook : DirtySection → Option String) (fuel : Nat)
    (cm : CommitMode) (cc : DirtyList) : Except SortFault (Nat × List DirtySection × DirtyList) :=
  match sortDirty cc with
  | .error fault => .error fault
  | .ok cc =>
      if cm = .noCommit then .ok (0, [], cc)
      else
        let c := commitSection T hook cc (cm = .commitAll) fuel T.sections 0
        if c.err.isSome then .ok (1, c.calls, cc) else .ok (0, c.calls, { cc with dirties := 0 })

/-- What happens between two commits. -/
inductive DirtyOp where
  | add (x : DirtySection)
  | noCommit

def dirtyStep (T : SectionTree) (hook : DirtySection → Option String) (fuel : Nat)
    (cc : DirtyList) : DirtyOp → Except SortFault DirtyList
  | .add x => .ok (cfAddDirty cc x)
  | .noCommit => (cfCommitAll T hook fuel .noCommit cc).map (·.2.2)

def dirtyRun (T : SectionTree) (hook : DirtySection → Option String) (fuel : Nat) :
    DirtyList → List DirtyOp → Except SortFault DirtyList
  | cc, [] => .ok cc
  | cc, op :: ops =>
      match dirtyStep T hook fuel cc op with
      | .error fault => .error fault
      | .ok cc => dirtyRun T hook fuel cc ops

/-! ## What a commit is for -/

/-- The instances added since the last commit. -/
def added : List DirtyOp → List DirtySection
  | [] => []
  | .add x :: ops => x :: added ops
  | .noCommit :: ops => added ops

/-- The instances directly below an instance, in the order of the items. -/
def SectionTree.parts (T : SectionTree) (ptr : Nat) : CommitItem → List DirtySection
  | .section offset sec => [toLex (sec, ptr + offset)]
  | .list offset sec => (T.nodes (ptr + offset)).map fun n => toLex (sec, n)
  | .other => []

/-- The second list holds every occurrence in the trees of the first, each after its parts. -/
inductive SectionTree.Postorder (T : SectionTree) : List DirtySection → List DirtySection → Prop
  | nil : T.Postorder [] []
  | cons {sec ptr : Nat} {below others rest : List DirtySection} :
      T.Postorder ((T.items sec).flatMap (T.parts ptr)) below → T.Postorder others rest →
      T.Postorder (toLex (sec, ptr) :: others) (below ++ toLex (sec, ptr) :: rest)

def DirtyList.Contains (cc : DirtyList) (x : DirtySection) : Prop :=
  ∃ i < cc.dirties, cc.dirty i = x

def DirtyList.Increasing (cc : DirtyList) : Prop :=
  ∀ i j, i < j → j < cc.dirties → cc.dirty i < cc.dirty j

/-- A commit after the given steps sorts the list without a fault and calls the hooks of the
instances that were added, over the whole tree and no others. -/
def CommitsExactly (T : SectionTree) (hook : DirtySection → Option String)
    (tree : List DirtySection) (cc : DirtyList) (ops : List DirtyOp) : Prop :=
  ∃ fuel₀, ∀ fuel ≥ fuel₀, ∃ cc' sorted, dirtyRun T hook fuel cc ops = .ok cc' ∧
    sortDirty cc' = .ok sorted ∧ sorted.Increasing ∧ (∀ x, sorted.Contains x ↔ x ∈ added ops) ∧
    cfCommitAll T hook fuel .commit cc' =
      .ok (0, tree.filter fun x => T.hasCommit (ofLex x).1 ∧ x ∈ added ops,
        { sorted with dirties := 0 })

/-! ## The sorted list -/

theorem cfAddDirty_contains (cc : DirtyList) (x y : DirtySection) :
    (cfAddDirty cc x).Contains y ↔ cc.Contains y ∨ y = x := by
  rw [cfAddDirty]
  split
  · next hlast =>
      refine ⟨Or.inl, fun h => h.elim id fun hyx => ?_⟩
      exact ⟨cc.dirties - 1, by omega, hlast.2.trans hyx.symm⟩
  · constructor
    · rintro ⟨i, hi, hy⟩
      by_cases hend : i = cc.dirties
      · rw [hend] at hy
        exact Or.inr ((Function.update_self ..).symm.trans hy).symm
      · exact Or.inl ⟨i, by dsimp only at hi; omega, (Function.update_of_ne hend ..).symm.trans hy⟩
    · rintro (⟨i, hi, hy⟩ | rfl)
      · exact ⟨i, by dsimp only; omega, (Function.update_of_ne (by omega) ..).trans hy⟩
      · exact ⟨cc.dirties, Nat.lt_succ_self _, Function.update_self ..⟩

theorem cfAddDirty_dirties (cc : DirtyList) (x : DirtySection) :
    (cfAddDirty cc x).dirties ≤ cc.dirties + 1 := by
  rw [cfAddDirty]
  split
  · exact Nat.le_succ _
  · exact le_rfl

/-- The invariant of the compression of a sorted array `A₀`: what was read is in front of `write`,
once each, and what is compared next has not been overwritten. -/
structure Compressing (A₀ A : Nat → DirtySection) (read write : Nat) : Prop where
  pos : 0 < write
  le : write ≤ read
  unread : ∀ i, read ≤ i + 1 → A i = A₀ i
  last : A (write - 1) = A₀ (read - 1)
  increasing : ∀ i j, i < j → j < write → A i < A j
  exactly : ∀ x, (∃ i < write, A i = x) ↔ ∃ i < read, A₀ i = x

theorem Compressing.next {A₀ A : Nat → DirtySection} {read write : Nat}
    (h : Compressing A₀ A read write) (hsorted : A₀ (read - 1) ≤ A₀ read) :
    if A read ≠ A (read - 1) then
      Compressing A₀ (if read ≠ write then Function.update A write (A read) else A) (read + 1)
        (write + 1)
    else Compressing A₀ A (read + 1) write := by
  have hpos := h.pos
  have hle := h.le
  have hread : A read = A₀ read := h.unread read (by omega)
  have hprev : A (read - 1) = A₀ (read - 1) := h.unread (read - 1) (by omega)
  split
  · next hne =>
      -- writing an element over itself changes nothing
      have hupdate : (if read ≠ write then Function.update A write (A read) else A) =
          Function.update A write (A read) := by
        split
        · rfl
        · next hrw =>
            rw [not_not.mp hrw, Function.update_eq_self]
      rw [hupdate]
      have hgt : A₀ (read - 1) < A₀ read := lt_of_le_of_ne hsorted (hprev ▸ hread ▸ hne.symm)
      refine ⟨by omega, by omega, fun i hi => ?_, ?_, fun i j hij hj => ?_, fun x => ?_⟩
      · by_cases hiw : i = write
        · have hir : i = read := by omega
          rw [hiw, Function.update_self, hread, ← hir, hiw]
        · rw [Function.update_of_ne hiw, h.unread i (by omega)]
      · rw [Nat.add_sub_cancel, Nat.add_sub_cancel, Function.update_self, hread]
      · rw [Function.update_of_ne (by omega)]
        by_cases hjw : j = write
        · rw [hjw, Function.update_self, hread]
          by_cases hiw : i = write - 1
          · rw [hiw, h.last]
            exact hgt
          · calc A i < A (write - 1) := h.increasing i _ (by omega) (by omega)
              _ = A₀ (read - 1) := h.last
              _ < A₀ read := hgt
        · rw [Function.update_of_ne hjw]
          exact h.increasing i j hij (by omega)
      · constructor
        · rintro ⟨i, hi, rfl⟩
          by_cases hiw : i = write
          · exact ⟨read, by omega, by rw [hiw, Function.update_self, hread]⟩
          · rw [Function.update_of_ne hiw]
            obtain ⟨k, hk, heq⟩ := (h.exactly (A i)).mp ⟨i, by omega, rfl⟩
            exact ⟨k, by omega, heq⟩
        · rintro ⟨i, hi, rfl⟩
          by_cases hir : i = read
          · exact ⟨write, by omega, by rw [Function.update_self, hread, hir]⟩
          · obtain ⟨k, hk, heq⟩ := (h.exactly (A₀ i)).mpr ⟨i, by omega, rfl⟩
            exact ⟨k, by omega, by rw [Function.update_of_ne (by omega), heq]⟩
  · next heq =>
      have hsame : A₀ read = A₀ (read - 1) := hread.symm.trans ((not_not.mp heq).trans hprev)
      refine ⟨hpos, by omega, fun i hi => h.unread i (by omega), ?_, h.increasing, fun x => ?_⟩
      · rw [Nat.add_sub_cancel, h.last, hsame]
      · rw [h.exactly x]
        refine ⟨fun ⟨i, hi, hx⟩ => ⟨i, by omega, hx⟩, ?_⟩
        rintro ⟨i, hi, hx⟩
        by_cases hir : i = read
        · exact ⟨read - 1, by omega, by rw [← hsame, ← hir, hx]⟩
        · exact ⟨i, by omega, hx⟩

theorem compress_ok {A₀ A : Nat → DirtySection} {n k read write : Nat} (hk : read + k = n)
    (hsorted : SortedTo A₀ n) (h : Compressing A₀ A read write) :
    Compressing A₀ (compress k read write A).dirty n (compress k read write A).dirties := by
  induction k generalizing read write A with
  | zero =>
      rw [compress, ← hk]
      exact h
  | succ k ih =>
      have hnext := h.next (hsorted (read - 1) read (by omega) (by omega))
      rw [compress]
      split
      · next hne =>
          rw [if_pos hne] at hnext
          exact ih (by omega) hnext
      · next heq =>
          rw [if_neg heq] at hnext
          exact ih (by omega) hnext

theorem sortDirty_ok {cc : DirtyList} (hn : cc.dirties ≤ 2 ^ 30 + 4) :
    ∃ sorted, sortDirty cc = .ok sorted ∧ sorted.Increasing ∧ sorted.dirties ≤ cc.dirties ∧
      ∀ x, sorted.Contains x ↔ cc.Contains x := by
  by_cases hone : cc.dirties ≤ 1
  · exact ⟨cc, by rw [sortDirty, if_pos hone], fun i j hij hj => by omega, le_rfl, fun _ => Iff.rfl⟩
  · obtain ⟨A, hsort, hsorted, hre⟩ := sort_ok cc.dirty hn
    have hstart : Compressing A A 1 1 := by
      refine ⟨Nat.one_pos, le_rfl, fun _ _ => rfl, rfl, fun i j hij hj => by omega, fun _ => Iff.rfl⟩
    have hdone := compress_ok (n := cc.dirties) (k := cc.dirties - 1) (by omega) hsorted hstart
    refine ⟨compress (cc.dirties - 1) 1 1 A, ?_, hdone.increasing, hdone.le, fun x => ?_⟩
    · rw [sortDirty, if_neg hone, hsort]
    · unfold DirtyList.Contains
      rw [hdone.exactly x]
      constructor
      · rintro ⟨i, hi, rfl⟩
        obtain ⟨k, _, hk, heq⟩ := hre.source ⟨Nat.zero_le i, hi⟩
        exact ⟨k, hk, heq.symm⟩
      · rintro ⟨i, hi, rfl⟩
        obtain ⟨k, _, hk, heq⟩ := hre.symm.source ⟨Nat.zero_le i, hi⟩
        exact ⟨k, hk, heq.symm⟩

theorem dirtyRun_ok (T : SectionTree) (hook : DirtySection → Option String) (fuel : Nat)
    {ops : List DirtyOp} {cc : DirtyList} (hn : cc.dirties + (added ops).length ≤ 2 ^ 30 + 4) :
    ∃ cc', dirtyRun T hook fuel cc ops = .ok cc' ∧ cc'.dirties ≤ 2 ^ 30 + 4 ∧
      ∀ x, cc'.Contains x ↔ cc.Contains x ∨ x ∈ added ops := by
  induction ops generalizing cc with
  | nil => exact ⟨cc, rfl, by omega, fun x => by simp [added]⟩
  | cons op ops ih =>
      cases op with
      | add x =>
          have hgrow := cfAddDirty_dirties cc x
          rw [added, List.length_cons] at hn
          have hroom : (cfAddDirty cc x).dirties + (added ops).length ≤ 2 ^ 30 + 4 := by omega
          obtain ⟨cc', hrun, hbound, hcontains⟩ := ih hroom
          refine ⟨cc', hrun, hbound, fun y => ?_⟩
          rw [hcontains, cfAddDirty_contains, added, List.mem_cons, or_assoc]
      | noCommit =>
          rw [added] at hn
          have hfew : cc.dirties ≤ 2 ^ 30 + 4 := by omega
          obtain ⟨sorted, hsort, _, hle, hsame⟩ := sortDirty_ok hfew
          have hroom : sorted.dirties + (added ops).length ≤ 2 ^ 30 + 4 := by omega
          obtain ⟨cc', hrun, hbound, hcontains⟩ := ih hroom
          refine ⟨cc', ?_, hbound, fun y => ?_⟩
          · rw [dirtyRun, dirtyStep, cfCommitAll, hsort]
            exact hrun
          · rw [hcontains, hsame, added]

/-! ## The search -/

/-- Everything before `l` is below `x`, and everything from `r` on is not. -/
theorem binSearchFirstGe_ok {A : Nat → DirtySection} {x : DirtySection} {n : Nat} (hn : n < 2 ^ 31)
    (hsorted : ∀ i j, i < j → j < n → A i < A j) {fuel l r : Nat} (hlr : l ≤ r) (hrn : r ≤ n)
    (hfuel : r - l ≤ fuel) (hlow : ∀ i < l, A i < x) (hhigh : ∀ i, r ≤ i → i < n → x ≤ A i) :
    ∃ pos, binSearchFirstGe A x fuel l r = pos ∧ pos ≤ n ∧ (∀ i < pos, A i < x) ∧
      ∀ i, pos ≤ i → i < n → x ≤ A i := by
  induction fuel generalizing l r with
  | zero =>
      have heq : r = l := by omega
      exact ⟨l, rfl, by omega, hlow, heq ▸ hhigh⟩
  | succ fuel ih =>
      rw [binSearchFirstGe]
      split
      · next hlt =>
          have hm : (l + r) % 2 ^ 32 / 2 = (l + r) / 2 := by omega
          dsimp only
          rw [hm]
          generalize hmid : (l + r) / 2 = m
          split
          · next hbelow =>
              refine ih (by omega) hrn (by omega) (fun i hi => ?_) hhigh
              by_cases him : i = m
              · rw [him]
                exact hbelow
              · exact (hsorted i m (by omega) (by omega)).trans hbelow
          · next habove =>
              refine ih (by omega) (by omega) (by omega) hlow (fun i hi hin => ?_)
              by_cases him : i = m
              · rw [him]
                exact not_lt.mp habove
              · exact (not_lt.mp habove).trans (hsorted m i (by omega) hin).le
      · next hge =>
          have heq : r = l := by omega
          exact ⟨l, rfl, by omega, hlow, heq ▸ hhigh⟩

theorem isDirty_iff {cc : DirtyList} (hn : cc.dirties < 2 ^ 31) (hinc : cc.Increasing)
    (x : DirtySection) : isDirty cc x = true ↔ cc.Contains x := by
  obtain ⟨pos, hpos, _, hlow, hhigh⟩ := binSearchFirstGe_ok (x := x) hn hinc (Nat.zero_le _) le_rfl
    (Nat.sub_le _ _) (fun i hi => absurd hi (Nat.not_lt_zero i)) (fun i hi hin => by omega)
  rw [isDirty, hpos, decide_eq_true_eq]
  refine ⟨fun h => ⟨pos, h⟩, ?_⟩
  rintro ⟨i, hi, rfl⟩
  have hposi : pos ≤ i := by
    by_contra hlt
    exact lt_irrefl _ (hlow i (by omega))
  refine ⟨by omega, le_antisymm ?_ (hhigh pos le_rfl (by omega))⟩
  rcases Nat.eq_or_lt_of_le hposi with heq | hlt
  · rw [heq]
  · exact (hinc pos i hlt hi).le

/-! ## The walk through the tree -/

theorem commitEach_cons {β : Type} {commit : β → Commits} {b : β} {bs : List β}
    {calls calls' : List DirtySection} (h : commit b = ⟨calls, none⟩)
    (h' : commitEach commit bs = ⟨calls', none⟩) :
    commitEach commit (b :: bs) = ⟨calls ++ calls', none⟩ := by
  rw [commitEach, h, h']

/-- A loop without an error made no turn with one. -/
theorem commitEach_cons_inv {β : Type} {commit : β → Commits} {b : β} {bs : List β}
    {calls : List DirtySection} (h : commitEach commit (b :: bs) = ⟨calls, none⟩) :
    ∃ first rest, calls = first ++ rest ∧ commit b = ⟨first, none⟩ ∧
      commitEach commit bs = ⟨rest, none⟩ := by
  rw [commitEach] at h
  cases hb : commit b with
  | mk first err =>
      cases hbs : commitEach commit bs with
      | mk rest err' =>
          rw [hb, hbs] at h
          cases err with
          | some err => simp at h
          | none =>
              injection h with hcalls herr
              exact ⟨first, rest, hcalls.symm, rfl, by rw [← herr]⟩

theorem commitEach_append_inv {β : Type} {commit : β → Commits} {bs bs' : List β}
    {calls : List DirtySection} (h : commitEach commit (bs ++ bs') = ⟨calls, none⟩) :
    ∃ first rest, calls = first ++ rest ∧ commitEach commit bs = ⟨first, none⟩ ∧
      commitEach commit bs' = ⟨rest, none⟩ := by
  induction bs generalizing calls with
  | nil => exact ⟨[], calls, rfl, rfl, h⟩
  | cons b bs ih =>
      obtain ⟨c, cs, rfl, hb, hrest⟩ := commitEach_cons_inv h
      obtain ⟨first, rest, rfl, hbs, hbs'⟩ := ih hrest
      exact ⟨c ++ first, rest, (List.append_assoc ..).symm, commitEach_cons hb hbs, hbs'⟩

theorem commitEach_failWith {β γ : Type} {commit : β → Commits} {f : γ → β} (text : String)
    {cs : List γ} {calls : List DirtySection} (h : commitEach commit (cs.map f) = ⟨calls, none⟩) :
    commitEach (fun c => (commit (f c)).failWith text) cs = ⟨calls, none⟩ := by
  induction cs generalizing calls with
  | nil => exact h
  | cons c cs ih =>
      obtain ⟨first, rest, rfl, hc, hcs⟩ := commitEach_cons_inv h
      exact commitEach_cons (by rw [hc]; rfl) (ih hcs)

/-- The loop over the items of a section goes through the instances below it. -/
theorem commitEach_items (T : SectionTree) {commit : Nat → Nat → Commits} {ptr : Nat}
    {items : List CommitItem} {calls : List DirtySection}
    (h : commitEach (fun x => commit (ofLex x).1 (ofLex x).2) (items.flatMap (T.parts ptr)) =
      ⟨calls, none⟩) :
    commitEach (commitItem T commit ptr) items = ⟨calls, none⟩ := by
  induction items generalizing calls with
  | nil => exact h
  | cons item items ih =>
      rw [List.flatMap_cons] at h
      obtain ⟨first, rest, rfl, hitem, hitems⟩ := commitEach_append_inv h
      refine commitEach_cons ?_ (ih hitems)
      cases item with
      | «section» offset sec =>
          obtain ⟨c, cs, rfl, hc, hnil⟩ := commitEach_cons_inv hitem
          injection hnil with hnil
          rw [← hnil, List.append_nil]
          change commit sec (ptr + offset) = ⟨c, none⟩ at hc
          rw [commitItem, hc]
          rfl
      | list offset sec => exact commitEach_failWith (f := fun n => toLex (sec, n)) _ hitem
      | other => exact hitem

/-- The hooks a commit calls, in the order of the tree. -/
def SectionTree.due (T : SectionTree) (cc : DirtyList) (x : DirtySection) : Bool :=
  T.hasCommit (ofLex x).1 ∧ isDirty cc x

theorem SectionTree.Postorder.commitEach {T : SectionTree} {roots tree : List DirtySection}
    (h : T.Postorder roots tree) (hook : DirtySection → Option String) :
    ∃ fuel₀, ∀ fuel ≥ fuel₀, ∀ cc, (∀ x, isDirty cc x → hook x = none) →
      Opt.commitEach (fun x => commitSection T hook cc false fuel (ofLex x).1 (ofLex x).2) roots =
        ⟨tree.filter (T.due cc), none⟩ := by
  induction h with
  | nil => exact ⟨0, fun _ _ _ _ => rfl⟩
  | @cons sec ptr below others rest _ _ ihbelow ihrest =>
      obtain ⟨f, hbelow⟩ := ihbelow
      obtain ⟨f', hrest⟩ := ihrest
      refine ⟨max (f + 1) f', fun fuel hfuel cc hhook => ?_⟩
      obtain ⟨fuel, rfl⟩ : ∃ k, fuel = k + 1 := ⟨fuel - 1, by omega⟩
      have hparts := commitEach_items T (hbelow fuel (by omega) cc hhook)
      have hlist : (below ++ toLex (sec, ptr) :: rest).filter (T.due cc) =
          (below.filter (T.due cc) ++ [toLex (sec, ptr)].filter (T.due cc)) ++
            rest.filter (T.due cc) := by
        rw [List.append_assoc, ← List.filter_append, ← List.filter_append]
        rfl
      rw [hlist]
      refine commitEach_cons ?_ (hrest (fuel + 1) (by omega) cc hhook)
      change commitSection T hook cc false (fuel + 1) sec ptr = _
      rw [commitSection, hparts]
      by_cases hdue : T.due cc (toLex (sec, ptr)) = true
      · rw [List.filter_cons_of_pos hdue, List.filter_nil]
        rw [SectionTree.due, decide_eq_true_eq] at hdue
        dsimp only
        rw [if_pos ⟨hdue.1, Or.inr hdue.2⟩, hhook _ hdue.2, Option.map_none]
      · rw [List.filter_cons_of_neg hdue, List.filter_nil, List.append_nil]
        rw [SectionTree.due, decide_eq_true_eq] at hdue
        dsimp only
        rw [if_neg (fun hboth => hdue ⟨hboth.1, hboth.2.resolve_left Bool.false_ne_true⟩)]

/-! ## Commits -/

theorem commitsExactly_of_few {T : SectionTree} {hook : DirtySection → Option String}
    {tree : List DirtySection} {cc : DirtyList} {ops : List DirtyOp}
    (htree : T.Postorder [toLex (T.sections, 0)] tree) (hcc : cc.dirties = 0)
    (hhook : ∀ x ∈ added ops, hook x = none) (hn : (added ops).length ≤ 2 ^ 30 + 4) :
    CommitsExactly T hook tree cc ops := by
  obtain ⟨fuel₀, hcommit⟩ := htree.commitEach hook
  refine ⟨fuel₀, fun fuel hfuel => ?_⟩
  have hroom : cc.dirties + (added ops).length ≤ 2 ^ 30 + 4 := by omega
  obtain ⟨cc', hrun, hbound, hcontains⟩ := dirtyRun_ok T hook fuel hroom
  obtain ⟨sorted, hsort, hinc, hle, hsame⟩ := sortDirty_ok hbound
  have hexactly : ∀ x, sorted.Contains x ↔ x ∈ added ops := by
    intro x
    rw [hsame, hcontains, or_iff_right]
    rintro ⟨i, hi, _⟩
    omega
  have hdirty : ∀ x, isDirty sorted x = true ↔ x ∈ added ops := fun x =>
    (isDirty_iff (by omega) hinc x).trans (hexactly x)
  refine ⟨cc', sorted, hrun, hsort, hinc, hexactly, ?_⟩
  have hwalk := hcommit fuel hfuel sorted fun x hx => hhook x ((hdirty x).mp hx)
  obtain ⟨calls, rest, htreecalls, hroot, hnil⟩ := commitEach_cons_inv hwalk
  injection hnil with hnil
  rw [← hnil, List.append_nil] at htreecalls
  change commitSection T hook sorted false fuel T.sections 0 = ⟨calls, none⟩ at hroot
  have hdue : T.due sorted = fun x => decide (T.hasCommit (ofLex x).1 ∧ x ∈ added ops) := by
    funext x
    rw [SectionTree.due, decide_eq_decide, hdirty]
  rw [cfCommitAll, hsort]
  dsimp only
  rw [if_neg nofun, decide_eq_false nofun, hroot, ← hdue, htreecalls]
  rfl

theorem SectionTree.Postorder.leaf {T : SectionTree} {sec ptr : Nat}
    {others rest : List DirtySection} (hitems : T.items sec = []) (h : T.Postorder others rest) :
    T.Postorder (toLex (sec, ptr) :: others) (toLex (sec, ptr) :: rest) := by
  have hbelow : T.Postorder ((T.items sec).flatMap (T.parts ptr)) [] := by
    rw [hitems]
    exact .nil
  exact @SectionTree.Postorder.cons T sec ptr [] others rest hbelow h

/-! ## A list that is too long -/

/-- Additions of the entries `from, from + 1, ...` of an array without equal neighbours. -/
theorem dirtyRun_adds (T : SectionTree) (hook : DirtySection → Option String) (fuel : Nat)
    {f : Nat → DirtySection} (hne : ∀ i, f i ≠ f (i + 1)) {n : Nat} {cc : DirtyList}
    (hcc : ∀ i < cc.dirties, cc.dirty i = f i) :
    ∃ cc', dirtyRun T hook fuel cc ((List.range' cc.dirties n).map fun i => .add (f i)) = .ok cc' ∧
      cc'.dirties = cc.dirties + n ∧ ∀ i < cc'.dirties, cc'.dirty i = f i := by
  induction n generalizing cc with
  | zero => exact ⟨cc, rfl, rfl, hcc⟩
  | succ n ih =>
      have hadd : cfAddDirty cc (f cc.dirties) =
          ⟨Function.update cc.dirty cc.dirties (f cc.dirties), cc.dirties + 1⟩ := by
        rw [cfAddDirty, if_neg]
        rintro ⟨hpos, hlast⟩
        have hneigh := hne (cc.dirties - 1)
        rw [hcc _ (by omega)] at hlast
        rw [Nat.sub_add_cancel hpos] at hneigh
        exact hneigh hlast
      have hnext : ∀ i < (cfAddDirty cc (f cc.dirties)).dirties,
          (cfAddDirty cc (f cc.dirties)).dirty i = f i := by
        rw [hadd]
        intro i hi
        by_cases hend : i = cc.dirties
        · rw [hend]
          exact Function.update_self ..
        · exact (Function.update_of_ne hend ..).trans (hcc i (by dsimp only at hi; omega))
      obtain ⟨cc', hrun, hlen, hall⟩ := ih hnext
      refine ⟨cc', ?_, ?_, hall⟩
      · rw [List.range'_succ, List.map_cons, dirtyRun, dirtyStep, ← hrun, hadd]
      · rw [hlen, hadd]
        dsimp only
        omega

/-- Instances at increasing addresses, but for one in the middle that only the last eight follow. -/
def middleLast (n i : Nat) : DirtySection :=
  toLex (0, 64 * if i = (n - 1) / 2 then n else if i + 8 < n then i else n + 1 + i)

theorem middleLast_lt {n i j : Nat}
    (h : (if i = (n - 1) / 2 then n else if i + 8 < n then i else n + 1 + i) <
      if j = (n - 1) / 2 then n else if j + 8 < n then j else n + 1 + j) :
    middleLast n i < middleLast n j := by
  rw [middleLast, middleLast, Prod.Lex.toLex_lt_toLex]
  exact Or.inr ⟨rfl, by dsimp only; omega⟩

def addMiddleLast (n : Nat) : List DirtyOp := (List.range' 0 n).map fun i => .add (middleLast n i)

theorem added_map_add (f : Nat → DirtySection) (is : List Nat) :
    added (is.map fun i => .add (f i)) = is.map f := by
  induction is with
  | nil => rfl
  | cons i is ih => rw [List.map_cons, added, ih, List.map_cons]

theorem addMiddleLast_length (n : Nat) : (added (addMiddleLast n)).length = n := by
  rw [addMiddleLast, added_map_add, List.length_map, List.length_range']

theorem addMiddleLast_not_commitsExactly {n : Nat} (hn : 2 ^ 30 + 4 < n) (hn' : n < 2 ^ 31)
    (T : SectionTree) (hook : DirtySection → Option String) (tree : List DirtySection)
    {cc : DirtyList} (hcc : cc.dirties = 0) :
    ¬ CommitsExactly T hook tree cc (addMiddleLast n) := by
  rintro ⟨fuel, h⟩
  obtain ⟨cc', sorted, hrun, hsort, _⟩ := h fuel le_rfl
  have hne : ∀ i, middleLast n i ≠ middleLast n (i + 1) := by
    intro i heq
    rw [middleLast, middleLast, toLex_inj, Prod.mk.injEq] at heq
    split_ifs at heq <;> omega
  have hnone : ∀ i < cc.dirties, cc.dirty i = middleLast n i := fun i hi => by omega
  obtain ⟨cc₁, hrun', hlen, hall⟩ := dirtyRun_adds T hook fuel hne (n := n) hnone
  rw [hcc, Nat.zero_add] at hlen
  rw [hcc, ← addMiddleLast, hrun] at hrun'
  injection hrun' with heq
  subst heq
  have hmid : cc'.dirty ((n - 1) / 2) = middleLast n ((n - 1) / 2) := hall _ (by omega)
  have hoverflow := sort_overflow (A := cc'.dirty) hn hn' rfl
    (fun i hi him => by
      rw [hall i (by omega), hmid]
      refine middleLast_lt ?_
      rw [if_neg him, if_pos hi, if_pos rfl]
      omega)
    (fun i hi hin => by
      rw [hall i (by omega), hmid]
      refine middleLast_lt ?_
      rw [if_pos rfl, if_neg (by omega), if_neg (by omega)]
      omega)
  rw [sortDirty, if_neg (by omega), hlen, hoverflow] at hsort
  injection hsort

/-- Commits after `n` additions, with sorts anywhere between them, are exact if and only if `n` is
at most `2 ^ 30 + 4`. -/
theorem commits_exactly_iff {n : Nat} (hn : n < 2 ^ 31) :
    (∀ (T : SectionTree) (hook : DirtySection → Option String) (tree : List DirtySection)
        (cc : DirtyList) (ops : List DirtyOp),
      T.Postorder [toLex (T.sections, 0)] tree → cc.dirties = 0 →
      (∀ x ∈ added ops, hook x = none) → (added ops).length = n →
      CommitsExactly T hook tree cc ops) ↔ n ≤ 2 ^ 30 + 4 := by
  constructor
  · intro h
    by_contra hlong
    let T : SectionTree := ⟨0, fun _ => [], fun _ => true, fun _ => []⟩
    have htree : T.Postorder [toLex (T.sections, 0)] [toLex (T.sections, 0)] := .leaf rfl .nil
    exact addMiddleLast_not_commitsExactly (by omega) hn T (fun _ => none) _ rfl
      (h T (fun _ => none) _ ⟨fun _ => toLex (0, 0), 0⟩ (addMiddleLast n) htree rfl
        (fun _ _ => rfl) (addMiddleLast_length n))
  · intro hfew T hook tree cc ops htree hcc hhook hlen
    exact commitsExactly_of_few htree hcc hhook (by omega)

/-- A section with a subsection and a list of two nodes, all with hooks. -/
def threeSections : SectionTree where
  sections := 1000
  items := fun sec => if sec = 1000 then [.section 2000 1100, .list 2008 1200, .other] else []
  hasCommit := fun _ => true
  nodes := fun head => if head = 2008 then [3000, 3100] else []

theorem commits_exactly_three_sections :
    CommitsExactly threeSections (fun _ => none)
      [toLex (1100, 2000), toLex (1200, 3000), toLex (1200, 3100), toLex (1000, 0)]
      ⟨fun _ => toLex (0, 0), 0⟩
      [.add (toLex (1200, 3100)), .add (toLex (1100, 2000)), .noCommit,
        .add (toLex (1200, 3100))] := by
  refine (commits_exactly_iff (n := 3) (by decide)).mpr (by decide) threeSections _ _ _ _ ?_ rfl
    (fun _ _ => rfl) rfl
  have hbelow : threeSections.Postorder [toLex (1100, 2000), toLex (1200, 3000), toLex (1200, 3100)]
      [toLex (1100, 2000), toLex (1200, 3000), toLex (1200, 3100)] :=
    .leaf rfl (.leaf rfl (.leaf rfl .nil))
  exact @SectionTree.Postorder.cons threeSections 1000 0 _ [] [] hbelow .nil

/-- One instance added too many. -/
theorem commit_faults_past_limit :
    ¬ CommitsExactly ⟨0, fun _ => [], fun _ => true, fun _ => []⟩ (fun _ => none) [toLex (0, 0)]
      ⟨fun _ => toLex (0, 0), 0⟩ (addMiddleLast (2 ^ 30 + 5)) :=
  addMiddleLast_not_commitsExactly (by decide) (by decide) _ _ _ rfl

end OpenAAA.Opt
