import Mathlib.Tactic.ByContra
import OpenAAA.Lib.Runs
import OpenAAA.Mpm.Task

/-!
Whole histories of a parent task. The counter `running` and the indices along
`object.childs` stay consistent as long as they fit their 32 bits. A child
process, however, is forgotten when `task_create` takes a `TASK_UEXIT` slot that
`proc_check_user_exit` has not yet copied to `usr_exited`: its record is the only
one, and it is overwritten by the new process or removed with the failed fork.
-/

namespace OpenAAA.Mpm

open Runs

/-- What `taskSlot` can return: a slot to use again, in its place, or a new one behind
the last when no child is in either state. -/
theorem taskSlot_cases (p : Parent) :
    (∃ before c after, taskSlot p = (before, c, after) ∧ p.childs = before ++ c :: after ∧
      taskFindState p .uexit = some (before, c, after) ∧ c.state = .uexit) ∨
    (∃ before c after, taskSlot p = (before, c, after) ∧ p.childs = before ++ c :: after ∧
      taskFindState p .uexit = none ∧ taskFindState p .exited = some (before, c, after) ∧
      c.state = .exited) ∨
    (taskSlot p = (p.childs, { index := newIndex p.childs }, []) ∧
      taskFindState p .uexit = none ∧ taskFindState p .exited = none) := by
  cases huexit : taskFindState p .uexit with
  | some slot =>
      obtain ⟨before, c, after⟩ := slot
      obtain ⟨hchilds, hc, _⟩ := findSlot_eq_some huexit
      exact Or.inl ⟨before, c, after, by simp [taskSlot, huexit], hchilds, rfl, by simpa using hc⟩
  | none =>
      cases hexited : taskFindState p .exited with
      | some slot =>
          obtain ⟨before, c, after⟩ := slot
          obtain ⟨hchilds, hc, _⟩ := findSlot_eq_some hexited
          exact Or.inr (Or.inl ⟨before, c, after, by simp [taskSlot, huexit, hexited], hchilds,
            rfl, rfl, by simpa using hc⟩)
      | none => exact Or.inr (Or.inr ⟨by simp [taskSlot, huexit, hexited], rfl, rfl⟩)

/-- The entry that a successful `task_create` leaves in its slot. -/
def createdTask (cpuCount : Nat) (c : Task) (arg : TaskAttrs) (pid : Int) : Task :=
  { c with cpu := c.index % cpuCount, attrs := arg, main := arg.main, id := pid, state := .running }

theorem taskCreate_none (cpuCount : Nat) (p : Parent) (arg : TaskAttrs) {before after : List Task}
    {c : Task} (hslot : taskSlot p = (before, c, after)) :
    (taskCreate cpuCount p arg none).1 = { p with childs := before ++ after } := by
  simp [taskCreate, hslot]

theorem taskCreate_some (cpuCount : Nat) (p : Parent) (arg : TaskAttrs) (pid : Int)
    {before after : List Task} {c : Task} (hslot : taskSlot p = (before, c, after))
    (hc : c.state ≠ .running) :
    (taskCreate cpuCount p arg (some pid)).1 =
      { p with
        childs := before ++ createdTask cpuCount c arg pid :: after
        running := (p.running + 1) % 2 ^ 32 } := by
  simp [taskCreate, hslot, taskChangeState, taskInit, createdTask, hc]

/-- What `proc_status_check` does with a status that is not of a terminated child: nothing;
else it drops the id from `usr_exited` and marks the first child that has it. -/
theorem procStatusCheck_cases (id : Int) (status : WaitStatus) (p : Parent) :
    (procStatusCheck id status p).usrExited =
        (if status.isDead then p.usrExited.filter (fun c => c.id ≠ id) else p.usrExited) ∧
      (((procStatusCheck id status p).childs = p.childs ∧
          (procStatusCheck id status p).running = p.running) ∨
        ∃ before c after, p.childs = before ++ c :: after ∧ c.id = id ∧
          (procStatusCheck id status p).childs = before ++ { c with state := .exited } :: after ∧
          (procStatusCheck id status p).running = (taskChangeState p.running c .exited).1) := by
  cases hdead : status.isDead with
  | false => simp [procStatusCheck, hdead]
  | true =>
      cases hslot : findSlot (fun c => c.id = id) p.childs with
      | none => simp [procStatusCheck, hdead, hslot]
      | some slot =>
          obtain ⟨before, c, after⟩ := slot
          obtain ⟨hchilds, hc, _⟩ := findSlot_eq_some hslot
          have hid : c.id = id := by simpa using hc
          unfold procStatusCheck
          rw [if_pos hdead]
          dsimp only
          rw [hslot]
          dsimp only
          split
          · exact ⟨rfl, Or.inr ⟨before, c, after, hchilds, hid, rfl, rfl⟩⟩
          · exact ⟨rfl, Or.inr ⟨before, c, after, hchilds, hid, rfl, rfl⟩⟩

/-! ## The counter and the indices -/

/-- One call on the parent's lists, at the granularity of whole functions. -/
inductive ChildEvent where
  | create (arg : TaskAttrs) (fork : Option Int)
  | sigExit (pid : Int)
  | checkUserExit
  | statusCheck (id : Int) (status : WaitStatus)

def childStep (cpuCount : Nat) (p : Parent) : ChildEvent → Parent
  | .create arg fork => (taskCreate cpuCount p arg fork).1
  | .sigExit pid => sigActionHandler p pid
  | .checkUserExit => procCheckUserExit p
  | .statusCheck id status => procStatusCheck id status p

/-- `running` counts the running children, and the indices increase along the list. -/
def Parent.Consistent (p : Parent) : Prop :=
  p.running = runningCount p.childs ∧ (p.childs.map (·.index)).Pairwise (· < ·)

/-- No slot can be used again, so `task_create` needs a new index. -/
def Parent.Full (p : Parent) : Prop :=
  taskFindState p .uexit = none ∧ taskFindState p .exited = none

/-- A successful `task_create` finds room in the counter and, when it needs a new slot,
behind the last index. -/
def CountersFit (p : Parent) : ChildEvent → Prop
  | .create _ (some _) =>
      runningCount p.childs + 1 < 2 ^ 32 ∧
        (p.Full → ∀ last ∈ p.childs.getLast?, last.index + 1 < 2 ^ 32)
  | _ => True

/-- The invariant of a history. -/
def Parent.Counted (p : Parent) : Prop := p.Consistent ∧ p.running < 2 ^ 32

section Counted

variable {cpuCount : Nat} {p : Parent}

/-- Slots that keep their index and do not run may be removed or used again. -/
theorem runningCount_slot {before after : List Task} {c : Task} (hc : c.state ≠ .running) :
    runningCount (before ++ c :: after) = runningCount (before ++ after) := by
  have hnot : c.state.isRunning = false := by simp [TaskState.isRunning, hc]
  simp [hnot]

theorem runningCount_created {before after : List Task} {c : Task} (arg : TaskAttrs) (pid : Int) :
    runningCount (before ++ createdTask cpuCount c arg pid :: after) =
      runningCount (before ++ after) + 1 := by
  simp only [runningCount_append, runningCount_cons, createdTask, TaskState.isRunning,
    decide_true, if_true]
  omega

/-- A slot of `task_create` is not running, and the children without it are
consistent like the children with it. -/
theorem taskSlot_spec (p : Parent) :
    ∃ before c after, taskSlot p = (before, c, after) ∧ c.state ≠ .running ∧
      runningCount (before ++ after) = runningCount p.childs ∧
      (before ++ after).Sublist p.childs := by
  obtain ⟨before, c, after, hslot, hchilds, _, hc⟩ | ⟨before, c, after, hslot, hchilds, _, _, hc⟩ |
    ⟨hslot, _, _⟩ := taskSlot_cases p
  · have hnot : c.state ≠ .running := by rw [hc]; decide
    refine ⟨before, c, after, hslot, hnot, ?_, ?_⟩
    · rw [hchilds, runningCount_slot hnot]
    · rw [hchilds]
      exact List.Sublist.append_left (List.sublist_cons_self c after) before
  · have hnot : c.state ≠ .running := by rw [hc]; decide
    refine ⟨before, c, after, hslot, hnot, ?_, ?_⟩
    · rw [hchilds, runningCount_slot hnot]
    · rw [hchilds]
      exact List.Sublist.append_left (List.sublist_cons_self c after) before
  · exact ⟨p.childs, _, [], hslot, nofun, by simp, by simp⟩

theorem Parent.Counted.create_none (h : p.Counted) (arg : TaskAttrs) :
    (taskCreate cpuCount p arg none).1.Counted := by
  obtain ⟨⟨hrunning, hindex⟩, hlt⟩ := h
  obtain ⟨before, c, after, hslot, _, hcount, hsub⟩ := taskSlot_spec p
  rw [taskCreate_none cpuCount p arg hslot]
  exact ⟨⟨by rw [hrunning, hcount], hindex.sublist (hsub.map _)⟩, hlt⟩

/-- The indices after a successful `task_create`: those before it, and one more
at the end when no slot could be used again. -/
theorem taskCreate_indexes (p : Parent) (arg : TaskAttrs) (pid : Int) :
    (¬ p.Full → (taskCreate cpuCount p arg (some pid)).1.childs.map (·.index) =
        p.childs.map (·.index)) ∧
      (p.Full → (taskCreate cpuCount p arg (some pid)).1.childs.map (·.index) =
        p.childs.map (·.index) ++ [newIndex p.childs]) := by
  obtain ⟨before, c, after, hslot, hchilds, hfind, hc⟩ |
    ⟨before, c, after, hslot, hchilds, _, hfind, hc⟩ | ⟨hslot, hu, he⟩ := taskSlot_cases p
  · rw [taskCreate_some cpuCount p arg pid hslot (by rw [hc]; decide)]
    refine ⟨fun _ => by simp [hchilds, createdTask], fun hfull => ?_⟩
    simp [hfull.1] at hfind
  · rw [taskCreate_some cpuCount p arg pid hslot (by rw [hc]; decide)]
    refine ⟨fun _ => by simp [hchilds, createdTask], fun hfull => ?_⟩
    simp [hfull.2] at hfind
  · rw [taskCreate_some cpuCount p arg pid hslot nofun]
    exact ⟨fun hnot => absurd ⟨hu, he⟩ hnot, fun _ => by simp [createdTask]⟩

theorem taskCreate_running (p : Parent) (arg : TaskAttrs) (pid : Int) :
    (taskCreate cpuCount p arg (some pid)).1.running = (p.running + 1) % 2 ^ 32 ∧
      runningCount (taskCreate cpuCount p arg (some pid)).1.childs = runningCount p.childs + 1 := by
  obtain ⟨before, c, after, hslot, hnot, hcount, _⟩ := taskSlot_spec p
  rw [taskCreate_some cpuCount p arg pid hslot hnot]
  exact ⟨rfl, by rw [runningCount_created, hcount]⟩

/-- Behind a list of increasing indices stands a larger one exactly when the last index
leaves room. -/
theorem pairwise_newIndex {cs : List Task} (h : (cs.map (·.index)).Pairwise (· < ·)) :
    (cs.map (·.index) ++ [newIndex cs]).Pairwise (· < ·) ↔
      ∀ last ∈ cs.getLast?, last.index + 1 < 2 ^ 32 := by
  rcases List.eq_nil_or_concat cs with rfl | ⟨init, last, rfl⟩
  · simp
  · simp only [List.concat_eq_append, newIndex, List.getLast?_concat, Option.mem_some,
      forall_eq', List.map_append, List.map_cons, List.map_nil] at h ⊢
    rw [List.pairwise_append]
    constructor
    · rintro ⟨_, _, hlast⟩
      have hlt : last.index < (last.index + 1) % 2 ^ 32 :=
        hlast last.index (by simp) _ (by simp)
      have hmod : (last.index + 1) % 2 ^ 32 < 2 ^ 32 := Nat.mod_lt _ (by decide)
      by_contra hge
      omega
    · intro hroom
      refine ⟨h, by simp, ?_⟩
      intro a ha b hb
      have hb' : b = last.index + 1 := by
        rw [Nat.mod_eq_of_lt hroom] at hb
        exact List.mem_singleton.mp hb
      rw [List.pairwise_append] at h
      rcases List.mem_append.mp ha with ha | ha
      · have := h.2.2 a ha last.index (by simp)
        omega
      · have : a = last.index := by simpa using ha
        omega

/-- A successful `task_create` keeps the book consistent exactly when the counters fit. -/
theorem Parent.Counted.create_some (h : p.Counted) (arg : TaskAttrs) (pid : Int) :
    (taskCreate cpuCount p arg (some pid)).1.Consistent ↔
      CountersFit p (.create arg (some pid)) := by
  obtain ⟨⟨hrunning, hindex⟩, _⟩ := h
  obtain ⟨hrun, hcount⟩ := taskCreate_running p arg pid
  obtain ⟨hreuse, hnew⟩ := taskCreate_indexes p arg pid
  have hcounter : (taskCreate cpuCount p arg (some pid)).1.running =
      runningCount (taskCreate cpuCount p arg (some pid)).1.childs ↔
        runningCount p.childs + 1 < 2 ^ 32 := by
    rw [hrun, hcount, hrunning]
    constructor
    · intro heq
      rw [← heq]
      exact Nat.mod_lt _ (by decide)
    · exact Nat.mod_eq_of_lt
  have hindexes : ((taskCreate cpuCount p arg (some pid)).1.childs.map (·.index)).Pairwise (· < ·) ↔
      (p.Full → ∀ last ∈ p.childs.getLast?, last.index + 1 < 2 ^ 32) := by
    by_cases hfull : p.Full
    · rw [hnew hfull, pairwise_newIndex hindex]
      exact ⟨fun hroom _ => hroom, fun hroom => hroom hfull⟩
    · rw [hreuse hfull]
      exact ⟨fun _ hf => absurd hf hfull, fun _ => hindex⟩
  exact and_congr hcounter hindexes

theorem Parent.Counted.sigExit (h : p.Counted) (pid : Int) : (sigActionHandler p pid).Counted := by
  obtain ⟨⟨hrunning, hindex⟩, hlt⟩ := h
  have hchilds : (sigActionHandler p pid).childs = p.childs.map (markExit pid) :=
    markExits_childs pid p.running p.childs
  have hcount : (sigActionHandler p pid).running = runningCount (p.childs.map (markExit pid)) := by
    have hzero : p.running = 0 + runningCount p.childs := by omega
    have hexits := markExits_running pid hlt hzero
    simpa [sigActionHandler] using hexits
  have hmap : (p.childs.map (markExit pid)).map (·.index) = p.childs.map (·.index) := by
    rw [List.map_map]
    apply List.map_congr_left
    intro c _
    simp only [Function.comp_apply, markExit]
    split <;> rfl
  have hle : runningCount (p.childs.map (markExit pid)) ≤ runningCount p.childs := by
    simp only [runningCount, List.countP_map]
    apply List.countP_mono_left
    intro c _ hc
    simp only [Function.comp_apply, markExit] at hc
    split at hc
    · simp [TaskState.isRunning] at hc
    · exact hc
  refine ⟨⟨by rw [hcount, hchilds], by rw [hchilds, hmap]; exact hindex⟩, ?_⟩
  omega

theorem Parent.Counted.checkUserExit (h : p.Counted) : (procCheckUserExit p).Counted := by
  obtain ⟨⟨hrunning, hindex⟩, hlt⟩ := h
  have hmap : (p.childs.map freeExit).map (·.index) = p.childs.map (·.index) := by
    rw [List.map_map]
    apply List.map_congr_left
    intro c _
    simp only [Function.comp_apply, freeExit]
    split <;> rfl
  have hcount : runningCount (p.childs.map freeExit) = runningCount p.childs := by
    simp only [runningCount, List.countP_map]
    apply List.countP_congr
    intro c _
    simp only [Function.comp_apply, freeExit]
    split
    · next huexit => simp [huexit, TaskState.isRunning]
    · exact Iff.rfl
  simp only [procCheckUserExit, moveExits_eq]
  exact ⟨⟨by rw [hcount]; exact hrunning, by rw [hmap]; exact hindex⟩, hlt⟩

theorem Parent.Counted.statusCheck (h : p.Counted) (id : Int) (status : WaitStatus) :
    (procStatusCheck id status p).Counted := by
  obtain ⟨⟨hrunning, hindex⟩, hlt⟩ := h
  obtain ⟨_, ⟨hchilds, hsame⟩ | ⟨before, c, after, hchilds, _, hexited, hrun⟩⟩ :=
    procStatusCheck_cases id status p
  · exact ⟨⟨by rw [hchilds, hsame]; exact hrunning, by rw [hchilds]; exact hindex⟩,
      by rw [hsame]; exact hlt⟩
  · have hcounted : p.running =
        runningCount (before ++ after) + if c.state.isRunning then 1 else 0 := by
      rw [hrunning, hchilds]
      simp only [runningCount_append, runningCount_cons]
      omega
    rw [taskChangeState_leave (by decide) hlt hcounted] at hrun
    have hslot : runningCount (before ++ { c with state := .exited } :: after) =
        runningCount (before ++ after) := runningCount_slot nofun
    refine ⟨⟨?_, ?_⟩, ?_⟩
    · rw [hrun, hexited, hslot]
    · rw [hexited]
      simpa [hchilds] using hindex
    · rw [hrun]
      omega

end Counted

/-- In every history of a parent that starts without children, `running` counts the running
children and the indices increase in every state, if and only if every successful
`task_create` finds fewer than `2 ^ 32 - 1` running children and, where it appends a slot,
a last index below `2 ^ 32 - 1`. -/
theorem childs_consistent_iff (cpuCount : Nat) (p : Parent) (hchilds : p.childs = [])
    (hrunning : p.running = 0) (events : List ChildEvent) :
    Throughout (childStep cpuCount) Parent.Consistent p events ↔
      EachStep (childStep cpuCount) CountersFit p events := by
  have hstart : p.Counted := by
    refine ⟨⟨?_, ?_⟩, ?_⟩
    · rw [hrunning, hchilds, runningCount_nil]
    · simp [hchilds]
    · simp [hrunning]
  have hlegal : EachStep (childStep cpuCount) (fun _ _ => True) p events := by
    clear hstart hchilds hrunning
    induction events generalizing p with
    | nil => trivial
    | cons e events ih => exact ⟨trivial, ih _⟩
  refine throughout_iff_eachStep (I := Parent.Counted) (fun s hs => hs.1) ?_ ?_ hstart hlegal
  · intro s e hs _ hfit
    cases e with
    | create arg fork =>
        cases fork with
        | none => exact hs.create_none arg
        | some pid =>
            refine ⟨(hs.create_some arg pid).mpr hfit, ?_⟩
            exact (taskCreate_running s arg pid).1 ▸ Nat.mod_lt _ (by decide)
    | sigExit pid => exact hs.sigExit pid
    | checkUserExit => exact hs.checkUserExit
    | statusCheck id status => exact hs.statusCheck id status
  · intro s e hs _ hfit hcons
    cases e with
    | create arg fork =>
        cases fork with
        | none => exact hfit trivial
        | some pid => exact hfit ((hs.create_some arg pid).mp hcons)
    | sigExit pid => exact hfit trivial
    | checkUserExit => exact hfit trivial
    | statusCheck id status => exact hfit trivial

/-- A parent without children that wants one. -/
def idleParent : Parent := ⟨[], [], 0, 1⟩

theorem childs_consistent_reused_slot :
    EachStep (childStep 2) CountersFit idleParent
        [.create {} (some 7), .sigExit 7, .create {} (some 8), .statusCheck 8 (.exited 1)] ∧
      Throughout (childStep 2) Parent.Consistent idleParent
        [.create {} (some 7), .sigExit 7, .create {} (some 8), .statusCheck 8 (.exited 1)] := by
  have hfit : EachStep (childStep 2) CountersFit idleParent
      [.create {} (some 7), .sigExit 7, .create {} (some 8), .statusCheck 8 (.exited 1)] := by
    refine ⟨⟨by decide, fun _ => ?_⟩, trivial, ⟨by decide, fun hfull => ?_⟩, trivial, trivial⟩
    · simp [idleParent]
    · exact absurd hfull.1 (by decide)
  exact ⟨hfit, (childs_consistent_iff 2 idleParent rfl rfl _).mpr hfit⟩

/-! The index grows without bound when slots are removed in front of the last one: a second
child starts, the first exits, and the fork that would use its slot again fails. -/

/-- The process ids of the children, used in turn. -/
def turnPid (k : Nat) : Int := 2 + (k : Int) % 2

def turn (k : Nat) : List ChildEvent :=
  [.create {} (some (turnPid (k + 1))), .statusCheck (turnPid k) (.exited 1), .create {} none]

def onlyChild (k : Nat) : Parent :=
  ⟨[createdTask 1 { index := k } {} (turnPid k)], [], 1, 1⟩

theorem run_turn {k : Nat} (hk : k + 1 < 2 ^ 32) :
    run (childStep 1) (onlyChild k) (turn k) = onlyChild (k + 1) := by
  simpa [run, turn, childStep, onlyChild, taskCreate, taskSlot, taskFindState, findSlot, newIndex,
    createdTask, taskInit, taskChangeState, procStatusCheck, WaitStatus.isDead, Nat.mod_one] using hk

theorem run_turns {n : Nat} (hn : n < 2 ^ 32) :
    run (childStep 1) (onlyChild 0) ((List.range n).flatMap turn) = onlyChild n := by
  induction n with
  | zero => rfl
  | succ n ih =>
      rw [List.range_succ, List.flatMap_append, run_append, ih (by omega)]
      simpa using run_turn hn

/-- The first child, `2 ^ 32 - 1` turns, and one child more. -/
def indexOverflow : List ChildEvent :=
  .create {} (some 2) :: ((List.range (2 ^ 32 - 1)).flatMap turn ++ [.create {} (some 2)])

theorem childs_inconsistent_after_overflow :
    idleParent.childs = [] ∧ idleParent.running = 0 ∧
      ¬ Throughout (childStep 1) Parent.Consistent idleParent indexOverflow := by
  refine ⟨rfl, rfl, fun hall => ?_⟩
  have hlast := hall.last
  have hfirst : childStep 1 idleParent (.create {} (some 2)) = onlyChild 0 := by decide
  have hgrown : run (childStep 1) idleParent indexOverflow =
      childStep 1 (onlyChild (2 ^ 32 - 1)) (.create {} (some 2)) := by
    rw [indexOverflow, run_cons, hfirst, run_append, run_turns (by decide)]
    rfl
  rw [hgrown] at hlast
  exact absurd hlast.2 (by decide)

/-! ## The processes that the parent knows -/

/-- The parent, the processes it has forked and not yet reaped, and all it has ever forked. -/
structure World where
  parent : Parent
  live : List Int
  forked : List Int

inductive ProcEvent where
  | create (arg : TaskAttrs) (fork : Option Int)
  | sigExit (pid : Int)
  | wait (result : Option (Int × WaitStatus))

/-- A successful `fork` adds a process, and a `waitpid` that returns one takes it away. -/
def World.step (cpuCount : Nat) (w : World) : ProcEvent → World
  | .create arg fork =>
      ⟨(taskCreate cpuCount w.parent arg fork).1, fork.toList ++ w.live, fork.toList ++ w.forked⟩
  | .sigExit pid => { w with parent := sigActionHandler w.parent pid }
  | .wait result =>
      let parent := (procWait w.parent result).1
      if nothingToWait w.parent then { w with parent := parent }
      else match result with
        | none => { w with parent := parent }
        | some (id, _) => { w with parent := parent, live := w.live.filter (· ≠ id) }

/-- What POSIX promises, without reuse of process ids: `fork` returns a new positive id,
the handler runs for a live child, and `waitpid` without options returns a live child
that has terminated. -/
def ProcEvent.Legal (w : World) : ProcEvent → Prop
  | .create _ none => True
  | .create _ (some pid) => 0 < pid ∧ pid ∉ w.forked
  | .sigExit pid => pid ∈ w.live
  | .wait none => True
  | .wait (some (id, status)) => id ∈ w.live ∧ status.isDead = true

/-- Every process that was forked and not reaped has an entry in one of the two lists. -/
def World.Tracked (w : World) : Prop :=
  ∀ pid ∈ w.live, (∃ c ∈ w.parent.childs, c.id = pid) ∨ ∃ d ∈ w.parent.usrExited, d.id = pid

/-- The slot whose process announced its exit and that `task_create` would take first, if
there is one, has been copied to `usr_exited`. -/
def Parent.SlotRecorded (p : Parent) : Prop :=
  ∀ before c after, taskFindState p .uexit = some (before, c, after) →
    ∃ d ∈ p.usrExited, d.id = c.id

/-- `task_create` runs only when the slot it takes is recorded. -/
def CreateRecorded (w : World) : ProcEvent → Prop
  | .create _ _ => w.parent.SlotRecorded
  | _ => True

/-- A slot that still stands for a process. -/
def Task.Holds (c : Task) : Prop := c.state = .running ∨ c.state = .uexit

/-- The invariant of a history: an unreaped process is on `usr_exited` or in a slot that may
not be used again before it is recorded, and no two slots carry one id. -/
structure World.Watched (w : World) : Prop where
  held : ∀ pid ∈ w.live, (∃ c ∈ w.parent.childs, c.id = pid ∧ c.Holds) ∨
    ∃ d ∈ w.parent.usrExited, d.id = pid
  ids_nodup : (w.parent.childs.map (·.id)).Nodup
  ids_forked : ∀ c ∈ w.parent.childs, c.id ∈ w.forked
  uexit_live : ∀ c ∈ w.parent.childs, c.state = .uexit → c.id ∈ w.live

section Watched

variable {cpuCount : Nat} {w : World}

theorem World.Watched.tracked (h : w.Watched) : w.Tracked := by
  intro pid hpid
  rcases h.held pid hpid with ⟨c, hc, hid, _⟩ | hexited
  · exact Or.inl ⟨c, hc, hid⟩
  · exact Or.inr hexited

/-- Without a slot whose process, if it held one, is on `usr_exited`. -/
theorem World.Watched.without (h : w.Watched) {before after : List Task} {c : Task}
    (hchilds : w.parent.childs = before ++ c :: after)
    (hc : c.Holds → ∃ d ∈ w.parent.usrExited, d.id = c.id) :
    (before ++ after).Sublist w.parent.childs ∧
      ∀ pid ∈ w.live, (∃ c ∈ before ++ after, c.id = pid ∧ c.Holds) ∨
        ∃ d ∈ w.parent.usrExited, d.id = pid := by
  constructor
  · rw [hchilds]
    exact List.Sublist.append_left (List.sublist_cons_self c after) before
  · intro pid hpid
    rcases h.held pid hpid with ⟨x, hx, hid, hholds⟩ | hexited
    · rw [hchilds, List.mem_append, List.mem_cons] at hx
      rcases hx with hx | rfl | hx
      · exact Or.inl ⟨x, List.mem_append_left _ hx, hid, hholds⟩
      · obtain ⟨d, hd, hdid⟩ := hc hholds
        exact Or.inr ⟨d, hd, hdid.trans hid⟩
      · exact Or.inl ⟨x, List.mem_append_right _ hx, hid, hholds⟩
    · exact Or.inr hexited

/-- The slot of `task_create` when it is recorded: a process it stood for is on
`usr_exited`, and every other slot stays. -/
theorem World.Watched.slot (h : w.Watched) (hrec : w.parent.SlotRecorded) :
    ∃ before c after, taskSlot w.parent = (before, c, after) ∧ c.state ≠ .running ∧
      (before ++ after).Sublist w.parent.childs ∧
      ∀ pid ∈ w.live, (∃ c ∈ before ++ after, c.id = pid ∧ c.Holds) ∨
        ∃ d ∈ w.parent.usrExited, d.id = pid := by
  obtain ⟨before, c, after, hslot, hchilds, hfind, hc⟩ |
    ⟨before, c, after, hslot, hchilds, _, hfind, hc⟩ | ⟨hslot, _, _⟩ := taskSlot_cases w.parent
  · exact ⟨before, c, after, hslot, by rw [hc]; decide,
      h.without hchilds fun _ => hrec before c after hfind⟩
  · refine ⟨before, c, after, hslot, by rw [hc]; decide, h.without hchilds fun hholds => ?_⟩
    simp [Task.Holds, hc] at hholds
  · refine ⟨w.parent.childs, _, [], hslot, nofun, by simp, ?_⟩
    simpa using h.held

theorem World.Watched.create_none (h : w.Watched) (hrec : w.parent.SlotRecorded) (arg : TaskAttrs) :
    (w.step cpuCount (.create arg none)).Watched := by
  obtain ⟨before, c, after, hslot, _, hsub, hheld⟩ := h.slot hrec
  simp only [World.step, taskCreate_none cpuCount w.parent arg hslot, Option.toList_none,
    List.nil_append]
  exact {
    held := hheld
    ids_nodup := h.ids_nodup.sublist (hsub.map _)
    ids_forked := fun x hx => h.ids_forked x (hsub.subset hx)
    uexit_live := fun x hx => h.uexit_live x (hsub.subset hx) }

theorem World.Watched.create_some (h : w.Watched) (hrec : w.parent.SlotRecorded) (arg : TaskAttrs)
    {pid : Int} (hpid : pid ∉ w.forked) :
    (w.step cpuCount (.create arg (some pid))).Watched := by
  obtain ⟨before, c, after, hslot, hc, hsub, hheld⟩ := h.slot hrec
  simp only [World.step, taskCreate_some cpuCount w.parent arg pid hslot hc, Option.toList_some,
    List.singleton_append]
  have hrest : ∀ x ∈ before ++ after, x ∈ w.parent.childs := fun x hx => hsub.subset hx
  have hmem : ∀ x ∈ before ++ createdTask cpuCount c arg pid :: after,
      x = createdTask cpuCount c arg pid ∨ x ∈ before ++ after := by
    intro x hx
    simp only [List.mem_append, List.mem_cons] at hx ⊢
    tauto
  exact {
    held := by
      intro q hq
      rcases List.mem_cons.mp hq with rfl | hq
      · exact Or.inl ⟨_, List.mem_append_right _ List.mem_cons_self, rfl, Or.inl rfl⟩
      · rcases hheld q hq with ⟨x, hx, hid, hholds⟩ | hexited
        · refine Or.inl ⟨x, ?_, hid, hholds⟩
          simp only [List.mem_append, List.mem_cons] at hx ⊢
          tauto
        · exact Or.inr hexited
    ids_nodup := by
      have hnodup := h.ids_nodup.sublist (hsub.map (·.id))
      have hnew : pid ∉ (before ++ after).map (·.id) := by
        intro hin
        obtain ⟨x, hx, hid⟩ := List.mem_map.mp hin
        exact hpid (hid ▸ h.ids_forked x (hrest x hx))
      rw [List.map_append] at hnodup hnew
      rw [List.map_append, List.map_cons]
      exact List.nodup_middle.mpr (List.nodup_cons.mpr ⟨hnew, hnodup⟩)
    ids_forked := by
      intro x hx
      rcases hmem x hx with rfl | hx
      · exact List.mem_cons_self
      · exact List.mem_cons_of_mem _ (h.ids_forked x (hrest x hx))
    uexit_live := by
      intro x hx hstate
      rcases hmem x hx with rfl | hx
      · exact absurd hstate nofun
      · exact List.mem_cons_of_mem _ (h.uexit_live x (hrest x hx) hstate) }

theorem World.Watched.sigExit (h : w.Watched) {pid : Int} (hpid : pid ∈ w.live) :
    (w.step cpuCount (.sigExit pid)).Watched := by
  have hchilds : (sigActionHandler w.parent pid).childs = w.parent.childs.map (markExit pid) :=
    markExits_childs pid w.parent.running w.parent.childs
  have hid : ∀ c, (markExit pid c).id = c.id := by
    intro c
    unfold markExit
    split <;> rfl
  exact {
    held := by
      intro q hq
      rcases h.held q hq with ⟨c, hc, hcid, hholds⟩ | hexited
      · refine Or.inl ⟨markExit pid c, ?_, (hid c).trans hcid, ?_⟩
        · rw [World.step, hchilds]
          exact List.mem_map_of_mem hc
        · unfold markExit
          split
          · exact Or.inr rfl
          · exact hholds
      · exact Or.inr hexited
    ids_nodup := by
      rw [World.step, hchilds, List.map_map]
      have hsame : ((·.id) ∘ markExit pid : Task → Int) = (·.id) := funext hid
      rw [hsame]
      exact h.ids_nodup
    ids_forked := by
      intro x hx
      rw [World.step, hchilds] at hx
      obtain ⟨c, hc, rfl⟩ := List.mem_map.mp hx
      rw [hid]
      exact h.ids_forked c hc
    uexit_live := by
      intro x hx hstate
      rw [World.step, hchilds] at hx
      obtain ⟨c, hc, rfl⟩ := List.mem_map.mp hx
      rw [hid]
      by_cases hcid : c.id = pid
      · exact hcid ▸ hpid
      · rw [markExit, if_neg hcid] at hstate
        exact h.uexit_live c hc hstate }

/-- `proc_check_user_exit` records every announced exit and leaves no `TASK_UEXIT` slot. -/
theorem World.Watched.checkUserExit (h : w.Watched) :
    World.Watched { w with parent := procCheckUserExit w.parent } ∧
      ∀ c ∈ (procCheckUserExit w.parent).childs, c.state ≠ .uexit := by
  have hid : ∀ c, (freeExit c).id = c.id := by
    intro c
    unfold freeExit
    split <;> rfl
  have hnone : ∀ c ∈ (procCheckUserExit w.parent).childs, c.state ≠ .uexit := by
    intro x hx
    simp only [procCheckUserExit, moveExits_eq] at hx
    obtain ⟨c, _, rfl⟩ := List.mem_map.mp hx
    unfold freeExit
    split
    · nofun
    · next hc => exact hc
  refine ⟨?_, hnone⟩
  exact {
    held := by
      intro q hq
      simp only [procCheckUserExit, moveExits_eq]
      rcases h.held q hq with ⟨c, hc, hcid, hholds⟩ | ⟨d, hd, hdid⟩
      · rcases hholds with hrunning | huexit
        · refine Or.inl ⟨freeExit c, List.mem_map_of_mem hc, (hid c).trans hcid, ?_⟩
          rw [freeExit, if_neg (by rw [hrunning]; decide)]
          exact Or.inl hrunning
        · refine Or.inr ⟨taskDup c, List.mem_append_right _ ?_, hcid⟩
          exact List.mem_map_of_mem (List.mem_filter.mpr ⟨hc, by simpa using huexit⟩)
      · exact Or.inr ⟨d, List.mem_append_left _ hd, hdid⟩
    ids_nodup := by
      simp only [procCheckUserExit, moveExits_eq, List.map_map]
      have hsame : ((·.id) ∘ freeExit : Task → Int) = (·.id) := funext hid
      rw [hsame]
      exact h.ids_nodup
    ids_forked := by
      intro x hx
      simp only [procCheckUserExit, moveExits_eq] at hx
      obtain ⟨c, hc, rfl⟩ := List.mem_map.mp hx
      rw [hid]
      exact h.ids_forked c hc
    uexit_live := fun c hc hstate => absurd hstate (hnone c hc) }

/-- `proc_status_check` lets only the reaped process go. -/
theorem World.Watched.statusCheck (h : w.Watched) (hnone : ∀ c ∈ w.parent.childs, c.state ≠ .uexit)
    (id : Int) {status : WaitStatus} (hdead : status.isDead = true) :
    World.Watched ⟨procStatusCheck id status w.parent, w.live.filter (· ≠ id), w.forked⟩ := by
  obtain ⟨husr, hcases⟩ := procStatusCheck_cases id status w.parent
  rw [hdead, if_pos rfl] at husr
  have husr_held : ∀ q ≠ id, (∃ d ∈ w.parent.usrExited, d.id = q) →
      ∃ d ∈ (procStatusCheck id status w.parent).usrExited, d.id = q := by
    rintro q hq ⟨d, hd, rfl⟩
    rw [husr]
    exact ⟨d, List.mem_filter.mpr ⟨hd, by simpa using hq⟩, rfl⟩
  rcases hcases with ⟨hchilds, _⟩ | ⟨before, c, after, hchilds, hid, hexited, _⟩
  · exact {
      held := by
        intro q hq
        obtain ⟨hlive, hne⟩ := List.mem_filter.mp hq
        rw [hchilds]
        exact (h.held q hlive).imp_right (husr_held q (by simpa using hne))
      ids_nodup := by rw [hchilds]; exact h.ids_nodup
      ids_forked := by rw [hchilds]; exact h.ids_forked
      uexit_live := by
        rw [hchilds]
        exact fun x hx hstate => absurd hstate (hnone x hx) }
  · have hmem : ∀ x ∈ before ++ { c with state := .exited } :: after,
        x = { c with state := .exited } ∨ x ∈ w.parent.childs := by
      intro x hx
      rw [hchilds]
      simp only [List.mem_append, List.mem_cons] at hx ⊢
      tauto
    have hc : c ∈ w.parent.childs := by
      rw [hchilds]
      exact List.mem_append_right _ List.mem_cons_self
    exact {
      held := by
        intro q hq
        obtain ⟨hlive, hne⟩ := List.mem_filter.mp hq
        have hqid : q ≠ id := by simpa using hne
        rcases h.held q hlive with ⟨x, hx, hxid, hholds⟩ | hexited'
        · -- the slot that is marked has the reaped id, so this one is another
          refine Or.inl ⟨x, ?_, hxid, hholds⟩
          rw [hchilds, List.mem_append, List.mem_cons] at hx
          rw [hexited, List.mem_append, List.mem_cons]
          rcases hx with hx | rfl | hx
          · exact Or.inl hx
          · exact absurd (hxid.symm.trans hid) hqid
          · exact Or.inr (Or.inr hx)
        · exact Or.inr (husr_held q hqid hexited')
      ids_nodup := by
        rw [hexited]
        simpa [hchilds] using h.ids_nodup
      ids_forked := by
        rw [hexited]
        intro x hx
        rcases hmem x hx with rfl | hx
        · exact h.ids_forked c hc
        · exact h.ids_forked x hx
      uexit_live := by
        rw [hexited]
        intro x hx hstate
        rcases hmem x hx with rfl | hx
        · exact absurd hstate nofun
        · exact absurd hstate (hnone x hx) }

theorem World.Watched.wait (h : w.Watched) {result : Option (Int × WaitStatus)}
    (hlegal : (ProcEvent.wait result).Legal w) : (w.step cpuCount (.wait result)).Watched := by
  by_cases hnothing : nothingToWait w.parent = true
  · simpa [World.step, procWait, hnothing] using h
  · obtain ⟨hchecked, hnone⟩ := h.checkUserExit
    cases result with
    | none => simpa [World.step, procWait, hnothing] using hchecked
    | some reaped =>
        obtain ⟨id, status⟩ := reaped
        have hreaped := hchecked.statusCheck hnone id hlegal.2
        simpa [World.step, procWait, hnothing] using hreaped

/-- A process whose only record is the slot that `task_create` takes is lost. -/
theorem World.Watched.create_loses (h : w.Watched) (hrec : ¬ w.parent.SlotRecorded)
    (arg : TaskAttrs) {fork : Option Int} (hlegal : (ProcEvent.create arg fork).Legal w) :
    ¬ (w.step cpuCount (.create arg fork)).Tracked := by
  simp only [Parent.SlotRecorded, not_forall] at hrec
  obtain ⟨before, c, after, hfind, hlost⟩ := hrec
  obtain ⟨hchilds, hc, _⟩ := findSlot_eq_some hfind
  have hslot : taskSlot w.parent = (before, c, after) := by simp [taskSlot, hfind]
  have hstate : c.state = .uexit := by simpa using hc
  have hmem : c ∈ w.parent.childs := by
    rw [hchilds]
    exact List.mem_append_right _ List.mem_cons_self
  have hothers : ∀ x ∈ before ++ after, x.id ≠ c.id := by
    have hnodup := h.ids_nodup
    rw [hchilds, List.map_append, List.map_cons, List.nodup_middle, List.nodup_cons,
      ← List.map_append] at hnodup
    exact fun x hx hid => hnodup.1 (List.mem_map.mpr ⟨x, hx, hid⟩)
  have hlive : c.id ∈ fork.toList ++ w.live := List.mem_append_right _ (h.uexit_live c hmem hstate)
  intro htracked
  rcases htracked c.id hlive with ⟨x, hx, hid⟩ | hexited
  · cases fork with
    | none =>
        rw [World.step, taskCreate_none cpuCount w.parent arg hslot] at hx
        exact hothers x hx hid
    | some pid =>
        rw [World.step, taskCreate_some cpuCount w.parent arg pid hslot (by rw [hstate]; decide)] at hx
        simp only [List.mem_append, List.mem_cons] at hx
        rcases hx with hx | rfl | hx
        · exact hothers x (List.mem_append_left _ hx) hid
        · have hpid : pid = c.id := hid
          exact hlegal.2 (hpid ▸ h.ids_forked c hmem)
        · exact hothers x (List.mem_append_right _ hx) hid
  · apply hlost
    cases fork with
    | none => rwa [World.step, taskCreate_none cpuCount w.parent arg hslot] at hexited
    | some pid =>
        rwa [World.step,
          taskCreate_some cpuCount w.parent arg pid hslot (by rw [hstate]; decide)] at hexited

end Watched

/-- In every history of a parent that starts without children, every forked and unreaped
process is in one of the two lists in every state, if and only if `task_create` is only called
when the first `TASK_UEXIT` child, if there is one, is already recorded on `usr_exited`. -/
theorem live_childs_tracked_iff (cpuCount : Nat) (p : Parent) (hchilds : p.childs = [])
    (events : List ProcEvent)
    (hlegal : EachStep (World.step cpuCount) (fun w e => e.Legal w) ⟨p, [], []⟩ events) :
    Throughout (World.step cpuCount) World.Tracked ⟨p, [], []⟩ events ↔
      EachStep (World.step cpuCount) CreateRecorded ⟨p, [], []⟩ events := by
  have hstart : World.Watched ⟨p, [], []⟩ := by
    constructor <;> simp [hchilds]
  refine throughout_iff_eachStep (I := World.Watched) (fun w hw => hw.tracked) ?_ ?_ hstart hlegal
  · intro w e hw he hrec
    cases e with
    | create arg fork =>
        cases fork with
        | none => exact hw.create_none hrec arg
        | some pid => exact hw.create_some hrec arg he.2
    | sigExit pid => exact hw.sigExit he
    | wait result => exact hw.wait he
  · intro w e hw he hrec
    cases e with
    | create arg fork => exact hw.create_loses hrec arg he
    | sigExit pid => exact absurd trivial hrec
    | wait result => exact absurd trivial hrec

/-- The exit of the first of two children is announced, and the parent waits before it creates
the next child. -/
def waitsFirst : List ProcEvent :=
  [.create {} (some 100), .create {} (some 101), .sigExit 100, .wait none, .create {} (some 102),
    .wait (some (100, .exited 0))]

theorem live_childs_tracked_wait_first :
    EachStep (World.step 2) (fun w e => e.Legal w) ⟨idleParent, [], []⟩ waitsFirst ∧
      Throughout (World.step 2) World.Tracked ⟨idleParent, [], []⟩ waitsFirst := by
  have hlegal : EachStep (World.step 2) (fun w e => e.Legal w) ⟨idleParent, [], []⟩ waitsFirst :=
    ⟨⟨by decide, by decide⟩, ⟨by decide, by decide⟩, (by decide : (100 : Int) ∈ _), trivial,
      ⟨by decide, by decide⟩, ⟨by decide, rfl⟩, trivial⟩
  refine ⟨hlegal, (live_childs_tracked_iff 2 idleParent rfl _ hlegal).mpr ?_⟩
  refine ⟨?_, ?_, trivial, trivial, ?_, trivial, trivial⟩
  · intro before c after hfind
    exact absurd hfind nofun
  · intro before c after hfind
    exact absurd hfind nofun
  · intro before c after hfind
    exact absurd hfind nofun

/-- The exit of process 100 is announced and the next `task_create` takes its slot: the process
is still to be reaped, and neither list has it. -/
theorem live_child_lost_reused_slot :
    EachStep (World.step 2) (fun w e => e.Legal w) ⟨idleParent, [], []⟩
        [.create {} (some 100), .sigExit 100, .create {} (some 101)] ∧
      ¬ Throughout (World.step 2) World.Tracked ⟨idleParent, [], []⟩
        [.create {} (some 100), .sigExit 100, .create {} (some 101)] := by
  refine ⟨⟨⟨by decide, by decide⟩, (by decide : (100 : Int) ∈ _), ⟨by decide, by decide⟩, trivial⟩, ?_⟩
  intro hall
  rcases hall.last 100 (by decide) with ⟨c, hc, hid⟩ | ⟨d, hd, _⟩
  · have honly : c.id = 101 := by
      rcases List.mem_singleton.mp hc with rfl
      rfl
    omega
  · exact absurd hd nofun

end OpenAAA.Mpm
