import Mathlib.Tactic

/-!
`mpm/task.c`, `mpm/proc.c` and the exit branch of `mpm/signal.c`: the book a parent
task keeps of its child processes. A child has a slot in `object.childs`; a slot
whose process has announced its exit (`TASK_UEXIT`) or has been reaped
(`TASK_EXITED`) is used again by the next `task_create`, and the record of an
announced but unreaped process is moved to `usr_exited`. The intrusive lists are
lists of records in list order; counters and indices are 32 bits wide.
-/

namespace OpenAAA.Mpm

/-- `enum task_state` -/
inductive TaskState where
  | init
  | idle
  | running
  | suspend
  | stopped
  | exited
  | uexit
deriving DecidableEq

/-- `enum task_vm`, and the zero of a cleared record. -/
inductive TaskVm where
  | none
  | create
  | clone
  | shared
deriving DecidableEq

/-- `struct task_attrs`: the fields that `task_balance` fills in. -/
structure TaskAttrs where
  vm : TaskVm := .none
  perCpuProc : Nat := 0
  perCpuThread : Nat := 0
  main : Nat := 0
deriving DecidableEq

/-- `struct task`, as an entry of its parent's lists. `object_alloc_zero` leaves
all fields zero. -/
structure Task where
  attrs : TaskAttrs := {}
  state : TaskState := .init
  vm : TaskVm := .none
  main : Nat := 0
  id : Int := 0
  index : Nat := 0
  level : Nat := 0
  cpu : Nat := 0
deriving DecidableEq

/-- `struct task`, as a parent. -/
structure Parent where
  childs : List Task
  usrExited : List Task
  running : Nat
  tasks : Nat
deriving DecidableEq

/-- The status that `waitpid` reports. -/
inductive WaitStatus where
  | exited (code : Nat)
  | signaled (signo : Nat)
  | stopped (signo : Nat)
  | continued
deriving DecidableEq

/-- `WIFEXITED(status) || WIFSIGNALED(status)` -/
def WaitStatus.isDead : WaitStatus → Bool
  | .exited _ | .signaled _ => true
  | .stopped _ | .continued => false

/-- The first entry of a list with a property, between the entries before and
after it. -/
def findSlot (found : Task → Bool) : List Task → Option (List Task × Task × List Task)
  | [] => none
  | c :: cs =>
      if found c then some ([], c, cs)
      else match findSlot found cs with
        | none => none
        | some (before, slot, after) => some (c :: before, slot, after)

/-- `task_find_state` -/
def taskFindState (p : Parent) (state : TaskState) : Option (List Task × Task × List Task) :=
  findSlot (fun c => c.state = state) p.childs

/-- `task_change_state`: the new value of `p->running` and the child. -/
def taskChangeState (running : Nat) (c : Task) (state : TaskState) : Nat × Task :=
  match state with
  | .running =>
      (if c.state ≠ .running then (running + 1) % 2 ^ 32 else running, { c with state := state })
  | _ =>
      (if c.state = .running then (running + 2 ^ 32 - 1) % 2 ^ 32 else running,
        { c with state := state })

/-- `task_init` -/
def taskInit (c : Task) (arg : TaskAttrs) : Task := { c with attrs := arg, main := arg.main }

/-- `task_dup`: the copy has no `main`. -/
def taskDup (c : Task) : Task where
  index := c.index
  cpu := c.cpu
  level := c.level
  id := c.id
  state := c.state
  vm := c.vm
  attrs := c.attrs

/-- The index that `task_create` gives to a new entry behind the last one. -/
def newIndex (childs : List Task) : Nat :=
  match childs.getLast? with
  | none => 0
  | some last => (last.index + 1) % 2 ^ 32

/-- The slot that `task_create` takes: one whose process has announced its exit, else one
whose process has exited, else a new one at the tail. -/
def taskSlot (p : Parent) : List Task × Task × List Task :=
  match taskFindState p .uexit with
  | some slot => slot
  | none =>
      match taskFindState p .exited with
      | some slot => slot
      | none => (p.childs, { index := newIndex p.childs }, [])

/-- `task_create` in the parent, with the result of `fork`: a process id, or `none` for
`-1`. A slot whose fork fails is removed. -/
def taskCreate (cpuCount : Nat) (p : Parent) (arg : TaskAttrs) (fork : Option Int) :
    Parent × Bool :=
  let (before, c, after) := taskSlot p
  let c := { c with cpu := c.index % cpuCount }
  let c := taskInit c arg
  match fork with
  | none => ({ p with childs := before ++ after }, false)
  | some pid =>
      let c := { c with id := pid }
      let (running, c) := taskChangeState p.running c .running
      ({ p with childs := before ++ c :: after, running := running }, true)

/-- The loop of `sig_action_handler` over the children. -/
def markExits (pid : Int) : Nat → List Task → Nat × List Task
  | running, [] => (running, [])
  | running, c :: cs =>
      if c.id ≠ pid then
        let (running, cs) := markExits pid running cs
        (running, c :: cs)
      else
        let (running, c) := taskChangeState running c .uexit
        let (running, cs) := markExits pid running cs
        (running, c :: cs)

/-- `sig_action_handler` for `SIGEXIT` from a process. -/
def sigActionHandler (p : Parent) (pid : Int) : Parent :=
  let (running, childs) := markExits pid p.running p.childs
  { p with childs := childs, running := running }

/-- The loop of `proc_check_user_exit`: the counter, the children and `usr_exited`. -/
def moveExits : Nat → List Task → List Task → Nat × List Task × List Task
  | running, [], usrExited => (running, [], usrExited)
  | running, c :: cs, usrExited =>
      if c.state ≠ .uexit then
        let (running, cs, usrExited) := moveExits running cs usrExited
        (running, c :: cs, usrExited)
      else
        let usrExited := usrExited ++ [taskDup c]
        let (running, c) := taskChangeState running c .exited
        let (running, cs, usrExited) := moveExits running cs usrExited
        (running, c :: cs, usrExited)

/-- `proc_check_user_exit` -/
def procCheckUserExit (p : Parent) : Parent :=
  let (running, childs, usrExited) := moveExits p.running p.childs p.usrExited
  { p with childs := childs, usrExited := usrExited, running := running }

/-- `proc_status_check` -/
def procStatusCheck (id : Int) (status : WaitStatus) (p : Parent) : Parent :=
  if status.isDead then
    let p := { p with usrExited := p.usrExited.filter (fun c => c.id ≠ id) }
    match findSlot (fun c => c.id = id) p.childs with
    | none => p
    | some (before, c, after) =>
        let p := if status = .exited 0 then { p with tasks := (p.tasks + 2 ^ 32 - 1) % 2 ^ 32 } else p
        let (running, c) := taskChangeState p.running c .exited
        { p with childs := before ++ c :: after, running := running }
  else p

/-- `proc_wait` returns before `waitpid` when there is nothing to wait for. -/
def nothingToWait (p : Parent) : Bool := p.usrExited.isEmpty && p.running = 0

/-- `proc_wait`, with the result of `waitpid`: a child and its status, or `none` for an
interrupted or failed call. -/
def procWait (p : Parent) (wait : Option (Int × WaitStatus)) : Parent × Int :=
  if nothingToWait p then (p, -1)
  else
    let p := procCheckUserExit p
    match wait with
    | none => (p, -1)
    | some (id, status) => (procStatusCheck id status p, 0)

/-! ## What the loops do -/

theorem findSlot_eq_some {found : Task → Bool} {cs before after : List Task} {c : Task}
    (h : findSlot found cs = some (before, c, after)) :
    cs = before ++ c :: after ∧ found c = true ∧ ∀ b ∈ before, found b = false := by
  induction cs generalizing before with
  | nil => simp [findSlot] at h
  | cons a cs ih =>
      by_cases ha : found a = true
      · simp only [findSlot, ha, if_true, Option.some.injEq, Prod.mk.injEq] at h
        obtain ⟨rfl, rfl, rfl⟩ := h
        simp [ha]
      · simp only [findSlot, ha, Bool.false_eq_true, if_false] at h
        split at h
        · simp at h
        · next before' slot after' hrest =>
            simp only [Option.some.injEq, Prod.mk.injEq] at h
            obtain ⟨rfl, rfl, rfl⟩ := h
            obtain ⟨hcs, hfound, hbefore⟩ := ih hrest
            refine ⟨by rw [hcs]; rfl, hfound, ?_⟩
            intro b hb
            rcases List.mem_cons.mp hb with rfl | hb
            · simpa using ha
            · exact hbefore b hb

def TaskState.isRunning (s : TaskState) : Bool := s = .running

/-- The number of entries in state `TASK_RUNNING`. -/
def runningCount (cs : List Task) : Nat := cs.countP (fun c => c.state.isRunning)

@[simp]
theorem runningCount_nil : runningCount [] = 0 := rfl

@[simp]
theorem runningCount_cons (c : Task) (cs : List Task) :
    runningCount (c :: cs) = runningCount cs + if c.state.isRunning then 1 else 0 :=
  List.countP_cons

@[simp]
theorem runningCount_append (cs ds : List Task) :
    runningCount (cs ++ ds) = runningCount cs + runningCount ds :=
  List.countP_append

@[simp]
theorem taskChangeState_task (running : Nat) (c : Task) (state : TaskState) :
    (taskChangeState running c state).2 = { c with state := state } := by
  cases state <;> rfl

/-- A child that leaves `TASK_RUNNING` is taken off the counter, which counts it. -/
theorem taskChangeState_leave {running rest : Nat} {c : Task} {state : TaskState}
    (hstate : state ≠ .running) (hlt : running < 2 ^ 32)
    (hcount : running = rest + if c.state.isRunning then 1 else 0) :
    (taskChangeState running c state).1 = rest := by
  have hdefault : (taskChangeState running c state).1 =
      if c.state = .running then (running + 2 ^ 32 - 1) % 2 ^ 32 else running := by
    cases state <;> first | rfl | exact absurd rfl hstate
  rw [hdefault]
  by_cases hc : c.state = .running
  · simp only [hc, TaskState.isRunning, decide_true, if_true] at hcount ⊢
    omega
  · simpa [hc, TaskState.isRunning] using hcount

/-- What the handler does to one child. -/
def markExit (pid : Int) (c : Task) : Task := if c.id = pid then { c with state := .uexit } else c

/-- What `proc_check_user_exit` does to one child. -/
def freeExit (c : Task) : Task := if c.state = .uexit then { c with state := .exited } else c

theorem markExits_childs (pid : Int) (running : Nat) (cs : List Task) :
    (markExits pid running cs).2 = cs.map (markExit pid) := by
  induction cs generalizing running with
  | nil => rfl
  | cons c cs ih =>
      by_cases hc : c.id = pid
      · simp [markExits, markExit, hc, ih]
      · simp [markExits, markExit, hc, ih]

/-- The counter loses exactly the children that leave `TASK_RUNNING`. -/
theorem markExits_running (pid : Int) {running rest : Nat} {cs : List Task}
    (hlt : running < 2 ^ 32) (hcount : running = rest + runningCount cs) :
    (markExits pid running cs).1 = rest + runningCount (cs.map (markExit pid)) := by
  induction cs generalizing running rest with
  | nil => simpa [markExits] using hcount
  | cons c cs ih =>
      rw [runningCount_cons] at hcount
      by_cases hc : c.id = pid
      · have hhead : (taskChangeState running c .uexit).1 = rest + runningCount cs :=
          taskChangeState_leave (by decide) hlt (by omega)
        have htail := @ih (rest + runningCount cs) rest (by omega) rfl
        simpa [markExits, markExit, hc, hhead, TaskState.isRunning] using htail
      · have htail := @ih running (rest + if c.state.isRunning then 1 else 0) hlt (by omega)
        simp only [markExits, hc, ne_eq, not_false_eq_true, if_true, htail, List.map_cons,
          markExit, if_false, runningCount_cons]
        omega

theorem moveExits_eq (running : Nat) (cs usrExited : List Task) :
    moveExits running cs usrExited =
      (running, cs.map freeExit,
        usrExited ++ (cs.filter (fun c => c.state = .uexit)).map taskDup) := by
  induction cs generalizing usrExited with
  | nil => simp [moveExits]
  | cons c cs ih =>
      by_cases hc : c.state = .uexit
      · simp [moveExits, taskChangeState, freeExit, hc, ih]
      · simp [moveExits, freeExit, hc, ih]

end OpenAAA.Mpm
