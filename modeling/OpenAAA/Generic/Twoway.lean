import OpenAAA.Generic.MultiwayMerge

/-!
`generic/sorter/s-twoway.h`: one pass of a natural merge sort. The runs of two inputs are
merged pairwise and the merged runs go to two outputs in turn. The buffers of the keys are
modelled by their values; `kout` points to the last key written, whose buffer is not read
into before `kout` moves on.
-/

namespace OpenAAA.Sorter

open Merging

variable {ρ κ : Type} [LinearOrder κ]

/-- `comp LESS 0` -/
def SortParams.less (p : SortParams ρ κ) (comp : Ordering) : Bool :=
  if p.unify then comp = .lt else comp ≠ .gt

/-- `fin1`, `kin1`, `next1` and `run1`, or the same of the second input. -/
structure Inflow (ρ : Type) where
  fin : List ρ
  kin : Option ρ
  next : Bool
  run : Bool

/-- The local variables of `twoway_merge`; `run_count` is an unsigned integer. -/
structure Twoway (ρ : Type) where
  in1 : Inflow ρ
  in2 : Inflow ρ
  kout : Option ρ
  fout1 : Option Nat
  fout2 : Option Nat
  outs : Nat → List ρ
  runCount : Nat

/-- `*key` -/
def keyOf (key : Option ρ) : Except MergeFault ρ :=
  match key with
  | some x => .ok x
  | none => .error .uninitialised

/-- `next = read_key(fin, kin)` at the start of a file. -/
def Inflow.start : List ρ → Inflow ρ
  | [] => ⟨[], none, false, false⟩
  | x :: rest => ⟨rest, some x, true, true⟩

/-- `next = read_key(fin, kin); run = next && (compare(kprev, kin) LESS 0)` -/
def Inflow.advance (p : SortParams ρ κ) (kprev : ρ) (i : Inflow ρ) : Inflow ρ :=
  match i.fin with
  | [] => ⟨[], none, false, false⟩
  | x :: rest => ⟨rest, some x, true, p.less (p.compare kprev x)⟩

/-- `comp` -/
def Twoway.comp (p : SortParams ρ κ) (t : Twoway ρ) : Except MergeFault Ordering :=
  if !t.in1.run then .ok .gt
  else if !t.in2.run then .ok .lt
  else do
    let x ← keyOf t.in1.kin
    let y ← keyOf t.in2.kin
    pure (p.compare x y)

/-- The other output for a new run; `two` says that there is an `outs[1]`. -/
def Twoway.newRun (two : Bool) (t : Twoway ρ) : Twoway ρ :=
  { t with
    fout1 := match t.fout2 with
      | some i => some i
      | none => match t.fout1 with
        | none => some 0
        | some i => if two then some 1 else some i
    fout2 := t.fout1
    runCount := (t.runCount + 1) % 2 ^ 32 }

/-- The output for a run that goes on with `ktmp` or for a new one. -/
def Twoway.choose (p : SortParams ρ κ) (two : Bool) (ktmp : ρ) (t : Twoway ρ) : Twoway ρ :=
  match t.kout with
  | none => t.newRun two
  | some k => if p.less (p.compare k ktmp) then t else t.newRun two

/-- One record to `fout1`. -/
def Twoway.write (x : ρ) (t : Twoway ρ) : Except MergeFault (Twoway ρ) :=
  match t.fout1 with
  | none => .error .outOfRange
  | some i => .ok { t with outs := Function.update t.outs i (t.outs i ++ [x]) }

/-- The record that `comp` selects goes out and the next one comes in. -/
def Twoway.copy (p : SortParams ρ κ) (comp : Ordering) (t : Twoway ρ) :
    Except MergeFault (Twoway ρ) :=
  if p.less comp then do
    let x ← keyOf t.in1.kin
    let t ← t.write x
    pure { t with in1 := t.in1.advance p x, kout := some x }
  else if p.unify ∧ comp = .eq then do
    let x ← keyOf t.in1.kin
    let y ← keyOf t.in2.kin
    let t ← t.write (p.merged [x, y])
    pure { t with in1 := t.in1.advance p x, in2 := t.in2.advance p y, kout := some y }
  else do
    let y ← keyOf t.in2.kin
    let t ← t.write y
    pure { t with in2 := t.in2.advance p y, kout := some y }

/-- `if (!run1 && !run2) { run1 = next1; run2 = next2; }` -/
def Twoway.nextRuns (t : Twoway ρ) : Twoway ρ :=
  if !t.in1.run ∧ !t.in2.run then
    { t with in1 := { t.in1 with run := t.in1.next }, in2 := { t.in2 with run := t.in2.next } }
  else t

def twowayTurn (p : SortParams ρ κ) (two : Bool) (t : Twoway ρ) : Except MergeFault (Twoway ρ) := do
  let comp ← t.comp p
  let ktmp ← keyOf (if comp ≠ .gt then t.in1.kin else t.in2.kin)
  let t ← (t.choose p two ktmp).copy p comp
  pure t.nextRuns

def twowayLoop (p : SortParams ρ κ) (two : Bool) : Nat → Twoway ρ → Except MergeFault (Twoway ρ)
  | 0, _ => .error .stuck
  | fuel + 1, t =>
    if t.in1.next ∨ t.in2.next then do
      let t ← twowayTurn p two t
      twowayLoop p two fuel t
    else .ok t

/-- What `twoway_merge` leaves: what it appends to each of the outputs, and what it adds to
their `runs`. -/
structure TwowayResult (ρ : Type) where
  out0 : List ρ
  out1 : List ρ
  runs0 : Nat
  runs1 : Nat
deriving DecidableEq

/-- `twoway_merge` -/
def twowayMerge (p : SortParams ρ κ) (ins0 ins1 : List ρ) (two : Bool) :
    Except MergeFault (TwowayResult ρ) := do
  let t ← twowayLoop p two (ins0.length + ins1.length + 1)
    ⟨.start ins0, .start ins1, none, none, none, fun _ => [], 0⟩
  pure {
    out0 := t.outs 0
    out1 := t.outs 1
    runs0 := if t.fout1.isSome then (t.runCount + 1) % 2 ^ 32 / 2 else 0
    runs1 := if t.fout2.isSome ∧ t.fout2 ≠ t.fout1 then t.runCount / 2 else 0 }

end OpenAAA.Sorter
