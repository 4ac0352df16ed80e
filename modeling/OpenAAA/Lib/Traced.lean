import Mathlib.Control.Monad.Writer
import Mathlib.Data.List.Destutter
import Mathlib.Tactic

/-!
Computations that record what they read. An access is a range of addresses, and the
trace of a computation lists its accesses in order. An expression that names one
object several times evaluates it several times; such repetitions follow each other
directly and name the same range, so they can be merged before bytes are counted.
-/

namespace OpenAAA.Traces

/-- A value together with the events recorded on the way to it. -/
abbrev Traced (ε : Type) := Writer (List ε)

section Writer

variable {ε α β : Type}

def value (x : Traced ε α) : α := x.run.1

def trace (x : Traced ε α) : List ε := x.run.2

/-- `a`, with `e` recorded. -/
def record (e : ε) (a : α) : Traced ε α := do
  tell [e]
  pure a

@[simp]
theorem value_pure (a : α) : value (pure a : Traced ε α) = a := rfl

@[simp]
theorem trace_pure (a : α) : trace (pure a : Traced ε α) = [] := rfl

@[simp]
theorem value_bind (x : Traced ε α) (f : α → Traced ε β) : value (x >>= f) = value (f (value x)) := rfl

@[simp]
theorem trace_bind (x : Traced ε α) (f : α → Traced ε β) :
    trace (x >>= f) = trace x ++ trace (f (value x)) := rfl

@[simp]
theorem value_record (e : ε) (a : α) : value (record e a) = a := rfl

@[simp]
theorem trace_record (e : ε) (a : α) : trace (record e a) = [e] := rfl

end Writer

section Fallible

/-- A computation that records events and may end early with an error. -/
abbrev Fallible (ε φ : Type) := ExceptT φ (Traced ε)

variable {ε φ α β : Type}

def result (x : Fallible ε φ α) : Except φ α := value x.run

def events (x : Fallible ε φ α) : List ε := trace x.run

/-- An event. -/
def event (e : ε) : Fallible ε φ Unit := ExceptT.mk (record e (.ok ()))

/-- A step without events that may fail. -/
def attempt (x : Except φ α) : Fallible ε φ α := ExceptT.mk (pure x)

@[simp]
theorem result_pure (a : α) : result (pure a : Fallible ε φ α) = .ok a := rfl

@[simp]
theorem events_pure (a : α) : events (pure a : Fallible ε φ α) = [] := rfl

@[simp]
theorem result_event (e : ε) : result (event e : Fallible ε φ Unit) = .ok () := rfl

@[simp]
theorem events_event (e : ε) : events (event e : Fallible ε φ Unit) = [e] := rfl

@[simp]
theorem result_attempt (x : Except φ α) : result (attempt x : Fallible ε φ α) = x := rfl

@[simp]
theorem events_attempt (x : Except φ α) : events (attempt x : Fallible ε φ α) = [] := rfl

theorem result_bind (x : Fallible ε φ α) (f : α → Fallible ε φ β) :
    result (x >>= f) = (result x >>= fun a => result (f a)) := by
  change value (x.run >>= fun r => ExceptT.bindCont f r) = _
  rw [value_bind]
  change value (ExceptT.bindCont f (result x)) = _
  cases result x with
  | error fault => rfl
  | ok a => rfl

/-- The second part of a sequence records its events behind those of the first. -/
theorem events_bind {x : Fallible ε φ α} {a : α} (hx : result x = .ok a) (f : α → Fallible ε φ β) :
    events (x >>= f) = events x ++ events (f a) := by
  change trace (x.run >>= fun r => ExceptT.bindCont f r) = _
  rw [trace_bind]
  change events x ++ trace (ExceptT.bindCont f (result x)) = _
  rw [hx]
  rfl

end Fallible

/-- An access to one byte. -/
inductive ByteEvent where
  | read (addr : Nat)
  | write (addr : Nat)
deriving DecidableEq

/-- The bytes that are read, in order. -/
def reads : List ByteEvent → List Nat
  | [] => []
  | .read a :: rest => a :: reads rest
  | .write _ :: rest => reads rest

/-- The bytes that are written, in order. -/
def writes : List ByteEvent → List Nat
  | [] => []
  | .read _ :: rest => writes rest
  | .write a :: rest => a :: writes rest

@[simp]
theorem reads_append (l l' : List ByteEvent) : reads (l ++ l') = reads l ++ reads l' := by
  induction l with
  | nil => rfl
  | cons e l ih =>
      cases e with
      | read a => rw [List.cons_append, reads, reads, ih, List.cons_append]
      | write a => rw [List.cons_append, reads, reads, ih]

@[simp]
theorem writes_append (l l' : List ByteEvent) : writes (l ++ l') = writes l ++ writes l' := by
  induction l with
  | nil => rfl
  | cons e l ih =>
      cases e with
      | read a => rw [List.cons_append, writes, writes, ih]
      | write a => rw [List.cons_append, writes, writes, ih, List.cons_append]

@[simp]
theorem reads_map_read (l : List Nat) : reads (l.map .read) = l := by
  induction l with
  | nil => rfl
  | cons a l ih => rw [List.map_cons, reads, ih]

@[simp]
theorem writes_map_read (l : List Nat) : writes (l.map .read) = [] := by
  induction l with
  | nil => rfl
  | cons a l ih => rw [List.map_cons, writes, ih]

/-- An access to the `width` bytes from `addr`. -/
structure Access where
  addr : Nat
  width : Nat
deriving DecidableEq

/-- The addresses of some accesses, in order and as often as they are accessed. -/
def addresses (accesses : List Access) : List Nat :=
  accesses.flatMap fun a => List.range' a.addr a.width

@[simp]
theorem addresses_nil : addresses [] = [] := rfl

@[simp]
theorem addresses_cons (a : Access) (l : List Access) :
    addresses (a :: l) = List.range' a.addr a.width ++ addresses l :=
  List.flatMap_cons

@[simp]
theorem addresses_append (l l' : List Access) : addresses (l ++ l') = addresses l ++ addresses l' :=
  List.flatMap_append

/-- The accesses without direct repetitions of one and the same range. -/
def merged (accesses : List Access) : List Access := accesses.destutter (· ≠ ·)

/-- After any access that does not already start a range there, the accesses cover the
`n` bytes from `start` once, in order. -/
def Covers (accesses : List Access) (start n : Nat) : Prop :=
  ∀ before : Access, (before.addr = start → before.width = 0) →
    addresses (accesses.destutter' (· ≠ ·) before) =
      List.range' before.addr before.width ++ List.range' start n

theorem Covers.nil (start : Nat) : Covers [] start 0 := by
  intro before _
  simp

/-- An access in front. -/
theorem Covers.cons {l : List Access} {start n : Nat} (width : Nat) (hwidth : 0 < width)
    (h : Covers l (start + width) n) : Covers (⟨start, width⟩ :: l) start (width + n) := by
  intro before hstart
  have hne : before ≠ ⟨start, width⟩ := by
    rintro rfl
    exact absurd (hstart rfl) (by simpa using hwidth.ne')
  have hrest := h ⟨start, width⟩ (fun heq => by simp at heq; omega)
  rw [List.destutter'_cons_pos _ hne, addresses_cons, hrest, List.range'_append_1]

/-- An access in front that is made twice. -/
theorem Covers.again {l : List Access} {start n : Nat} {a : Access}
    (h : Covers (a :: l) start n) (ha : a.addr = start) (hwidth : 0 < a.width) :
    Covers (a :: a :: l) start n := by
  intro before hstart
  have hne : before ≠ a := by
    rintro rfl
    exact absurd (hstart ha) hwidth.ne'
  have hone := h before hstart
  rw [List.destutter'_cons_pos _ hne] at hone ⊢
  rw [List.destutter'_cons_neg _ (by simp)]
  exact hone

theorem Covers.addresses_merged {l : List Access} {start n : Nat} (h : Covers l start n) :
    addresses (merged l) = List.range' start n := by
  have hwhole := h ⟨start, 0⟩ (fun _ => rfl)
  cases l with
  | nil => simpa [merged] using hwhole
  | cons a l =>
      by_cases hsame : (⟨start, 0⟩ : Access) = a
      · subst hsame
        simpa [merged, List.destutter_cons'] using hwhole
      · rw [List.destutter'_cons_pos _ hsame] at hwhole
        simpa [merged, List.destutter_cons'] using hwhole

end OpenAAA.Traces
