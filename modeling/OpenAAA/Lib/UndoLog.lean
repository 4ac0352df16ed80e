import OpenAAA.Lib.Memory

/-!
Undo logs over byte memory. An entry holds what a block of memory held when the entry
was made; the newest entry is the first. Undoing a log writes the saved bytes back,
the newest first. Exchanging a log with memory undoes it and leaves the log that
redoes it.
-/

namespace OpenAAA.UndoLog

open Memory

/-- A saved block of memory, with the owner of the entry. -/
structure Entry (τ : Type) where
  owner : τ
  ptr : Nat
  copy : List Byte
deriving DecidableEq

variable {τ : Type}

def undo : List (Entry τ) → Mem → Mem
  | [], m => m
  | e :: log, m => undo log (write m e.ptr e.copy)

def Entry.Covers (e : Entry τ) (a : Nat) : Prop := e.ptr ≤ a ∧ a < e.ptr + e.copy.length

/-- Some entry of the log has saved the byte at `a`. -/
def Covered (log : List (Entry τ)) (a : Nat) : Prop := ∃ e ∈ log, e.Covers a

/-- The bytes of an entry change places with those in memory. -/
def Entry.exchange (m : Mem) (e : Entry τ) : Mem × Entry τ :=
  (write m e.ptr e.copy, { e with copy := read m e.ptr e.copy.length })

/-- The entries not yet exchanged, and those that were, in reverse. -/
def exchange : Mem → List (Entry τ) → List (Entry τ) → Mem × List (Entry τ)
  | m, [], done => (m, done)
  | m, e :: log, done => exchange (e.exchange m).1 log ((e.exchange m).2 :: done)

variable {log older : List (Entry τ)} {m m' : Mem} {a : Nat}

theorem undo_append : undo (log ++ older) m = undo older (undo log m) := by
  induction log generalizing m with
  | nil => rfl
  | cons e log ih => exact ih

theorem write_congr {bs : List Byte} {p : Nat} (h : m a = m' a) :
    write m p bs a = write m' p bs a := by
  unfold write
  rw [h]

/-- What is undone at an address depends on memory only there. -/
theorem undo_congr (h : m a = m' a) : undo log m a = undo log m' a := by
  induction log generalizing m m' with
  | nil => exact h
  | cons e log ih => exact ih (write_congr h)

theorem write_covered {e : Entry τ} (h : e.Covers a) :
    write m e.ptr e.copy a = write m' e.ptr e.copy a := by
  have hlt : a - e.ptr < e.copy.length := by
    have hlow := h.1
    have hhigh := h.2
    omega
  unfold write
  rw [if_pos h.1, if_pos h.1, List.getElem?_eq_getElem hlt]
  rfl

/-- What is undone at a saved byte does not depend on memory at all. -/
theorem undo_covered (h : Covered log a) : undo log m a = undo log m' a := by
  induction log generalizing m m' with
  | nil =>
      obtain ⟨e, hmem, _⟩ := h
      cases hmem
  | cons e log ih =>
      rw [undo, undo]
      by_cases he : e.Covers a
      · exact undo_congr (write_covered he)
      · obtain ⟨e', hmem, hcov⟩ := h
        rcases List.mem_cons.mp hmem with rfl | hlog
        · exact absurd hcov he
        · exact ih ⟨e', hlog, hcov⟩

/-- Bytes written over themselves. -/
theorem write_read_of_agree {p n : Nat} (h : ∀ x, x < p ∨ p + n ≤ x → m' x = m x) :
    write m' p (Memory.read m p n) = m := by
  funext x
  by_cases hin : p ≤ x ∧ x < p + n
  · have hi : x - p < n := by omega
    have hx : p + (x - p) = x := by omega
    unfold write
    rw [if_pos hin.1, read_getElem? hi, hx]
    rfl
  · rw [write_changesOnly m' p _ x (by rw [read_length]; omega)]
    exact h x (by omega)

/-- A block that is saved as it is changes nothing that is undone. -/
theorem undo_saved (t : τ) (p n : Nat) :
    undo (⟨t, p, Memory.read m p n⟩ :: log) m = undo log m := by
  rw [undo, write_read_of_agree (fun _ _ => rfl)]

theorem Entry.exchange_exchange (e : Entry τ) :
    (e.exchange m).2.exchange (e.exchange m).1 = (m, e) := by
  have hmem : write (write m e.ptr e.copy) e.ptr (Memory.read m e.ptr e.copy.length) = m :=
    write_read_of_agree (write_changesOnly m e.ptr e.copy)
  unfold Entry.exchange
  dsimp only
  rw [hmem, read_length, read_write_self]

theorem exchange_append {done : List (Entry τ)} :
    exchange m (log ++ older) done =
      exchange (exchange m log done).1 older (exchange m log done).2 := by
  induction log generalizing m done with
  | nil => rfl
  | cons e log ih => exact ih

theorem exchange_mem {done : List (Entry τ)} : (exchange m log done).1 = undo log m := by
  induction log generalizing m done with
  | nil => rfl
  | cons e log ih => exact ih

/-- The log that an exchange leaves takes it back. -/
theorem exchange_back (m : Mem) (log done : List (Entry τ)) :
    ∃ back, exchange m log done = (undo log m, back ++ done) ∧
      ∀ done', exchange (undo log m) back done' = (m, log ++ done') := by
  induction log generalizing m done with
  | nil => exact ⟨[], rfl, fun _ => rfl⟩
  | cons e log ih =>
      obtain ⟨back, hrun, hback⟩ := ih (e.exchange m).1 ((e.exchange m).2 :: done)
      refine ⟨back ++ [(e.exchange m).2], ?_, fun done' => ?_⟩
      · rw [List.append_assoc]
        exact hrun
      · change exchange (undo log (e.exchange m).1) _ done' = _
        rw [exchange_append, hback]
        change ((Entry.exchange _ _).1, (Entry.exchange _ _).2 :: _) = _
        rw [Entry.exchange_exchange]
        rfl

theorem exchange_exchange (m : Mem) (log : List (Entry τ)) :
    exchange (exchange m log []).1 (exchange m log []).2 [] = (m, log) := by
  obtain ⟨back, hrun, hback⟩ := exchange_back m log []
  rw [hrun, List.append_nil, hback, List.append_nil]

/-- An exchange keeps the owners of the entries. -/
theorem exchange_owner (m : Mem) (log done : List (Entry τ)) :
    ∀ e ∈ (exchange m log done).2, (∃ e' ∈ log, e'.owner = e.owner) ∨ e ∈ done := by
  induction log generalizing m done with
  | nil => exact fun e he => Or.inr he
  | cons e₀ log ih =>
      intro e he
      rcases ih _ _ e he with ⟨e', hmem, howner⟩ | hdone
      · exact Or.inl ⟨e', List.mem_cons_of_mem e₀ hmem, howner⟩
      · rcases List.mem_cons.mp hdone with rfl | hdone
        · exact Or.inl ⟨e₀, List.mem_cons_self, rfl⟩
        · exact Or.inr hdone

end OpenAAA.UndoLog
