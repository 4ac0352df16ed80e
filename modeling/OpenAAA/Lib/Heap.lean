import OpenAAA.Lib.Memory

/-!
A process heap: memory, the ranges that the allocator has handed out and not
taken back, and a counter of the requests so far. The allocator is a parameter.
It may depend on the counter, so it can answer every request of a run
differently, and it may refuse; all that is known of it is that the ranges it
hands out are fresh.
-/

namespace OpenAAA.Alloc

open Memory

/-- The ways in which a run can end early. -/
inductive Fault where
  | outOfMemory
  | invalidFree
  | nullPointer
  | unmapped
  | endless
  | assertion
  | die
deriving DecidableEq, Repr

structure Heap where
  mem : Mem
  blocks : List (Nat × Nat)
  requests : Nat

/-- The answer to a request for some bytes, given the number of requests before
it and the ranges in use. -/
abbrev Allocator := Nat → List (Nat × Nat) → Nat → Option Nat

/-- A range that can be handed out: not null, aligned, addressable and disjoint
from every range in use. -/
def Fresh (align : Nat) (blocks : List (Nat × Nat)) (a n : Nat) : Prop :=
  0 < a ∧ align ∣ a ∧ a + n ≤ 2 ^ 64 ∧ ∀ b ∈ blocks, Apart b.1 b.2 a n

instance (align : Nat) (blocks : List (Nat × Nat)) (a n : Nat) :
    Decidable (Fresh align blocks a n) :=
  inferInstanceAs (Decidable (_ ∧ _ ∧ _ ∧ _))

def Allocator.HandsOutFresh (alloc : Allocator) (align : Nat) : Prop :=
  ∀ requests blocks n a, alloc requests blocks n = some a → Fresh align blocks a n

def Heap.malloc (alloc : Allocator) (h : Heap) (n : Nat) : Except Fault (Nat × Heap) :=
  match alloc h.requests h.blocks n with
  | none => .error .outOfMemory
  | some a => .ok (a, { h with blocks := (a, n) :: h.blocks, requests := h.requests + 1 })

/-- Only the start of a range in use can be taken back, and only once. -/
def Heap.free (h : Heap) (a : Nat) : Except Fault Heap :=
  if a = 0 then .ok h
  else if h.blocks.any (fun b => b.1 = a) then
    .ok { h with blocks := h.blocks.eraseP (fun b => b.1 = a) }
  else .error .invalidFree

/-- The range in use that starts at `old` is exchanged for one of `n` bytes, which
may overlap it, and the bytes that fit are moved. -/
def Heap.realloc (alloc : Allocator) (h : Heap) (old n : Nat) : Except Fault (Nat × Heap) :=
  match h.blocks.find? (fun b => b.1 = old) with
  | none => .error .invalidFree
  | some block =>
      let others := h.blocks.eraseP (fun b => b.1 = old)
      match alloc h.requests others n with
      | none => .error .outOfMemory
      | some a => .ok (a, ⟨copy h.mem a old (min block.2 n), (a, n) :: others, h.requests + 1⟩)

/-- An allocator that tries one address after the other and refuses when the
address it has come to is not free. -/
def stride (align start step : Nat) : Allocator := fun requests blocks n =>
  if Fresh align blocks (start + requests * step) n then some (start + requests * step) else none

theorem stride_handsOutFresh (align start step : Nat) :
    (stride align start step).HandsOutFresh align := by
  intro requests blocks n a ha
  rw [stride] at ha
  split at ha
  · next hfresh =>
      rw [← Option.some.inj ha]
      exact hfresh
  · cases ha

/-- The computation ends in a result with the given property, because there is no
memory left or, where `dies` allows it, because the program gives up. -/
inductive Yields {α : Type} (dies : Prop) : Except Fault α → (α → Prop) → Prop where
  | ok {a : α} {post : α → Prop} (ha : post a) : Yields dies (.ok a) post
  | outOfMemory {post : α → Prop} : Yields dies (.error .outOfMemory) post
  | die {post : α → Prop} (hdies : dies) : Yields dies (.error .die) post

section Yields

variable {α β : Type} {dies : Prop} {x : Except Fault α} {f : α → Except Fault β}
  {post : α → Prop} {post' : β → Prop}

theorem Yields.bind (hx : Yields dies x post) (hf : ∀ a, post a → Yields dies (f a) post') :
    Yields dies (x >>= f) post' := by
  cases hx with
  | ok ha => exact hf _ ha
  | outOfMemory => exact .outOfMemory
  | die hdies => exact .die hdies

theorem Yields.mono {weaker : α → Prop} (hx : Yields dies x post)
    (hpost : ∀ a, post a → weaker a) : Yields dies x weaker := by
  cases hx with
  | ok ha => exact .ok (hpost _ ha)
  | outOfMemory => exact .outOfMemory
  | die hdies => exact .die hdies

theorem Yields.of_ok {a : α} (hx : Yields dies x post) (heq : x = .ok a) : post a := by
  subst heq
  cases hx with
  | ok ha => exact ha

theorem Yields.and {post'' : α → Prop} (hx : Yields dies x post) (hx' : Yields dies x post'') :
    Yields dies x (fun a => post a ∧ post'' a) := by
  cases hx with
  | ok ha => exact .ok ⟨ha, hx'.of_ok rfl⟩
  | outOfMemory => exact .outOfMemory
  | die hdies => exact .die hdies

/-- The result of a computation that is also named by the equation. -/
theorem Yields.with_eq (hx : Yields dies x post) :
    Yields dies x (fun a => x = .ok a ∧ post a) := by
  cases hx with
  | ok ha => exact .ok ⟨rfl, ha⟩
  | outOfMemory => exact .outOfMemory
  | die hdies => exact .die hdies

theorem ok_bind (a : α) (f : α → Except Fault β) : (Except.ok a >>= f) = f a :=
  rfl

/-- A sequence that succeeds consists of two parts that do. -/
theorem exists_of_bind_ok {b : β} (h : (x >>= f) = .ok b) : ∃ a, x = .ok a ∧ f a = .ok b := by
  cases hx : x with
  | error e =>
      rw [hx] at h
      cases h
  | ok a =>
      rw [hx] at h
      exact ⟨a, rfl, h⟩

theorem exists_of_isOk (h : x.isOk = true) : ∃ a, x = .ok a := by
  cases x with
  | error e => cases h
  | ok a => exact ⟨a, rfl⟩

theorem Yields.of_exists (h : ∃ a, x = .ok a ∧ post a) : Yields dies x post := by
  obtain ⟨a, rfl, ha⟩ := h
  exact .ok ha

end Yields

theorem Heap.malloc_yields {dies : Prop} {alloc : Allocator} {align : Nat}
    (halloc : alloc.HandsOutFresh align) (h : Heap) (n : Nat) :
    Yields dies (h.malloc alloc n) (fun r => Fresh align h.blocks r.1 n ∧
      r.2 = { h with blocks := (r.1, n) :: h.blocks, requests := h.requests + 1 }) := by
  rw [Heap.malloc]
  cases ha : alloc h.requests h.blocks n with
  | none => exact .outOfMemory
  | some a => exact .ok ⟨halloc _ _ _ _ ha, rfl⟩

/-- The range in use that starts at `a`, where there is only one. -/
theorem exists_of_perm_start {blocks rest : List (Nat × Nat)} {a n : Nat}
    (hperm : blocks.Perm ((a, n) :: rest)) (honly : ∀ b ∈ rest, b.1 ≠ a) :
    blocks.find? (fun b => b.1 = a) = some (a, n) ∧
      (blocks.eraseP (fun b => b.1 = a)).Perm rest := by
  have hmem : (a, n) ∈ blocks := hperm.mem_iff.mpr (by simp)
  obtain ⟨b, front, back, hfront, hstart, hblocks, herase⟩ :=
    List.exists_of_eraseP (p := fun b => b.1 = a) hmem (by simp)
  have hb : b = (a, n) := by
    have hin : b ∈ (a, n) :: rest := hperm.mem_iff.mp (by simp [hblocks])
    rcases List.mem_cons.mp hin with hfirst | hrest
    · exact hfirst
    · exact absurd (of_decide_eq_true hstart) (honly b hrest)
  subst hb
  constructor
  · rw [hblocks, List.find?_append, List.find?_eq_none.mpr hfront, Option.none_or]
    exact List.find?_cons_of_pos hstart
  · rw [hblocks] at hperm
    rw [herase]
    exact (List.perm_middle.symm.trans hperm).cons_inv

/-- Taking back the only range in use that starts at `a`. -/
theorem Heap.free_perm {h : Heap} {a n : Nat} {rest : List (Nat × Nat)}
    (hperm : h.blocks.Perm ((a, n) :: rest)) (hpos : a ≠ 0) (honly : ∀ b ∈ rest, b.1 ≠ a) :
    ∃ h', h.free a = .ok h' ∧ h'.mem = h.mem ∧ h'.blocks.Perm rest := by
  have hmem : (a, n) ∈ h.blocks := hperm.mem_iff.mpr (by simp)
  have hany : h.blocks.any (fun b => b.1 = a) = true :=
    List.any_eq_true.mpr ⟨(a, n), hmem, by simp⟩
  obtain ⟨_, hrest⟩ := exists_of_perm_start hperm honly
  refine ⟨{ h with blocks := h.blocks.eraseP (fun b => b.1 = a) }, ?_, rfl, hrest⟩
  rw [Heap.free, if_neg hpos, if_pos hany]

/-- Exchanging the only range in use that starts at `old`. -/
theorem Heap.realloc_yields {dies : Prop} {alloc : Allocator} {align : Nat}
    (halloc : alloc.HandsOutFresh align) {h : Heap} {old k : Nat} {rest : List (Nat × Nat)}
    (hperm : h.blocks.Perm ((old, k) :: rest)) (honly : ∀ b ∈ rest, b.1 ≠ old) (n : Nat) :
    Yields dies (h.realloc alloc old n) (fun r => ∃ others, others.Perm rest ∧
      Fresh align others r.1 n ∧
      r.2 = ⟨copy h.mem r.1 old (min k n), (r.1, n) :: others, h.requests + 1⟩) := by
  obtain ⟨hfind, hrest⟩ := exists_of_perm_start hperm honly
  rw [Heap.realloc, hfind]
  dsimp only
  cases ha : alloc h.requests (h.blocks.eraseP (fun b => b.1 = old)) n with
  | none => exact .outOfMemory
  | some a => exact .ok ⟨_, hrest, halloc _ _ _ _ ha, rfl⟩

end OpenAAA.Alloc
