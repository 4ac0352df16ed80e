import OpenAAA.Opt.Undo

/-!
What a part of the interpreter leaves alone. A later world leaves the bytes of an earlier
one alone if they are still in use and hold what they held, except in a set of addresses.
Memory that was not in use is free to change, so a program may fill what it allocates.
-/

namespace OpenAAA.Opt

open Memory Alloc Hoare

/-! ## Frames -/

/-- What was in use is in use, and only bytes of `V` have changed. -/
structure Leaves (V : Set Nat) (w w' : World) : Prop where
  blocks : w.heap.blocks ⊆ w'.heap.blocks
  mem : ∀ a, w.Live a → a ∉ V → w'.heap.mem a = w.heap.mem a

/-- The addresses that are not in use. -/
def World.spare (w : World) : Set Nat := { a | ¬ w.Live a }

/-- The bytes of a range are in use and not in `V`. -/
def Reserved (V : Set Nat) (w : World) (p n : Nat) : Prop := ∀ a ∈ range p n, w.Live a ∧ a ∉ V

section Frames

variable {V V' : Set Nat} {w w' w'' : World} {p n q k : Nat}

theorem Leaves.refl (V : Set Nat) (w : World) : Leaves V w w := ⟨fun _ h => h, fun _ _ _ => rfl⟩

theorem Leaves.mono (h : Leaves V w w') (hV : ∀ a ∈ V, w.Live a → a ∈ V') : Leaves V' w w' :=
  ⟨h.blocks, fun a ha hout => h.mem a ha fun hin => hout (hV a hin ha)⟩

/-- The second step may also change what the first has allocated. -/
theorem Leaves.trans (h : Leaves V w w') (h' : Leaves (V ∪ w.spare) w' w'') : Leaves V w w'' := by
  refine ⟨fun b hb => h'.blocks (h.blocks hb), fun a ha hout => ?_⟩
  rw [h'.mem a (ha.mono h.blocks) ?_]
  · exact h.mem a ha hout
  · rintro (hin | hspare)
    · exact hout hin
    · exact hspare ha

theorem spare_of_spare (hblocks : w.heap.blocks ⊆ w'.heap.blocks) {a : Nat} (ha : a ∈ w'.spare) :
    a ∈ w.spare :=
  fun hlive => ha (hlive.mono hblocks)

theorem Reserved.mono (h : Reserved V w p n) (hlow : p ≤ q) (hhigh : q + k ≤ p + n) :
    Reserved V w q k :=
  fun a ha => h a (range_subset hlow hhigh a ha)

theorem Reserved.sub (h : Reserved V w p n) (hV : ∀ a ∈ V', a ∈ V) : Reserved V' w p n :=
  fun a ha => ⟨(h a ha).1, fun hin => (h a ha).2 (hV a hin)⟩

/-- What is reserved stays so. -/
theorem Reserved.leaves (h : Reserved V w p n) (hw : Leaves V' w w') : Reserved V w' p n :=
  fun a ha => ⟨(h a ha).1.mono hw.blocks, (h a ha).2⟩

theorem Reserved.read (h : Reserved V w p n) (hw : Leaves V w w') :
    Memory.read w'.heap.mem p n = Memory.read w.heap.mem p n := by
  refine read_congr fun i hi => ?_
  obtain ⟨hlive, hout⟩ := h (p + i) ⟨by omega, by omega⟩
  exact hw.mem _ hlive hout

theorem Reserved.load (h : Reserved V w p n) (hw : Leaves V w w') :
    Memory.load w'.heap.mem p n = Memory.load w.heap.mem p n := by
  refine load_congr fun i hi => ?_
  obtain ⟨hlive, hout⟩ := h (p + i) ⟨by omega, by omega⟩
  exact hw.mem _ hlive hout

end Frames

/-! ## Programs -/

/-- The ways in which the program around the interpreter stops it: no memory, no pool to allocate
from, or code that does not return. -/
def Excused (e : CfFault) : Prop :=
  e = .heap .outOfMemory ∨ e = .nullPool ∨ e = .deadPool ∨ e = .user

instance : DecidablePred Excused := fun e =>
  inferInstanceAs (Decidable (e = _ ∨ e = _ ∨ e = _ ∨ e = _))

/-- From the world `w` the program returns with `Q`, and changes only bytes of `V` and memory that
was not in use. -/
def Does {α : Type} (V : Set Nat) (w : World) (x : Cf α) (Q : α → World → Prop) : Prop :=
  Triple Excused (· = w) x fun a w' => Leaves V w w' ∧ Q a w'

section Rules

variable {α β : Type} {V V' : Set Nat} {w : World} {x : Cf α} {f : α → Cf β}
  {Q Q' : α → World → Prop} {R : β → World → Prop}

theorem Does.pure {a : α} (h : Q a w) : Does V w (pure a) Q := by
  refine Triple.pure ?_
  rintro _ rfl
  exact ⟨Leaves.refl V _, h⟩

theorem Does.throw {e : CfFault} (h : Excused e) : Does V w (throw e : Cf α) Q :=
  Triple.throw h

/-- The rest of a program may write what its first part has allocated. -/
theorem Does.bind (hx : Does V w x Q)
    (hf : ∀ a w', Leaves V w w' → Q a w' → Does (V ∪ w.spare) w' (f a) R) :
    Does V w (x >>= f) R := by
  refine Triple.bind hx fun a => Triple.at fun w' hw' => ?_
  exact (hf a w' hw'.1 hw'.2).weaken fun b w'' hw'' => ⟨hw'.1.trans hw''.1, hw''.2⟩

theorem Does.weaken (hx : Does V w x Q) (hQ : ∀ a w', Leaves V w w' → Q a w' → Q' a w') :
    Does V w x Q' :=
  Triple.weaken hx fun a w' hw' => ⟨hw'.1, hQ a w' hw'.1 hw'.2⟩

theorem Does.mono (hx : Does V w x Q) (hV : ∀ a ∈ V, w.Live a → a ∈ V') : Does V' w x Q :=
  Triple.weaken hx fun _ _ hw' => ⟨hw'.1.mono hV, hw'.2⟩

/-- What a program leaves alone is a result of it. -/
theorem Does.framed (hx : Does V w x Q) (hV : ∀ a ∈ V, w.Live a → a ∈ V') :
    Does V' w x fun a w' => Leaves V w w' ∧ Q a w' :=
  (hx.weaken fun _ _ hw' hq => ⟨hw', hq⟩).mono hV

/-- The result is also named by an equation. -/
theorem Does.with_eq (hx : Does V w x Q) : Does V w x fun a w' => x w = .ok (a, w') ∧ Q a w' := by
  rintro v rfl
  have hpost := hx v rfl
  cases hrun : x v with
  | error e =>
      rw [hrun] at hpost
      exact hpost
  | ok r =>
      rw [hrun] at hpost
      exact ⟨hpost.1, rfl, hpost.2⟩

theorem Does.ite {c : Prop} [Decidable c] {y : Cf α} (hx : c → Does V w x Q)
    (hy : ¬ c → Does V w y Q) : Does V w (if c then x else y) Q := by
  split
  · next hc => exact hx hc
  · next hc => exact hy hc

theorem Does.withState {f : World → Cf β} (h : Does V w (f w) R) : Does V w (get >>= f) R := by
  refine Triple.get.bind fun v => ?_
  rintro _ ⟨rfl, rfl⟩
  exact h _ rfl

/-- A program that changes nothing but the context. -/
theorem Does.modify {g : World → World} (hheap : (g w).heap = w.heap) :
    Does V w (modify g : Cf Unit) fun _ w' => w' = g w := by
  refine Triple.modify fun s hs => ?_
  subst hs
  refine ⟨⟨?_, fun a _ _ => ?_⟩, rfl⟩
  · rw [hheap]
    exact fun _ hb => hb
  · rw [hheap]

theorem Does.whenSet {flag : Bool} {x : Cf Unit} (hx : flag = true → Does V w x fun _ _ => True) :
    Does V w (whenSet flag x) fun _ _ => True := by
  cases flag with
  | true => exact hx rfl
  | false => exact Does.pure trivial

end Rules

/-! ## Memory and pools -/

/-- The range was not in use and is now. -/
structure Allocated (w w' : World) (p n : Nat) : Prop where
  fresh : ∀ a ∈ range p n, ¬ w.Live a ∧ w'.Live a
  bound : p + n ≤ 2 ^ 64

/-- The bytes of a value in memory. -/
def valueBytes (n v : Nat) : List Byte := (List.range n).map fun i => BitVec.ofNat 8 (v / 256 ^ i)

@[simp]
theorem valueBytes_length (n v : Nat) : (valueBytes n v).length = n := by
  simp [valueBytes]

theorem read_store (m : Mem) (p n v : Nat) : read (store m p n v) p n = valueBytes n v := by
  apply List.map_congr_left
  intro i hi
  have hlt := List.mem_range.mp hi
  rw [store, if_pos (by omega), Nat.add_sub_cancel_left]

section Primitives

variable {V : Set Nat} {w : World} {env : Env} {align : Nat}

theorem storeAt_does {p n : Nat} (v : Nat) (hV : ∀ a ∈ range p n, a ∈ V) :
    Does V w (storeAt p n v) fun _ w' => w'.heap.mem = store w.heap.mem p n v := by
  refine Triple.modify ?_
  rintro _ rfl
  refine ⟨⟨fun _ hb => hb, fun a _ hout => store_outside ?_⟩, rfl⟩
  by_contra hin
  exact hout (hV a ⟨by omega, by omega⟩)

theorem writeAt_does {p : Nat} {bytes : List Byte} (hV : ∀ a ∈ range p bytes.length, a ∈ V) :
    Does V w (writeAt p bytes) fun _ w' => w'.heap.mem = write w.heap.mem p bytes := by
  refine Triple.modify ?_
  rintro _ rfl
  refine ⟨⟨fun _ hb => hb, fun a _ hout => write_changesOnly _ p bytes a ?_⟩, rfl⟩
  by_contra hin
  exact hout (hV a ⟨by omega, by omega⟩)

theorem memcpy_does {dest src n : Nat} (hV : ∀ a ∈ range dest n, a ∈ V) :
    Does V w (memcpy dest src n) fun _ w' =>
      w'.heap.mem = write w.heap.mem dest (read w.heap.mem src n) :=
  Does.withState (writeAt_does (by rwa [read_length]))

theorem Does.load {β : Type} {p n : Nat} {f : Nat → Cf β} {R : β → World → Prop}
    (h : Does V w (f (load w.heap.mem p n)) R) : Does V w (loadAt p n >>= f) R :=
  Does.withState h

theorem memAlloc_does (halloc : env.alloc.HandsOutFresh align) (n : Nat) :
    Does V w (memAlloc env n) fun p w' => Allocated w w' p n := by
  rintro v rfl
  unfold memAlloc Heap.malloc
  cases hp : env.alloc v.heap.requests v.heap.blocks n with
  | none => exact Or.inl rfl
  | some p =>
      obtain ⟨_, _, hbound, hapart⟩ := halloc _ _ _ _ hp
      refine ⟨⟨fun b hb => List.mem_cons_of_mem _ hb, fun _ _ _ => rfl⟩, fun a ha => ⟨?_, ?_⟩,
        hbound⟩
      · rintro ⟨b, hb, hab⟩
        have hdisjoint := hapart b hb
        have hlow := ha.1
        have hhigh := ha.2
        have hblow := hab.1
        have hbhigh := hab.2
        unfold Apart at hdisjoint
        omega
      · exact ⟨(p, n), List.mem_cons_self, ha⟩

/-- A change of the context alone. -/
theorem Allocated.of_heap {w' w'' : World} {p n : Nat} (h : Allocated w w' p n)
    (hheap : w''.heap = w'.heap) : Allocated w w'' p n := by
  refine ⟨fun a ha => ⟨(h.fresh a ha).1, ?_⟩, h.bound⟩
  unfold World.Live
  rw [hheap]
  exact (h.fresh a ha).2

theorem poolAlloc_does (halloc : env.alloc.HandsOutFresh align) (n : Nat) :
    Does V w (poolAlloc env n) fun p w' => Allocated w w' p n := by
  refine Does.withState ?_
  cases w.cc.pool with
  | none => exact Does.throw (by decide)
  | some pool =>
      refine Does.withState (Does.ite (fun _ => Does.throw (by decide)) fun _ => ?_)
      refine (memAlloc_does halloc n).bind fun p w₁ _ hp => ?_
      refine (Does.modify rfl).bind fun _ w₂ _ hw₂ => Does.pure ?_
      exact hp.of_heap (by rw [hw₂])

theorem cfPrintf_does (halloc : env.alloc.HandsOutFresh align) (text : String) :
    Does V w (cfPrintf env text) fun msg _ => msg.isSome :=
  (poolAlloc_does halloc _).bind fun _ _ _ _ => Does.pure rfl

/-- A string in memory of its own. -/
theorem cfStrdup_does (halloc : env.alloc.HandsOutFresh align) {s : CStr}
    (hs : s.length + 1 < 2 ^ 32) :
    Does V w (cfStrdup env s) fun p w' => Allocated w w' p (s.length + 1) ∧
      read w'.heap.mem p (s.length + 1) = s ++ [0] := by
  unfold cfStrdup
  dsimp only
  rw [Nat.mod_eq_of_lt hs, List.take_of_length_le (by simp)]
  refine (poolAlloc_does halloc _).bind fun p w₁ _ hp => ?_
  have hlength : (s ++ [0]).length = s.length + 1 := by simp
  refine (writeAt_does fun a ha => Or.inr ?_).bind fun _ w₂ hw₂ hmem => Does.pure ⟨?_, ?_⟩
  · rw [hlength] at ha
    exact (hp.fresh a ha).1
  · exact ⟨fun a ha => ⟨(hp.fresh a ha).1, (hp.fresh a ha).2.mono hw₂.blocks⟩, hp.bound⟩
  · rw [hmem, ← hlength, read_write_self]

theorem cfJournalBlock_does (halloc : env.alloc.HandsOutFresh align) (p : Nat) {n : Nat}
    (hn : journalItemSize + n < 2 ^ 32) :
    Does V w (cfJournalBlock env p n) fun _ _ => True := by
  refine Does.withState (Does.whenSet fun _ => ?_)
  refine (poolAlloc_does halloc _).bind fun q w₁ _ _ => ?_
  rw [if_neg (by omega)]
  exact (Does.modify rfl).weaken fun _ _ _ _ => trivial

end Primitives

end OpenAAA.Opt
