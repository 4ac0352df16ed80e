import OpenAAA.Generic.Gary

/-!
Runs of a program with one growing array. Beside the heap and its pointer to the array a
run knows the bytes that the program stored in elements which have been part of the array
ever since, and the bytes of elements that it ever stored.
-/

namespace OpenAAA.Gary

open Memory Alloc Sys

/-! ## Runs -/

structure Run where
  heap : Heap
  array : Nat
  /-- The value of the last `GARY_PUSH_MULTI`. -/
  returned : Nat
  /-- What the program stored at an offset of an element that has not left the array since. -/
  stored : Nat → Option Byte
  /-- Whether the program ever stored a byte at an offset. -/
  touched : Nat → Bool

def Run.elts (s : Run) : Nat := Gary.elts s.heap.mem (garyHdr s.array)

def Run.free (s : Run) : Nat := Gary.free s.heap.mem (garyHdr s.array)

/-- Calls of the interface, and stores into elements. -/
inductive Call where
  | push (n : Nat)
  | setSize (n : Nat)
  | fix
  | store (offset : Nat) (bytes : List Byte)

def Run.new (r : Nat × Heap) : Run := ⟨r.2, r.1, 0, fun _ => none, fun _ => false⟩

/-- A call on an array of elements of `width` bytes. -/
def Run.step (env : Env) (width : Nat) (s : Run) : Call → Except Fault Run
  | .push n => do
      let (array, c, heap) ← garyPushMulti env s.heap s.array width n
      return { s with heap := heap, array := array, returned := c }
  | .setSize n => do
      let (array, heap) ← garySetSize env s.heap s.array n
      return { s with
        heap := heap
        array := array
        stored := fun x => if x < n * width then s.stored x else none }
  | .fix => do
      let (array, heap) ← garyFix env s.heap s.array
      return { s with heap := heap, array := array }
  | .store offset bytes =>
      .ok { s with
        heap := { s.heap with mem := write s.heap.mem (s.array + offset) bytes }
        stored := fun x =>
          if offset ≤ x ∧ x < offset + bytes.length then bytes[x - offset]? else s.stored x
        touched := fun x => decide (offset ≤ x ∧ x < offset + bytes.length) || s.touched x }

/-- The room of an array that is to have `n` elements and has room for fewer. -/
def grown (free n : Nat) : Nat := if n > 2 * free then n else 2 * free

/-- No size that is computed on the way to a larger room exceeds `SIZE_MAX`. -/
def Fits (width free n : Nat) : Prop :=
  2 * free < 2 ^ 64 ∧ garyHdrSize + grown free n * width < 2 ^ 64

/-- No size that the call computes exceeds `SIZE_MAX`, and stores are into elements. -/
def Call.Legal (width : Nat) (s : Run) : Call → Prop
  | .push n => s.elts + n < 2 ^ 64 ∧ (s.free < s.elts + n → Fits width s.free (s.elts + n))
  | .setSize n => n < 2 ^ 64 ∧ (s.free < n → Fits width s.free n)
  | .fix => True
  | .store offset bytes => offset + bytes.length ≤ s.elts * width

/-- Every call of the run is legal when it is made. -/
def EachLegal (env : Env) (width : Nat) (s : Run) : List Call → Prop
  | [] => True
  | call :: calls => call.Legal width s ∧
      ∀ s', s.step env width call = .ok s' → EachLegal env width s' calls

/-- What holds between two calls. -/
structure StateSound (kind : Kind) (width : Nat) (s : Run) : Prop where
  elts_le : s.elts ≤ s.free
  block : (garyHdr s.array, garyHdrSize + s.free * width) ∈ s.heap.blocks
  bound : s.array + s.free * width ≤ 2 ^ 64
  kept : ∀ x b, s.stored x = some b → x < s.elts * width ∧ s.heap.mem (s.array + x) = b
  zero : kind = .memStdZero → ∀ x < s.elts * width, s.touched x = false →
    s.heap.mem (s.array + x) = 0

/-- What a call does to the number of elements and to the room for them, and that a push
returns where the new elements start. -/
def StepSound (width : Nat) (s s' : Run) : Call → Prop
  | .push n => s'.elts = s.elts + n ∧ s'.returned = word (s'.array + (s'.elts - n) * width)
  | .setSize n => s'.elts = n
  | .fix => s'.elts = s.elts ∧ s'.free = s.elts
  | .store _ _ => s'.elts = s.elts ∧ s'.free = s.free

/-- Every state of the run is sound, and every call returns, unless there is no memory left,
and does what it promises. -/
def SoundRun (env : Env) (kind : Kind) (width : Nat) (s : Run) : List Call → Prop
  | [] => StateSound kind width s
  | call :: calls => StateSound kind width s ∧
      Yields False (s.step env width call) (fun s' =>
        StepSound width s s' call ∧ SoundRun env kind width s' calls)

/-! ## Blocks -/

/-- A block of `n` bytes starts at `h`, and it is the only one that does. -/
structure Placed (heap : Heap) (h n : Nat) : Prop where
  pos : 0 < h
  bound : h + n ≤ 2 ^ 64
  only : ∃ rest, heap.blocks.Perm ((h, n) :: rest) ∧ ∀ b ∈ rest, b.1 ≠ h ∧ 0 < b.2

/-- The allocator and the two structures that the arrays name. -/
structure Sound (env : Env) : Prop where
  fresh : env.alloc.HandsOutFresh cpuStructAlign
  distinct : env.memStd ≠ env.memStdZero
  addressable : env.memStd < 2 ^ 64 ∧ env.memStdZero < 2 ^ 64

section Blocks

variable {env : Env} {kind : Kind} {heap : Heap} {h n x y a : Nat} {rest : List (Nat × Nat)}

theorem kindAt_address (henv : Sound env) (kind : Kind) : env.kindAt (env.address kind) = .ok kind := by
  cases kind with
  | memStd => rw [Env.kindAt, Env.address, if_pos rfl]
  | memStdZero => rw [Env.kindAt, Env.address, if_neg henv.distinct.symm, if_pos rfl]

theorem address_lt (henv : Sound env) (kind : Kind) : env.address kind < 2 ^ 64 := by
  cases kind with
  | memStd => exact henv.addressable.1
  | memStdZero => exact henv.addressable.2

/-- A fresh block is the only one at its start. -/
theorem placed_of_fresh {m : Mem} {requests : Nat} (hfresh : Fresh cpuStructAlign rest a n)
    (hrest : ∀ b ∈ rest, 0 < b.2) (hn : 0 < n) : Placed ⟨m, (a, n) :: rest, requests⟩ a n := by
  obtain ⟨hpos, _, hbound, hapart⟩ := hfresh
  refine ⟨hpos, hbound, rest, List.Perm.refl _, fun b hb => ⟨?_, hrest b hb⟩⟩
  intro heq
  have hb0 := hrest b hb
  have hdisjoint := hapart b hb
  unfold Apart at hdisjoint
  omega

theorem memAlloc_yields (henv : Sound env) (hblocks : ∀ b ∈ heap.blocks, 0 < b.2) (hn : 0 < n) :
    Yields False (memAlloc env heap (env.address kind) n) (fun r => Placed r.2 r.1 n ∧
      (kind = .memStdZero → ∀ i < n, r.2.mem (r.1 + i) = 0)) := by
  have hmalloc : Yields False (heap.malloc env.alloc n) (fun r => Placed r.2 r.1 n) := by
    refine (Heap.malloc_yields henv.fresh heap n).mono ?_
    rintro ⟨a, heap'⟩ ⟨hfresh, hheap⟩
    dsimp only at hfresh hheap ⊢
    rw [hheap]
    exact placed_of_fresh hfresh hblocks hn
  rw [memAlloc, kindAt_address henv, ok_bind]
  cases kind with
  | memStd => exact hmalloc.mono fun r hr => ⟨hr, fun hkind => by cases hkind⟩
  | memStdZero =>
      refine hmalloc.bind ?_
      rintro ⟨a, heap'⟩ ⟨hpos, hbound, honly⟩
      refine .ok ⟨⟨hpos, hbound, honly⟩, fun _ i hi => ?_⟩
      exact store_zero (by dsimp only; omega) (by dsimp only; omega)

/-- A block is exchanged: the bytes that both have in common stay, and with `mem_std_zero` the
others are zero. -/
theorem memRealloc_yields (henv : Sound env) (hplaced : Placed heap h x) (hy : 0 < y) :
    Yields False (memRealloc env heap (env.address kind) h x y) (fun r => Placed r.2 r.1 y ∧
      (∀ i < min x y, r.2.mem (r.1 + i) = heap.mem (h + i)) ∧
      (kind = .memStdZero → ∀ i, x ≤ i → i < y → r.2.mem (r.1 + i) = 0)) := by
  obtain ⟨rest, hperm, hrest⟩ := hplaced.only
  have hrealloc : Yields False (heap.realloc env.alloc h y) (fun r => Placed r.2 r.1 y ∧
      ∀ i < min x y, r.2.mem (r.1 + i) = heap.mem (h + i)) := by
    refine (Heap.realloc_yields henv.fresh hperm (fun b hb => (hrest b hb).1) y).mono ?_
    rintro ⟨a, heap'⟩ ⟨others, hothers, hfresh, hheap⟩
    dsimp only at hfresh hheap ⊢
    rw [hheap]
    refine ⟨placed_of_fresh hfresh ?_ hy, fun i hi => copy_byte heap.mem a h hi⟩
    exact fun b hb => (hrest b (hothers.mem_iff.mp hb)).2
  rw [memRealloc, kindAt_address henv, ok_bind]
  cases kind with
  | memStd => exact hrealloc.mono fun r hr => ⟨hr.1, hr.2, fun hkind => by cases hkind⟩
  | memStdZero =>
      refine hrealloc.bind ?_
      rintro ⟨a, heap'⟩ ⟨hplaced', hcommon⟩
      by_cases hgrows : x < y
      · refine .ok ⟨⟨hplaced'.pos, hplaced'.bound, ?_⟩, ?_, ?_⟩
        · rw [if_pos hgrows]
          exact hplaced'.only
        · intro i hi
          rw [if_pos hgrows, memsetZero]
          dsimp only
          rw [store_outside (by omega)]
          exact hcommon i hi
        · intro _ i hlow hhigh
          rw [if_pos hgrows]
          exact store_zero (by dsimp only; omega) (by dsimp only; omega)
      · refine .ok ⟨?_, ?_, ?_⟩
        · rw [if_neg hgrows]
          exact hplaced'
        · rw [if_neg hgrows]
          exact hcommon
        · intro _ i hlow hhigh
          omega

end Blocks

/-! ## Headers and elements -/

theorem garyHdrSize_eq : garyHdrSize = 32 := by
  decide

@[simp]
theorem garyHdr_garyBody (h : Nat) : garyHdr (garyBody h) = h := by
  rw [garyHdr, garyBody, Nat.add_sub_cancel]

theorem word_of_lt {x : Nat} (hx : x < 2 ^ 64) : word x = x := Nat.mod_eq_of_lt hx

/-- The fields of a header. -/
structure Header (env : Env) (kind : Kind) (width : Nat) (m : Mem) (h e f : Nat) : Prop where
  elts_eq : elts m h = e
  free_eq : free m h = f
  size_eq : size m h = width
  mem_eq : mem m h = env.address kind

/-- The first `room` bytes behind a header: what is stored there, and zeros where nothing ever was
if the array is kept in zeroed memory. -/
structure Elements (kind : Kind) (stored : Nat → Option Byte) (touched : Nat → Bool) (m : Mem)
    (h room : Nat) : Prop where
  kept : ∀ x b, stored x = some b → x < room → m (garyBody h + x) = b
  zero : kind = .memStdZero → ∀ x < room, touched x = false → m (garyBody h + x) = 0

section Contents

variable {env : Env} {kind : Kind} {width : Nat} {m m' : Mem} {h q e f room room' v : Nat}
  {stored : Nat → Option Byte} {touched : Nat → Bool}

/-- The header only depends on its own bytes. -/
theorem Header.congr (hh : Header env kind width m h e f) (hsame : ∀ i < 32, m' (q + i) = m (h + i)) :
    Header env kind width m' q e f := by
  have hfield (k : Nat) (hk : k + 8 ≤ 32) : load m' (q + k) 8 = load m (h + k) 8 := by
    apply load_congr
    intro i hi
    rw [Nat.add_assoc, Nat.add_assoc]
    exact hsame (k + i) (by omega)
  exact ⟨(hfield 0 (by omega)).trans hh.elts_eq, (hfield 8 (by omega)).trans hh.free_eq,
    (hfield 16 (by omega)).trans hh.size_eq, (hfield 24 (by omega)).trans hh.mem_eq⟩

theorem Header.setElts (hh : Header env kind width m h e f) (hv : v < 2 ^ 64) :
    Header env kind width (setElts m h v) h v f := by
  have hapart (k : Nat) (hk : 8 ≤ k) : load (Gary.setElts m h v) (h + k) 8 = load m (h + k) 8 :=
    load_store_apart (by unfold Apart; omega)
  refine ⟨?_, (hapart 8 (by omega)).trans hh.free_eq, (hapart 16 (by omega)).trans hh.size_eq,
    (hapart 24 (by omega)).trans hh.mem_eq⟩
  exact (load_store_same m h 8 v).trans (Nat.mod_eq_of_lt hv)

theorem Header.setFree (hh : Header env kind width m h e f) (hv : v < 2 ^ 64) :
    Header env kind width (setFree m h v) h e v := by
  have hapart (k : Nat) (hk : k + 8 ≤ 8 ∨ 16 ≤ k) :
      load (Gary.setFree m h v) (h + k) 8 = load m (h + k) 8 :=
    load_store_apart (by unfold Apart; omega)
  refine ⟨(hapart 0 (by omega)).trans hh.elts_eq, ?_, (hapart 16 (by omega)).trans hh.size_eq,
    (hapart 24 (by omega)).trans hh.mem_eq⟩
  exact (load_store_same m (h + 8) 8 v).trans (Nat.mod_eq_of_lt hv)

/-- Elements only depend on the bytes behind the header. -/
theorem Elements.congr (he : Elements kind stored touched m h room)
    (hsame : ∀ x < room, m' (garyBody h + x) = m (garyBody h + x)) :
    Elements kind stored touched m' h room :=
  ⟨fun x b hx hlt => (hsame x hlt).trans (he.kept x b hx hlt),
    fun hkind x hlt ht => (hsame x hlt).trans (he.zero hkind x hlt ht)⟩

theorem body_store (hv : q + 8 ≤ h + 32) (x : Nat) : store m q 8 v (garyBody h + x) = m (garyBody h + x) := by
  rw [garyBody, garyHdrSize_eq]
  exact store_outside (by omega)

/-- Elements that are moved with what is in front of them, to a place where more of them are zero
or some are cut off. -/
theorem Elements.move (he : Elements kind stored touched m h room)
    (hcommon : ∀ i < min (garyHdrSize + room) (garyHdrSize + room'), m' (q + i) = m (h + i))
    (hzero : kind = .memStdZero → ∀ i, garyHdrSize + room ≤ i → i < garyHdrSize + room' →
      m' (q + i) = 0)
    (hstored : ∀ x b, stored x = some b → x < room' → x < room) :
    Elements kind stored touched m' q room' := by
  have hmoved (x : Nat) (hx : x < room) (hx' : x < room') :
      m' (garyBody q + x) = m (garyBody h + x) := by
    rw [garyBody, garyBody, Nat.add_assoc, Nat.add_assoc]
    exact hcommon _ (by omega)
  constructor
  · intro x b hx hlt
    rw [hmoved x (hstored x b hx hlt) hlt]
    exact he.kept x b hx (hstored x b hx hlt)
  · intro hkind x hlt ht
    by_cases hx : x < room
    · rw [hmoved x hx hlt]
      exact he.zero hkind x hx ht
    · rw [garyBody, Nat.add_assoc]
      exact hzero hkind _ (by omega) (by omega)

end Contents

theorem Placed.of_blocks {heap heap' : Heap} {h n : Nat} (hp : Placed heap h n)
    (hblocks : heap'.blocks = heap.blocks) : Placed heap' h n :=
  ⟨hp.pos, hp.bound, hblocks ▸ hp.only⟩

/-! ## The functions -/

section Functions

variable {env : Env} {kind : Kind} {width : Nat} {heap : Heap} {h e f n : Nat}
  {stored : Nat → Option Byte} {touched : Nat → Bool}

theorem lt_grown (hn : f < n) : n ≤ grown f n ∧ f ≤ grown f n := by
  unfold grown
  split
  · omega
  · omega

/-- The array gets more room. -/
theorem garyRealloc_yields (henv : Sound env) (hp : Placed heap h (garyHdrSize + f * width))
    (hh : Header env kind width heap.mem h e f)
    (he : Elements kind stored touched heap.mem h (f * width)) (hn : f < n) (hword : n < 2 ^ 64)
    (hfits : Fits width f n) (hstored : ∀ x b, stored x = some b → x < f * width) :
    Yields False (garyRealloc env heap h n) (fun r =>
      Placed r.2 r.1 (garyHdrSize + grown f n * width) ∧
      Header env kind width r.2.mem r.1 e (grown f n) ∧
      Elements kind stored touched r.2.mem r.1 (grown f n * width)) := by
  obtain ⟨hdouble, hsize⟩ := hfits
  obtain ⟨_, hmore⟩ := lt_grown hn
  have hroom : f * width ≤ grown f n * width := Nat.mul_le_mul_right width hmore
  have hgrown : grown f n < 2 ^ 64 := by
    unfold grown
    split
    · exact hword
    · exact hdouble
  have hfree : (if n > word (2 * free heap.mem h) then setFree heap.mem h n
      else setFree heap.mem h (word (free heap.mem h * 2))) = setFree heap.mem h (grown f n) := by
    rw [hh.free_eq, Nat.mul_comm f 2, word_of_lt hdouble, grown]
    split
    · rfl
    · rfl
  have hh' := hh.setFree hgrown
  have he' : Elements kind stored touched (setFree heap.mem h (grown f n)) h (f * width) :=
    he.congr fun x _ => body_store (by omega) x
  have hpos : 0 < garyHdrSize := by decide
  rw [garyRealloc, hfree, hh.free_eq, hh'.size_eq, hh'.free_eq, hh'.mem_eq, word_of_lt (x := f * width) (by omega),
    word_of_lt (x := grown f n * width) (by omega), word_of_lt (by omega), word_of_lt hsize]
  have hp' : Placed { heap with mem := setFree heap.mem h (grown f n) } h
      (garyHdrSize + f * width) := hp.of_blocks rfl
  refine (memRealloc_yields henv hp' (by omega)).mono ?_
  rintro ⟨q, heap'⟩ ⟨hplaced, hcommon, hzero⟩
  refine ⟨hplaced, hh'.congr fun i hi => hcommon i ?_, he'.move hcommon hzero ?_⟩
  · rw [garyHdrSize_eq]
    omega
  · exact fun x b hx _ => hstored x b hx

/-- An array: its block, and what is in it. -/
structure IsArray (env : Env) (kind : Kind) (width : Nat) (stored : Nat → Option Byte)
    (touched : Nat → Bool) (heap : Heap) (h e f : Nat) : Prop where
  placed : Placed heap h (garyHdrSize + f * width)
  header : Header env kind width heap.mem h e f
  elements : Elements kind stored touched heap.mem h (f * width)
  elts_le : e ≤ f
  within : ∀ x b, stored x = some b → x < f * width

/-- The number of elements is set in the header. -/
theorem IsArray.setElts (ha : IsArray env kind width stored touched heap h e f) (hn : n < 2 ^ 64) :
    Header env kind width (setElts heap.mem h n) h n f ∧
      Elements kind stored touched (setElts heap.mem h n) h (f * width) :=
  ⟨ha.header.setElts hn, ha.elements.congr fun x _ => body_store (by omega) x⟩

/-- More elements than there is room for. -/
theorem IsArray.realloc (henv : Sound env) (ha : IsArray env kind width stored touched heap h e f)
    (hroom : f < n) (hn : n < 2 ^ 64) (hfits : Fits width f n) :
    Yields False (garyRealloc env { heap with mem := Gary.setElts heap.mem h n } h n) (fun r =>
      IsArray env kind width stored touched r.2 r.1 n (grown f n)) := by
  obtain ⟨hh, he⟩ := ha.setElts hn
  have hp : Placed { heap with mem := Gary.setElts heap.mem h n } h (garyHdrSize + f * width) :=
    ha.placed.of_blocks rfl
  obtain ⟨hmore, hfree⟩ := lt_grown hroom
  refine (garyRealloc_yields henv hp hh he hroom hn hfits ha.within).mono ?_
  rintro r ⟨hplaced, hheader, helements⟩
  refine ⟨hplaced, hheader, helements, hmore, fun x b hx => ?_⟩
  exact Nat.lt_of_lt_of_le (ha.within x b hx) (Nat.mul_le_mul_right width hfree)

theorem garySetSize_yields (henv : Sound env)
    (ha : IsArray env kind width stored touched heap h e f) (hn : n < 2 ^ 64)
    (hfits : f < n → Fits width f n) :
    Yields False (garySetSize env heap (garyBody h) n) (fun r =>
      ∃ h' f', r.1 = garyBody h' ∧ IsArray env kind width stored touched r.2 h' n f') := by
  obtain ⟨hh, he⟩ := ha.setElts hn
  rw [garySetSize, garyHdr_garyBody]
  dsimp only
  rw [hh.free_eq]
  by_cases hroom : n ≤ f
  · rw [if_pos hroom]
    exact .ok ⟨h, f, rfl, ha.placed.of_blocks rfl, hh, he, hroom, ha.within⟩
  · rw [if_neg hroom]
    refine (ha.realloc henv (by omega) hn (hfits (by omega))).bind ?_
    exact fun r hr => .ok ⟨r.1, _, rfl, hr⟩

/-- The value of the expression is where the new elements start. -/
theorem garyPushMulti_yields (henv : Sound env)
    (ha : IsArray env kind width stored touched heap h e f) (hn : e + n < 2 ^ 64)
    (hfits : f < e + n → Fits width f (e + n)) :
    Yields False (garyPushMulti env heap (garyBody h) width n) (fun r =>
      r.2.1 = word (r.1 + e * width) ∧
        ∃ h' f', r.1 = garyBody h' ∧ IsArray env kind width stored touched r.2.2 h' (e + n) f') := by
  obtain ⟨hh, he⟩ := ha.setElts hn
  rw [garyPushMulti, garyHdr_garyBody]
  rw [ha.header.elts_eq, word_of_lt hn, hh.elts_eq, hh.free_eq]
  by_cases hroom : e + n > f
  · rw [if_pos hroom, garyPushHelper, garyHdr_garyBody]
    dsimp only
    rw [hh.elts_eq]
    obtain ⟨_, hsize⟩ := hfits hroom
    have hstart : e * width ≤ grown f (e + n) * width :=
      Nat.mul_le_mul_right width (by have hmore := (lt_grown hroom).1; omega)
    refine (ha.realloc henv hroom hn (hfits hroom)).bind ?_
    rintro ⟨h', heap'⟩ ha'
    have hback : e + n + 2 ^ 64 - n = e + 2 ^ 64 := by omega
    refine .ok ⟨?_, h', _, rfl, ha'⟩
    dsimp only at ha' ⊢
    rw [ha'.header.elts_eq, ha'.header.size_eq, hback, word, word, word, Nat.add_mod_right,
      Nat.mod_eq_of_lt (a := e) (by omega), Nat.mod_eq_of_lt (a := e * width) (by omega)]
    rfl
  · rw [if_neg hroom]
    exact .ok ⟨rfl, h, f, rfl, ha.placed.of_blocks rfl, hh, he, by omega, ha.within⟩

/-- The room is cut off behind the elements. -/
theorem garyFix_yields (henv : Sound env) (ha : IsArray env kind width stored touched heap h e f)
    (hbelow : ∀ x b, stored x = some b → x < e * width) :
    Yields False (garyFix env heap (garyBody h)) (fun r =>
      ∃ h', r.1 = garyBody h' ∧ IsArray env kind width stored touched r.2 h' e e) := by
  have hpos : 0 < garyHdrSize := by decide
  have hbound := ha.placed.bound
  have hhpos := ha.placed.pos
  have hroom : e * width ≤ f * width := Nat.mul_le_mul_right width ha.elts_le
  have hword : e < 2 ^ 64 := by
    rw [← ha.header.elts_eq]
    exact load_lt _ _ 8
  rw [garyFix, garyHdr_garyBody]
  dsimp only
  rw [ha.header.elts_eq, ha.header.free_eq]
  by_cases hsame : e ≠ f
  · rw [if_pos hsame, ha.header.size_eq, ha.header.mem_eq, word_of_lt (x := f * width) (by omega),
      word_of_lt (x := e * width) (by omega), word_of_lt (by omega), word_of_lt (by omega)]
    refine (memRealloc_yields henv ha.placed (by omega)).bind ?_
    rintro ⟨h', heap'⟩ ⟨hplaced, hcommon, hzero⟩
    dsimp only at hplaced hcommon hzero ⊢
    have hh' : Header env kind width heap'.mem h' e f := ha.header.congr fun i hi =>
      hcommon i (by rw [garyHdrSize_eq]; omega)
    have he' : Elements kind stored touched heap'.mem h' (e * width) :=
      ha.elements.move hcommon hzero fun x b hx _ => ha.within x b hx
    rw [hh'.elts_eq]
    refine .ok ⟨h', rfl, hplaced.of_blocks rfl, hh'.setFree hword, ?_, le_rfl, hbelow⟩
    exact he'.congr fun x _ => body_store (by omega) x
  · rw [not_not] at hsame
    subst hsame
    rw [if_neg (not_not.mpr rfl)]
    exact .ok ⟨h, rfl, ha⟩

/-- The header that `gary_init` fills in. -/
theorem header_init {m : Mem} (henv : Sound env) (hwidth : width < 2 ^ 64) (he : e < 2 ^ 64) :
    Header env kind width
      (setMem (setSize (Gary.setElts (setFree m h e) h e) h width) h (env.address kind)) h e e := by
  have hapart (m : Mem) (j k v : Nat) (hjk : j + 8 ≤ k ∨ k + 8 ≤ j) :
      load (store m (h + j) 8 v) (h + k) 8 = load m (h + k) 8 :=
    load_store_apart (by unfold Apart; omega)
  have hsame (m : Mem) (k v : Nat) (hv : v < 2 ^ 64) : load (store m (h + k) 8 v) (h + k) 8 = v :=
    (load_store_same m (h + k) 8 v).trans (Nat.mod_eq_of_lt hv)
  refine ⟨?_, ?_, ?_, ?_⟩
  · exact (hapart _ 24 0 _ (by omega)).trans ((hapart _ 16 0 _ (by omega)).trans (hsame _ 0 _ he))
  · exact (hapart _ 24 8 _ (by omega)).trans ((hapart _ 16 8 _ (by omega)).trans
      ((hapart _ 0 8 _ (by omega)).trans (hsame _ 8 _ he)))
  · exact (hapart _ 24 16 _ (by omega)).trans (hsame _ 16 _ hwidth)
  · exact hsame _ 24 _ (address_lt henv kind)

/-- A new array has no elements that were stored to. -/
theorem garyInit_yields (henv : Sound env) (hblocks : ∀ b ∈ heap.blocks, 0 < b.2)
    (hwidth : width < 2 ^ 64) (he : e < 2 ^ 64) (hsize : garyHdrSize + width * e < 2 ^ 64) :
    Yields False (garyInit env heap width e (env.address kind)) (fun r => ∃ h,
      r.1 = garyBody h ∧
        IsArray env kind width (fun _ => none) (fun _ => false) r.2 h e e) := by
  have hpos : 0 < garyHdrSize := by decide
  rw [garyInit, word_of_lt (x := width * e) (by omega), word_of_lt hsize]
  refine (memAlloc_yields henv hblocks (by omega)).bind ?_
  rintro ⟨h, heap'⟩ ⟨hplaced, hzero⟩
  dsimp only at hplaced hzero ⊢
  have hhdr : garyHdrSize = 32 := garyHdrSize_eq
  have hfree : Gary.free (setFree heap'.mem h e) h = e :=
    (load_store_same _ _ 8 e).trans (Nat.mod_eq_of_lt he)
  rw [hfree]
  refine .ok ⟨h, rfl, ?_⟩
  refine ⟨?_, header_init henv hwidth he, ⟨?_, ?_⟩, le_rfl, ?_⟩
  · rw [Nat.mul_comm e width]
    exact hplaced.of_blocks rfl
  · intro x b hx
    cases hx
  · -- The four fields lie in front of the elements.
    intro hkind x hx _
    have hout (m : Mem) (k v : Nat) (hk : k + 8 ≤ 32) :
        store m (h + k) 8 v (garyBody h + x) = m (garyBody h + x) := body_store (by omega) x
    refine ((hout _ 24 _ (by omega)).trans ((hout _ 16 _ (by omega)).trans
      ((hout _ 0 _ (by omega)).trans (hout _ 8 _ (by omega))))).trans ?_
    rw [garyBody, Nat.add_assoc]
    exact hzero hkind _ (by rw [Nat.mul_comm width e]; omega)
  · intro x b hx
    cases hx

end Functions

/-! ## Steps -/

/-- The invariant of runs. -/
structure Inv (env : Env) (kind : Kind) (width : Nat) (s : Run) : Prop where
  array_eq : s.array = garyBody (garyHdr s.array)
  isArray : IsArray env kind width s.stored s.touched s.heap (garyHdr s.array) s.elts s.free
  below : ∀ x b, s.stored x = some b → x < s.elts * width

section Steps

variable {env : Env} {kind : Kind} {width : Nat} {s : Run} {h e f n : Nat}

theorem Inv.of_isArray (ha : IsArray env kind width s.stored s.touched s.heap h e f)
    (harray : s.array = garyBody h) (hbelow : ∀ x b, s.stored x = some b → x < e * width) :
    Inv env kind width s ∧ s.elts = e ∧ s.free = f := by
  have hhdr : garyHdr s.array = h := by rw [harray, garyHdr_garyBody]
  have helts : s.elts = e := by rw [Run.elts, hhdr, ha.header.elts_eq]
  have hfree : s.free = f := by rw [Run.free, hhdr, ha.header.free_eq]
  refine ⟨⟨?_, ?_, ?_⟩, helts, hfree⟩
  · rw [hhdr, harray]
  · rw [hhdr, helts, hfree]
    exact ha
  · rw [helts]
    exact hbelow

theorem Inv.sound (hs : Inv env kind width s) : StateSound kind width s := by
  obtain ⟨harray, ⟨hp, _, he, hle, _⟩, hbelow⟩ := hs
  have hroom : s.elts * width ≤ s.free * width := Nat.mul_le_mul_right width hle
  have hbound := hp.bound
  have haddr (x : Nat) : s.array + x = garyBody (garyHdr s.array) + x := by rw [← harray]
  refine ⟨hle, ?_, ?_, ?_, ?_⟩
  · obtain ⟨rest, hperm, _⟩ := hp.only
    exact hperm.mem_iff.mpr (by simp)
  · rw [haddr, garyBody]
    omega
  · intro x b hx
    have hlt := hbelow x b hx
    rw [haddr]
    exact ⟨hlt, he.kept x b hx (by omega)⟩
  · intro hkind x hx ht
    rw [haddr]
    exact he.zero hkind x (by omega) ht

theorem Inv.push (henv : Sound env) (hs : Inv env kind width s)
    (hlegal : (Call.push n).Legal width s) :
    Yields False (s.step env width (.push n)) (fun s' =>
      Inv env kind width s' ∧ StepSound width s s' (.push n)) := by
  have hpush := garyPushMulti_yields henv hs.isArray hlegal.1 hlegal.2
  rw [← hs.array_eq] at hpush
  refine hpush.bind ?_
  rintro ⟨array, c, heap⟩ ⟨hc, h, f, harray, ha⟩
  dsimp only at hc harray ha ⊢
  refine .ok ?_
  have hbelow : ∀ x b, s.stored x = some b → x < (s.elts + n) * width := by
    intro x b hx
    have hlt := hs.below x b hx
    rw [Nat.add_mul]
    omega
  obtain ⟨hinv, helts, _⟩ := @Inv.of_isArray env kind width ⟨heap, array, c, s.stored, s.touched⟩
    h (s.elts + n) f ha harray hbelow
  refine ⟨hinv, helts, ?_⟩
  rw [helts, Nat.add_sub_cancel]
  exact hc

theorem Inv.setSize (henv : Sound env) (hs : Inv env kind width s)
    (hlegal : (Call.setSize n).Legal width s) :
    Yields False (s.step env width (.setSize n)) (fun s' =>
      Inv env kind width s' ∧ StepSound width s s' (.setSize n)) := by
  have hset := garySetSize_yields henv hs.isArray hlegal.1 hlegal.2
  rw [← hs.array_eq] at hset
  refine hset.bind ?_
  rintro ⟨array, heap⟩ ⟨h, f, harray, ha⟩
  dsimp only at harray ha ⊢
  refine .ok ?_
  -- What leaves the array is forgotten.
  have hsome : ∀ x b, (if x < n * width then s.stored x else none) = some b →
      x < n * width ∧ s.stored x = some b := by
    intro x b hx
    split at hx
    · exact ⟨‹_›, hx⟩
    · cases hx
  have ha' : IsArray env kind width (fun x => if x < n * width then s.stored x else none)
      s.touched heap h n f := by
    refine ⟨ha.placed, ha.header, ⟨fun x b hx hlt => ?_, ha.elements.zero⟩, ha.elts_le,
      fun x b hx => ?_⟩
    · exact ha.elements.kept x b (hsome x b hx).2 hlt
    · exact ha.within x b (hsome x b hx).2
  obtain ⟨hinv, helts, _⟩ := @Inv.of_isArray env kind width
    ⟨heap, array, s.returned, fun x => if x < n * width then s.stored x else none, s.touched⟩
    h n f ha' harray fun x b hx => (hsome x b hx).1
  exact ⟨hinv, helts⟩

theorem Inv.fix (henv : Sound env) (hs : Inv env kind width s) :
    Yields False (s.step env width .fix) (fun s' =>
      Inv env kind width s' ∧ StepSound width s s' .fix) := by
  have hfix := garyFix_yields henv hs.isArray hs.below
  rw [← hs.array_eq] at hfix
  refine hfix.bind ?_
  rintro ⟨array, heap⟩ ⟨h, harray, ha⟩
  dsimp only at harray ha ⊢
  refine .ok ?_
  obtain ⟨hinv, helts, hfree⟩ := @Inv.of_isArray env kind width
    ⟨heap, array, s.returned, s.stored, s.touched⟩ h s.elts s.elts ha harray hs.below
  exact ⟨hinv, helts, hfree⟩

theorem Inv.store {offset : Nat} {bytes : List Byte} (hs : Inv env kind width s)
    (hlegal : (Call.store offset bytes).Legal width s) :
    Yields False (s.step env width (.store offset bytes)) (fun s' =>
      Inv env kind width s' ∧ StepSound width s s' (.store offset bytes)) := by
  obtain ⟨harray, ⟨hp, hh, he, hle, hwithin⟩, hbelow⟩ := hs
  have hlast : offset + bytes.length ≤ s.elts * width := hlegal
  have hroom : s.elts * width ≤ s.free * width := Nat.mul_le_mul_right width hle
  refine .ok ?_
  -- The header is in front of what is written.
  have hh' : Header env kind width (write s.heap.mem (s.array + offset) bytes)
      (garyHdr s.array) s.elts s.free := by
    refine hh.congr fun i hi => write_changesOnly _ _ _ _ (.inl ?_)
    rw [harray, garyHdr_garyBody, garyBody, garyHdrSize_eq]
    omega
  have hsome : ∀ x b, (if offset ≤ x ∧ x < offset + bytes.length then bytes[x - offset]?
      else s.stored x) = some b → x < s.elts * width := by
    intro x b hx
    split at hx
    · omega
    · exact hbelow x b hx
  have he' : Elements kind
      (fun x => if offset ≤ x ∧ x < offset + bytes.length then bytes[x - offset]?
        else s.stored x)
      (fun x => decide (offset ≤ x ∧ x < offset + bytes.length) || s.touched x)
      (write s.heap.mem (s.array + offset) bytes) (garyHdr s.array) (s.free * width) := by
    have hout (x : Nat) (hx : ¬ (offset ≤ x ∧ x < offset + bytes.length)) :
        write s.heap.mem (s.array + offset) bytes (garyBody (garyHdr s.array) + x) =
          s.heap.mem (garyBody (garyHdr s.array) + x) := by
      rw [← harray]
      exact write_changesOnly _ _ _ _ (by omega)
    constructor
    · intro x b hx hlt
      split at hx
      · rw [← harray, write, if_pos (by omega), show s.array + x - (s.array + offset) = x - offset
          by omega, hx, Option.getD_some]
      · rw [hout x ‹_›]
        exact he.kept x b hx hlt
    · intro hkind x hlt ht
      obtain ⟨hin, htouched⟩ := Bool.or_eq_false_iff.mp ht
      rw [hout x (of_decide_eq_false hin)]
      exact he.zero hkind x hlt htouched
  obtain ⟨hinv, helts, hfree⟩ := @Inv.of_isArray env kind width
    ⟨{ s.heap with mem := write s.heap.mem (s.array + offset) bytes }, s.array, s.returned,
      fun x => if offset ≤ x ∧ x < offset + bytes.length then bytes[x - offset]? else s.stored x,
      fun x => decide (offset ≤ x ∧ x < offset + bytes.length) || s.touched x⟩
    (garyHdr s.array) s.elts s.free
    ⟨hp.of_blocks rfl, hh', he', hle, fun x b hx => Nat.lt_of_lt_of_le (hsome x b hx) hroom⟩
    harray hsome
  exact ⟨hinv, helts, hfree⟩

theorem Inv.step (henv : Sound env) (hs : Inv env kind width s) (call : Call)
    (hlegal : call.Legal width s) :
    Yields False (s.step env width call) (fun s' =>
      Inv env kind width s' ∧ StepSound width s s' call) := by
  cases call with
  | push n => exact hs.push henv hlegal
  | setSize n => exact hs.setSize henv hlegal
  | fix => exact hs.fix henv
  | store offset bytes => exact hs.store hlegal

theorem Inv.soundRun (henv : Sound env) (calls : List Call) :
    ∀ s, Inv env kind width s → EachLegal env width s calls → SoundRun env kind width s calls := by
  induction calls with
  | nil => exact fun _ hs _ => hs.sound
  | cons call calls ih =>
      rintro s hs ⟨hlegal, hlegals⟩
      refine ⟨hs.sound, (hs.step henv call hlegal).with_eq.mono ?_⟩
      rintro s' ⟨hstep, hs', hsound⟩
      exact ⟨hsound, ih s' hs' (hlegals s' hstep)⟩

end Steps

/-- A growing array of elements of any size, made with either allocator, in every run in which no
size that is computed exceeds `SIZE_MAX`: the elements fit the room for them, the block has room
for exactly as many as the header says, what is stored in an element stays while the element is
part of the array, a push returns where the new elements start, and with `mem_std_zero` elements
that nobody stored to are zero. -/
theorem growing_array_sound (env : Env) (henv : Sound env) (kind : Kind) (heap : Heap)
    (hblocks : ∀ b ∈ heap.blocks, 0 < b.2) (width elts : Nat) (hwidth : width < 2 ^ 64)
    (helts : elts < 2 ^ 64) (hsize : garyHdrSize + width * elts < 2 ^ 64) (calls : List Call)
    (hlegal : ∀ r, garyInit env heap width elts (env.address kind) = .ok r →
      EachLegal env width (Run.new r) calls) :
    Yields False (garyInit env heap width elts (env.address kind)) (fun r =>
      (Run.new r).elts = elts ∧ SoundRun env kind width (Run.new r) calls) := by
  refine (garyInit_yields henv hblocks hwidth helts hsize).with_eq.mono ?_
  rintro r ⟨hinit, h, harray, ha⟩
  obtain ⟨hs, helts', _⟩ := @Inv.of_isArray env kind width (Run.new r) h elts elts ha harray
    (fun x b hx => by cases hx)
  exact ⟨helts', hs.soundRun henv calls _ (hlegal r hinit)⟩

instance (width : Nat) (s : Run) : ∀ call : Call, Decidable (call.Legal width s)
  | .push _ => inferInstanceAs (Decidable (_ ∧ (_ → _ ∧ _)))
  | .setSize _ => inferInstanceAs (Decidable (_ ∧ (_ → _ ∧ _)))
  | .fix => .isTrue trivial
  | .store _ _ => inferInstanceAs (Decidable (_ ≤ _))

instance decidableForallOk {α : Type} {post : α → Prop} [DecidablePred post] :
    ∀ x : Except Fault α, Decidable (∀ a, x = .ok a → post a)
  | .error _ => .isTrue nofun
  | .ok a => decidable_of_iff (post a) ⟨fun h _ hb => Except.ok.inj hb ▸ h, fun h => h a rfl⟩

instance decidableEachLegal (env : Env) (width : Nat) :
    ∀ (calls : List Call) (s : Run), Decidable (EachLegal env width s calls)
  | [], _ => .isTrue trivial
  | _ :: calls, _ =>
      have := decidableEachLegal env width calls
      inferInstanceAs (Decidable (_ ∧ ∀ s', _ = Except.ok s' → _))

/-- Ranges that are 64 KiB apart. -/
def wideEnv : Env := ⟨stride cpuStructAlign 0x10000 0x10000, 0x100, 0x200⟩

theorem wideEnv_sound : Sound wideEnv :=
  ⟨stride_handsOutFresh _ _ _, by decide, by decide⟩

/-- A store, a push that moves the array, a cut, and growth over what was cut off. -/
def grownCalls : List Call :=
  [.store 4 [1, 2, 3, 4], .push 3, .store 8 [5], .setSize 1, .fix, .setSize 6]

theorem growing_array_sound_grown :
    ∃ r, garyInit wideEnv ⟨fun _ => 0xff#8, [], 0⟩ 4 2 (wideEnv.address .memStdZero) = .ok r ∧
      SoundRun wideEnv .memStdZero 4 (Run.new r) grownCalls := by
  obtain ⟨r, hr⟩ : ∃ r, garyInit wideEnv ⟨fun _ => 0xff#8, [], 0⟩ 4 2
      (wideEnv.address .memStdZero) = .ok r := exists_of_isOk (by decide +kernel)
  have hsound := growing_array_sound wideEnv wideEnv_sound .memStdZero ⟨fun _ => 0xff#8, [], 0⟩
    (by simp) 4 2 (by decide) (by decide) (by decide) grownCalls (by decide +kernel)
  exact ⟨r, hr, (hsound.of_ok hr).2⟩

end OpenAAA.Gary
