import OpenAAA.Generic.Sorter
import OpenAAA.Lib.Scatter

/-!
`generic/sorter/array.c` and `array.h`: the sorter for large arrays. `asort_run` chooses
between the quicksort of `array-simple.h`, which `array.h` repeats, and a radix sort by
the leading bits of a monotone hash function. The radix sort moves the elements between
the array and a buffer of the same size, and `swapped_output` says where they have to end.
-/

namespace OpenAAA.Sorter

open Arrays Scatter

inductive AsortFault where
  | quicksort (fault : SortFault)
  | overflow
  | assertion
  | endless
deriving DecidableEq

/-- `struct asort_context`, the macros that `array.h` is instantiated with and the configured
limit in bytes. -/
structure AsortContext (α : Type) where
  hash : α → Nat
  longHash : Bool
  eltSize : Nat
  radixBits : Nat
  sorterRadixThreshold : Nat

variable {α : Type}

/-- `MIN(sorter_radix_threshold / ctx->elt_size, ~0U)` -/
def AsortContext.radixThreshold (c : AsortContext α) : Nat :=
  min (c.sorterRadixThreshold / c.eltSize) (2 ^ 32 - 1)

/-- The shifts that `radix_count` and `radix_split` have a case for. -/
def AsortContext.shifts (c : AsortContext α) : Nat := if c.longHash then 64 else 32

/-- `(ASORT_HASH(x) >> shift) & ASORT_RADIX_MASK` -/
def AsortContext.digit (c : AsortContext α) (shift : Nat) (x : α) : Nat :=
  (c.hash x >>> shift) &&& (2 ^ c.radixBits - 1)

/-- `ASORT_MIN_SHIFT` -/
def minShift : Nat := 2

/-- `memcpy(dest, src, n * elt_size)`, both at the element `base`. -/
def copyElts (dest src : Nat → α) (base n : Nat) : Nat → α := fun k =>
  if base ≤ k ∧ k < base + n then src k else dest k

/-- `Q(quicksort)` on the elements from `base` on. -/
def quicksort [LinearOrder α] (array : Nat → α) (base numElts : Nat) :
    Except AsortFault (Nat → α) :=
  match sort (fun k => array (base + k)) numElts with
  | .error fault => .error (.quicksort fault)
  | .ok sorted => .ok (copyElts array (fun k => sorted (k - base)) base numElts)

/-- `Q(radix_count)`, with the number of turns left. -/
def radixCount (digit : α → Nat) (src : Nat → α) (base : Nat) :
    Nat → Nat → (Nat → Nat) → Nat → Nat
  | 0, _, cnt => cnt
  | left + 1, i, cnt =>
      let d := digit (src (base + i))
      radixCount digit src base left (i + 1) (Function.update cnt d (cnt d + 1))

/-- `Q(radix_split)`, with the number of turns left. -/
def radixSplit (digit : α → Nat) (src : Nat → α) (base : Nat) :
    Nat → Nat → (Nat → α) → (Nat → Nat) → (Nat → α) × (Nat → Nat)
  | 0, _, dest, ptrs => (dest, ptrs)
  | left + 1, i, dest, ptrs =>
      let d := digit (src (base + i))
      radixSplit digit src base left (i + 1) (Function.update dest (base + ptrs d) (src (base + i)))
        (Function.update ptrs d (ptrs d + 1))

/-- The counts become the starts of the buckets; `pos` at the end. -/
def bucketStarts : Nat → Nat → (Nat → Nat) → Nat → (Nat → Nat) × Nat
  | 0, _, cnt, pos => (cnt, pos)
  | left + 1, i, cnt, pos => bucketStarts left (i + 1) (Function.update cnt i pos) (pos + cnt i)

/-- `array += n * ctx->elt_size`: the product is an unsigned integer of 32 bits. -/
def AsortContext.advance (c : AsortContext α) (base n : Nat) : Except AsortFault Nat :=
  if 2 ^ 32 ≤ n * c.eltSize then .error .overflow else .ok (base + n)

variable [LinearOrder α]

/-- One bucket of `asort_radix`, which is in the buffer; `recur` is `asort_radix` itself. -/
def sortBucket (c : AsortContext α)
    (recur : (Nat → α) → (Nat → α) → Nat → Nat → Nat → Bool →
      Except AsortFault ((Nat → α) × (Nat → α)))
    (shift : Nat) (swappedOutput : Bool) (array buffer : Nat → α) (base n : Nat) :
    Except AsortFault ((Nat → α) × (Nat → α)) :=
  if n < c.radixThreshold ∨ shift < minShift then do
    let buffer ← quicksort buffer base n
    pure (if swappedOutput then array else copyElts array buffer base n, buffer)
  else do
    let (buffer, array) ← recur buffer array base n shift (!swappedOutput)
    pure (array, buffer)

/-- The loop of `asort_radix` over the buckets. -/
def bucketLoop (c : AsortContext α)
    (recur : (Nat → α) → (Nat → α) → Nat → Nat → Nat → Bool →
      Except AsortFault ((Nat → α) × (Nat → α)))
    (cnt : Nat → Nat) (shift : Nat) (swappedOutput : Bool) :
    Nat → Nat → Nat → Nat → (Nat → α) → (Nat → α) → Except AsortFault ((Nat → α) × (Nat → α))
  | 0, _, _, _, array, buffer => .ok (array, buffer)
  | left + 1, i, pos, base, array, buffer => do
      let n := cnt i - pos
      let (array, buffer) ← sortBucket c recur shift swappedOutput array buffer base n
      let base ← c.advance base n
      bucketLoop c recur cnt shift swappedOutput left (i + 1) (cnt i) base array buffer

/-- `asort_radix`; the array and the buffer are used from the element `base` on. -/
def asortRadix (c : AsortContext α) :
    Nat → (Nat → α) → (Nat → α) → Nat → Nat → Nat → Bool →
      Except AsortFault ((Nat → α) × (Nat → α))
  | 0, _, _, _, _, _, _ => .error .endless
  | fuel + 1, array, buffer, base, numElts, hashBits, swappedOutput =>
      let buckets := 2 ^ c.radixBits
      let shift := if hashBits > c.radixBits then hashBits - c.radixBits else 0
      if c.shifts ≤ shift then .error .assertion
      else
        let cnt := radixCount (c.digit shift) array base numElts 0 (fun _ => 0)
        let (cnt, pos) := bucketStarts buckets 0 cnt 0
        if pos ≠ numElts then .error .assertion
        else
          let (buffer, cnt) := radixSplit (c.digit shift) array base numElts 0 buffer cnt
          bucketLoop c (asortRadix c fuel) cnt shift swappedOutput buckets 0 0 base array buffer

/-- `predict_swap`: the number of passes over the array, as a parity. -/
def predictSwap (c : AsortContext α) : Nat → Nat → Nat → Bool → Except AsortFault Bool
  | 0, _, _, _ => .error .endless
  | fuel + 1, elts, bits, swap =>
      if elts ≥ c.radixThreshold ∧ bits ≥ minShift then
        predictSwap c fuel (elts >>> c.radixBits) (max bits c.radixBits - c.radixBits) (!swap)
      else .ok swap

/-- `asort_run` without threads: where the result is, and what the array and the buffer hold. -/
def asortRun (c : AsortContext α) (array buffer : Nat → α) (numElts hashBits : Nat)
    (radix : Bool) : Except AsortFault (Bool × (Nat → α) × (Nat → α)) := do
  if numElts < c.radixThreshold ∨ hashBits ≤ minShift ∨ !radix then
    let array ← quicksort array 0 numElts
    pure (false, array, buffer)
  else
    let swap ← predictSwap c (c.radixBits + 1) numElts c.radixBits false
    let (array, buffer) ← asortRadix c (hashBits + 1) array buffer 0 numElts hashBits swap
    pure (swap, array, buffer)

/-! ## Counting and splitting -/

section Distribution

omit [LinearOrder α]

variable {digit : α → Nat} {src : Nat → α} {base : Nat}

end Distribution

/-! ## The quicksort on a part of an array -/

omit [LinearOrder α] in
theorem copyElts_in {dest src : Nat → α} {base n k : Nat} (h : base ≤ k) (h' : k < base + n) :
    copyElts dest src base n k = src k :=
  if_pos ⟨h, h'⟩

omit [LinearOrder α] in
theorem copyElts_out {dest src : Nat → α} {base n k : Nat} (h : k < base ∨ base + n ≤ k) :
    copyElts dest src base n k = dest k :=
  if_neg (by omega)

omit [LinearOrder α] in
theorem slice_copyElts (dest src : Nat → α) (base n : Nat) :
    slice (copyElts dest src base n) base n = slice src base n :=
  slice_congr fun _ h h' => copyElts_in h h'

theorem quicksort_ok (array : Nat → α) (base : Nat) {n : Nat} (hn : n ≤ 2 ^ 30 + 4) :
    ∃ array', quicksort array base n = .ok array' ∧ (slice array' base n).Pairwise (· ≤ ·) ∧
      (slice array' base n).Perm (slice array base n) ∧
      ∀ k, k < base ∨ base + n ≤ k → array' k = array k := by
  obtain ⟨S, hrun, hsorted, hmoved⟩ := sort_ok (fun k => array (base + k)) hn
  refine ⟨copyElts array (fun k => S (k - base)) base n, by rw [quicksort, hrun], ?_, ?_,
    fun k hk => copyElts_out hk⟩
  · rw [slice_copyElts, List.pairwise_iff_getElem]
    intro i j hi hj hij
    simp only [slice_getElem, Nat.add_sub_cancel_left]
    rw [slice_length] at hj
    exact hsorted i j hij.le hj
  · have hwhole : Rearranged 0 (0 + n) (fun k => array (base + k)) S := by
      rw [Nat.zero_add]
      exact hmoved
    have hperm := slice_perm hwhole
    rw [slice_copyElts]
    have hleft : slice (fun k => S (k - base)) base n = slice S 0 n := by
      simp [slice]
    have hright : slice array base n = slice (fun k => array (base + k)) 0 n := by
      simp [slice]
    rw [hleft, hright]
    exact hperm

/-! ## Digits of a monotone hash -/

section Digits

variable {c : AsortContext α} {hashBits shift : Nat} {xs : List α}

/-- The elements have the same hash but for the last bits. -/
def Alike (c : AsortContext α) (bits : Nat) (xs : List α) : Prop :=
  ∀ x ∈ xs, ∀ y ∈ xs, c.hash x >>> bits = c.hash y >>> bits

omit [LinearOrder α] in
theorem digit_eq (c : AsortContext α) (shift : Nat) (x : α) :
    c.digit shift x = c.hash x / 2 ^ shift % 2 ^ c.radixBits := by
  rw [AsortContext.digit, Nat.and_two_pow_sub_one_eq_mod, Nat.shiftRight_eq_div_pow]

omit [LinearOrder α] in
theorem Alike.mono {ys : List α} (h : Alike c hashBits xs) (hsub : ∀ x ∈ ys, x ∈ xs) :
    Alike c hashBits ys :=
  fun x hx y hy => h x (hsub x hx) y (hsub y hy)

omit [LinearOrder α] in
/-- Above the digit the hashes agree. -/
theorem Alike.above (h : Alike c hashBits xs) (hbits : hashBits ≤ shift + c.radixBits) {x y : α}
    (hx : x ∈ xs) (hy : y ∈ xs) :
    c.hash x / 2 ^ shift / 2 ^ c.radixBits = c.hash y / 2 ^ shift / 2 ^ c.radixBits := by
  have heq := h x hx y hy
  rw [Nat.shiftRight_eq_div_pow, Nat.shiftRight_eq_div_pow] at heq
  obtain ⟨d, hd⟩ := Nat.exists_eq_add_of_le hbits
  rw [Nat.div_div_eq_div_mul, Nat.div_div_eq_div_mul, ← pow_add, hd, pow_add,
    ← Nat.div_div_eq_div_mul, ← Nat.div_div_eq_div_mul, heq]

omit [LinearOrder α] in
/-- The elements of a bucket agree in the digit too. -/
theorem Alike.bucket (h : Alike c hashBits xs) (hbits : hashBits ≤ shift + c.radixBits) (i : Nat) :
    Alike c shift (xs.filter fun x => decide (c.digit shift x = i)) := by
  intro x hx y hy
  obtain ⟨hx, hxi⟩ := List.mem_filter.mp hx
  obtain ⟨hy, hyi⟩ := List.mem_filter.mp hy
  have hdigit := (of_decide_eq_true hxi).trans (of_decide_eq_true hyi).symm
  rw [digit_eq, digit_eq] at hdigit
  have habove := h.above hbits hx hy
  rw [Nat.shiftRight_eq_div_pow, Nat.shiftRight_eq_div_pow,
    ← Nat.div_add_mod (c.hash x / 2 ^ shift) (2 ^ c.radixBits),
    ← Nat.div_add_mod (c.hash y / 2 ^ shift) (2 ^ c.radixBits), habove, hdigit]

end Digits

/-! ## The radix sort -/

/-- Four numbers by two digits of two bits each. -/
def fourNumbers : AsortContext Nat where
  hash := id
  longHash := false
  eltSize := 4
  radixBits := 2
  sorterRadixThreshold := 4

end OpenAAA.Sorter
