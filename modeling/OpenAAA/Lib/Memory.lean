import Mathlib.Tactic

/-!
Byte-addressed memory with little-endian words. A memory is total: what an
address holds that nobody wrote is an arbitrary byte, never an error. Every
access is a byte range, and the only two facts later modules need about a pair
of accesses are that a word reads back what was stored and that disjoint
ranges do not see each other.
-/

namespace OpenAAA.Memory

abbrev Byte := BitVec 8

abbrev Mem := Nat → Byte

/-- The half-open ranges `[a, a+n)` and `[b, b+k)` share no address. An empty
range is disjoint from everything. -/
def Apart (a n b k : Nat) : Prop :=
  n = 0 ∨ k = 0 ∨ a + n ≤ b ∨ b + k ≤ a

instance (a n b k : Nat) : Decidable (Apart a n b k) :=
  inferInstanceAs (Decidable (_ ∨ _ ∨ _ ∨ _))

/-- The range `[a, a+n)` lies in `[b, b+k)`. -/
def Inside (a n b k : Nat) : Prop :=
  b ≤ a ∧ a + n ≤ b + k

instance (a n b k : Nat) : Decidable (Inside a n b k) :=
  inferInstanceAs (Decidable (_ ∧ _))

theorem Apart.symm {a n b k : Nat} (h : Apart a n b k) :
    Apart b k a n := by
  unfold Apart at *
  omega

theorem Apart.mono {a n b k a' n' b' k' : Nat} (h : Apart a n b k)
    (ha : Inside a' n' a n) (hb : Inside b' k' b k) :
    Apart a' n' b' k' := by
  unfold Apart Inside at *
  omega

theorem Apart.mono_left {a n b k a' n' : Nat} (h : Apart a n b k)
    (ha : Inside a' n' a n) : Apart a' n' b k :=
  h.mono ha ⟨le_rfl, le_rfl⟩

theorem Apart.mono_right {a n b k b' k' : Nat} (h : Apart a n b k)
    (hb : Inside b' k' b k) : Apart a n b' k' :=
  h.mono ⟨le_rfl, le_rfl⟩ hb

theorem Inside.trans {a n b k c l : Nat} (h : Inside a n b k)
    (h' : Inside b k c l) : Inside a n c l := by
  unfold Inside at *
  omega

/-- Two memories hold the same bytes on `[a, a+n)`. -/
def Agree (m m' : Mem) (a n : Nat) : Prop :=
  ∀ x, a ≤ x → x < a + n → m' x = m x

theorem Agree.refl (m : Mem) (a n : Nat) : Agree m m a n :=
  fun _ _ _ => rfl

theorem Agree.trans {m m' m'' : Mem} {a n : Nat} (h : Agree m m' a n)
    (h' : Agree m' m'' a n) : Agree m m'' a n :=
  fun x hl hu => (h' x hl hu).trans (h x hl hu)

theorem Agree.mono {m m' : Mem} {a n b k : Nat} (h : Agree m m' a n)
    (hin : Inside b k a n) : Agree m m' b k := by
  intro x hl hu
  unfold Inside at hin
  exact h x (by omega) (by omega)

/-- `m'` is `m` after writes into `[a, a+n)`. -/
def ChangesOnly (m m' : Mem) (a n : Nat) : Prop :=
  ∀ x, x < a ∨ a + n ≤ x → m' x = m x

theorem ChangesOnly.trans {m m' m'' : Mem} {a n : Nat} (h : ChangesOnly m m' a n)
    (h' : ChangesOnly m' m'' a n) : ChangesOnly m m'' a n :=
  fun x hx => (h' x hx).trans (h x hx)

theorem ChangesOnly.mono {m m' : Mem} {a n b k : Nat} (h : ChangesOnly m m' a n)
    (hin : Inside a n b k) : ChangesOnly m m' b k := by
  intro x hx
  unfold Inside at hin
  exact h x (by omega)

/-- Ranges disjoint from the written one are kept. -/
theorem ChangesOnly.agree {m m' : Mem} {a n b k : Nat} (h : ChangesOnly m m' a n)
    (happart : Apart a n b k) : Agree m m' b k := by
  intro x hl hu
  unfold Apart at happart
  exact h x (by omega)

/-- The little-endian number in the `n` bytes from `a`. -/
def load (m : Mem) (a : Nat) : Nat → Nat
  | 0 => 0
  | n + 1 => (m a).toNat + 256 * load m (a + 1) n

/-- The `n` low bytes of `v`, little-endian, written from `a`. -/
def store (m : Mem) (a n v : Nat) : Mem := fun x =>
  if a ≤ x ∧ x < a + n then BitVec.ofNat 8 (v / 256 ^ (x - a)) else m x

theorem load_lt (m : Mem) (a n : Nat) : load m a n < 256 ^ n := by
  induction n generalizing a with
  | zero => simp [load]
  | succ n ih =>
      have hbyte := (m a).isLt
      have htail := ih (a + 1)
      simp only [load, pow_succ]
      omega

/-- A load depends only on the bytes it reads. -/
theorem load_congr {m m' : Mem} {a a' n : Nat} (h : ∀ i < n, m' (a' + i) = m (a + i)) :
    load m' a' n = load m a n := by
  induction n generalizing a a' with
  | zero => rfl
  | succ n ih =>
      have hhead : m' a' = m a := h 0 (by omega)
      have htail : load m' (a' + 1) n = load m (a + 1) n := by
        apply ih
        intro i hi
        have hbyte := h (i + 1) (by omega)
        rwa [Nat.add_comm i, ← Nat.add_assoc, ← Nat.add_assoc] at hbyte
      rw [load, load, hhead, htail]

theorem load_of_agree {m m' : Mem} {a n : Nat} (h : Agree m m' a n) :
    load m' a n = load m a n :=
  load_congr (fun i hi => h (a + i) (by omega) (by omega))

theorem load_store_same (m : Mem) (a n v : Nat) :
    load (store m a n v) a n = v % 256 ^ n := by
  -- The tail of the stored word is the word `v / 256` stored one byte on.
  have hgen : ∀ (k b w : Nat) (m' : Mem),
      (∀ x, b ≤ x → x < b + k → m' x = BitVec.ofNat 8 (w / 256 ^ (x - b))) →
      load m' b k = w % 256 ^ k := by
    intro k
    induction k with
    | zero => intro b w m' _; simp [load, Nat.mod_one]
    | succ k ih =>
        intro b w m' hbytes
        have htail : load m' (b + 1) k = w / 256 % 256 ^ k := by
          apply ih
          intro x hl hu
          have hpos : x - (b + 1) + 1 = x - b := by omega
          rw [hbytes x (by omega) (by omega), Nat.div_div_eq_div_mul, ← pow_succ', hpos]
        have hhead : (m' b).toNat = w % 256 := by
          rw [hbytes b (le_refl b) (by omega)]
          simp
        simp only [load]
        rw [hhead, htail, pow_succ', Nat.mod_mul]
  apply hgen
  intro x hl hu
  simp [store, hl, hu]

/-- Storing a loaded word elsewhere copies its bytes. -/
theorem store_load_byte (m m' : Mem) (a b n i : Nat) (hi : i < n) :
    store m' b n (load m a n) (b + i) = m (a + i) := by
  have hbyte : ∀ k j, j < k → ∀ c,
      BitVec.ofNat 8 (load m c k / 256 ^ j) = m (c + j) := by
    intro k
    induction k with
    | zero => intro j hj; omega
    | succ k ih =>
        intro j hj c
        have hhead := (m c).isLt
        cases j with
        | zero =>
            apply BitVec.eq_of_toNat_eq
            simp only [load, pow_zero, Nat.div_one, BitVec.toNat_ofNat, Nat.add_zero]
            omega
        | succ j =>
            have hshift : load m c (k + 1) / 256 ^ (j + 1) = load m (c + 1) k / 256 ^ j := by
              rw [pow_succ', ← Nat.div_div_eq_div_mul]
              congr 1
              simp only [load]
              omega
            have hnext := ih j (by omega) (c + 1)
            rw [hshift, hnext]
            congr 1
            omega
  have hin : b ≤ b + i ∧ b + i < b + n := by omega
  rw [store, if_pos hin, Nat.add_sub_cancel_left]
  exact hbyte n i hi a

theorem store_outside {m : Mem} {a n v x : Nat} (h : x < a ∨ a + n ≤ x) :
    store m a n v x = m x := by
  have hout : ¬ (a ≤ x ∧ x < a + n) := by omega
  rw [store, if_neg hout]

theorem store_zero {m : Mem} {a n x : Nat} (hl : a ≤ x) (hu : x < a + n) :
    store m a n 0 x = 0 := by
  rw [store, if_pos ⟨hl, hu⟩, Nat.zero_div]
  rfl

theorem load_eq_zero_iff (m : Mem) (a n : Nat) :
    load m a n = 0 ↔ ∀ i < n, m (a + i) = 0 := by
  constructor
  · intro hzero i hi
    rw [← store_load_byte m m a 0 n i hi, hzero]
    exact store_zero (by omega) (by omega)
  · intro hbytes
    induction n generalizing a with
    | zero => rfl
    | succ n ih =>
        have hhead : m a = 0 := hbytes 0 (by omega)
        have htail : load m (a + 1) n = 0 := by
          apply ih
          intro i hi
          have hbyte := hbytes (i + 1) (by omega)
          rwa [Nat.add_comm i, ← Nat.add_assoc] at hbyte
        rw [load, hhead, htail]
        rfl

theorem store_changesOnly (m : Mem) (a n v : Nat) : ChangesOnly m (store m a n v) a n :=
  fun _ hx => store_outside hx

/-- One field of a structure is part of it. -/
theorem field_changesOnly (m : Mem) (a off n v : Nat) {size : Nat} (hfit : off + n ≤ size) :
    ChangesOnly m (store m (a + off) n v) a size := by
  apply (store_changesOnly m (a + off) n v).mono
  unfold Inside
  omega

theorem store_agree {m : Mem} {a n v b k : Nat} (h : Apart a n b k) :
    Agree m (store m a n v) b k :=
  (store_changesOnly m a n v).agree h

theorem load_store_apart {m : Mem} {a n v b k : Nat}
    (h : Apart a n b k) : load (store m a n v) b k = load m b k :=
  load_of_agree (store_agree h)

/-- `memcpy` from a list of bytes. -/
def write (m : Mem) (a : Nat) (bs : List Byte) : Mem := fun x =>
  if a ≤ x then (bs[x - a]?).getD (m x) else m x

/-- The `n` bytes from `a`. -/
def read (m : Mem) (a n : Nat) : List Byte :=
  (List.range n).map (fun i => m (a + i))

theorem write_changesOnly (m : Mem) (a : Nat) (bs : List Byte) :
    ChangesOnly m (write m a bs) a bs.length := by
  intro x hout
  by_cases hx : a ≤ x
  · have hbehind : bs.length ≤ x - a := by omega
    simp [write, hx, List.getElem?_eq_none hbehind]
  · simp [write, hx]

theorem write_agree {m : Mem} {a b k : Nat} {bs : List Byte}
    (h : Apart a bs.length b k) : Agree m (write m a bs) b k :=
  (write_changesOnly m a bs).agree h

@[simp] theorem read_length (m : Mem) (a n : Nat) : (read m a n).length = n := by
  simp [read]

theorem read_getElem? {m : Mem} {a n i : Nat} (h : i < n) :
    (read m a n)[i]? = some (m (a + i)) := by
  simp [read, h]

theorem read_congr {m m' : Mem} {a a' n : Nat} (h : ∀ i < n, m' (a' + i) = m (a + i)) :
    read m' a' n = read m a n := by
  apply List.map_congr_left
  intro i hi
  exact h i (List.mem_range.mp hi)

theorem read_append (m : Mem) (a n k : Nat) :
    read m a (n + k) = read m a n ++ read m (a + n) k := by
  simp only [read, List.range_add, List.map_append, List.map_map]
  congr 1
  apply List.map_congr_left
  intro i _
  simp [Nat.add_assoc]

theorem read_write_self (m : Mem) (a : Nat) (bs : List Byte) :
    read (write m a bs) a bs.length = bs := by
  apply List.ext_getElem?
  intro i
  by_cases hi : i < bs.length
  · rw [read_getElem? hi, write, if_pos (by omega), Nat.add_sub_cancel_left]
    simp [List.getElem?_eq_getElem hi]
  · rw [List.getElem?_eq_none (by simpa using hi), List.getElem?_eq_none (by omega)]

theorem read_of_agree {m m' : Mem} {a n : Nat} (h : Agree m m' a n) : read m' a n = read m a n :=
  read_congr (fun i hi => h (a + i) (by omega) (by omega))

/-- What is written behind `n` bytes is read behind them. -/
theorem read_write_append (m : Mem) (a n : Nat) (bs : List Byte) :
    read (write m (a + n) bs) a (n + bs.length) = read m a n ++ bs := by
  have hapart : Apart (a + n) bs.length a n := Or.inr (Or.inr (Or.inr (le_refl _)))
  rw [read_append, read_write_self, read_of_agree (write_agree hapart)]

theorem write_nil (m : Mem) (a : Nat) : write m a [] = m := by
  funext x
  simp [write]

/-- Two writes that follow each other are one. -/
theorem write_write_append (m : Mem) (a : Nat) (xs ys : List Byte) :
    write (write m a xs) (a + xs.length) ys = write m a (xs ++ ys) := by
  funext x
  unfold write
  by_cases hx : a ≤ x
  · by_cases hy : a + xs.length ≤ x
    · have hsub : x - a - xs.length = x - (a + xs.length) := Nat.sub_sub _ _ _
      have hout : xs[x - a]? = none := List.getElem?_eq_none (by omega)
      rw [if_pos hy, if_pos hx, if_pos hx, List.getElem?_append_right (by omega), hsub, hout]
      rfl
    · rw [if_neg hy, if_pos hx, if_pos hx, List.getElem?_append_left (by omega)]
  · rw [if_neg (by omega), if_neg hx, if_neg hx]

/-- `memmove`: the `n` bytes from `src` at `dst`. -/
def copy (m : Mem) (dst src n : Nat) : Mem := fun x =>
  if dst ≤ x ∧ x < dst + n then m (src + (x - dst)) else m x

theorem copy_changesOnly (m : Mem) (dst src n : Nat) : ChangesOnly m (copy m dst src n) dst n := by
  intro x hout
  have hother : ¬ (dst ≤ x ∧ x < dst + n) := by omega
  rw [copy, if_neg hother]

theorem copy_byte (m : Mem) (dst src : Nat) {n i : Nat} (hi : i < n) :
    copy m dst src n (dst + i) = m (src + i) := by
  have hin : dst ≤ dst + i ∧ dst + i < dst + n := by omega
  rw [copy, if_pos hin, Nat.add_sub_cancel_left]

/-- A loop that stores `f i` at each `i` below `n`. -/
theorem foldl_update_apply {α : Type*} (f : Nat → α) (a : Nat → α) {n i : Nat} (hi : i < n) :
    (List.range n).foldl (fun a i => Function.update a i (f i)) a i = f i := by
  induction n with
  | zero => omega
  | succ n ih =>
      rw [List.range_succ, List.foldl_append, List.foldl_cons, List.foldl_nil]
      by_cases hlast : i = n
      · subst hlast
        exact Function.update_self _ _ _
      · rw [Function.update_of_ne hlast]
        exact ih (by omega)

end OpenAAA.Memory
