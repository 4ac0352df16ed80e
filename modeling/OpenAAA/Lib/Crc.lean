import OpenAAA.Lib.Memory

/-!
Reflected cyclic redundancy checks over any register width and polynomial. The
register is divided one bit at a time from its low end. The step is linear in
exclusive or, and it is injective as soon as the polynomial has its top bit,
which is all that table-driven implementations and error detection rest on:
a table is the step iterated on one byte, slicing splits a word into bytes by
linearity, and a burst no longer than the register cannot cancel.
-/

namespace OpenAAA.Crc

variable {w : Nat} (poly : BitVec w)

/-- One division step: the low bit leaves, and brings the polynomial in. -/
def bitStep (s : BitVec w) : BitVec w :=
  if s.getLsbD 0 then (s >>> 1) ^^^ poly else s >>> 1

def bitSteps : Nat → BitVec w → BitVec w
  | 0, s => s
  | n + 1, s => bitSteps n (bitStep poly s)

theorem bitStep_xor (x y : BitVec w) :
    bitStep poly (x ^^^ y) = bitStep poly x ^^^ bitStep poly y := by
  unfold bitStep
  rw [BitVec.getLsbD_xor, BitVec.ushiftRight_xor_distrib]
  cases x.getLsbD 0 <;> cases y.getLsbD 0
  · simp
  · simp [BitVec.xor_assoc]
  · simp only [Bool.true_bne, Bool.not_false, if_true, Bool.false_eq_true, if_false]
    rw [BitVec.xor_assoc, BitVec.xor_comm (y >>> 1), ← BitVec.xor_assoc]
  · have hcancel : x >>> 1 ^^^ y >>> 1 =
        (x >>> 1 ^^^ poly) ^^^ (y >>> 1 ^^^ poly) := by
      ext i
      simp only [BitVec.getElem_xor]
      cases (x >>> 1)[i] <;> cases (y >>> 1)[i] <;> cases poly[i] <;> rfl
    simpa using hcancel

theorem bitSteps_xor (n : Nat) (x y : BitVec w) :
    bitSteps poly n (x ^^^ y) = bitSteps poly n x ^^^ bitSteps poly n y := by
  induction n generalizing x y with
  | zero => rfl
  | succ n ih =>
      simp only [bitSteps, bitStep_xor]
      exact ih _ _

theorem bitSteps_add (n k : Nat) (s : BitVec w) :
    bitSteps poly (n + k) s = bitSteps poly k (bitSteps poly n s) := by
  induction n generalizing s with
  | zero => rw [Nat.zero_add]; rfl
  | succ n ih =>
      rw [Nat.succ_add]
      exact ih _

/-- While only zeros leave the register, the steps are a plain shift. -/
theorem bitSteps_of_low_clear (n : Nat) (s : BitVec w)
    (hlow : ∀ i < n, s.getLsbD i = false) :
    bitSteps poly n s = s >>> n := by
  induction n generalizing s with
  | zero => simp [bitSteps]
  | succ n ih =>
      have hfirst : bitStep poly s = s >>> 1 := by
        simp [bitStep, hlow 0 (by omega)]
      simp only [bitSteps, hfirst]
      rw [ih (s >>> 1), ← BitVec.shiftRight_add, Nat.add_comm]
      intro i hi
      rw [BitVec.getLsbD_ushiftRight]
      exact hlow (1 + i) (by omega)

/-- The top bit of the result tells which bit left, so nothing is lost. -/
theorem bitStep_injective (hpoly : poly.msb = true) :
    Function.Injective (bitStep poly) := by
  have hmsb : ∀ s : BitVec w, (bitStep poly s).msb = s.getLsbD 0 := by
    intro s
    unfold bitStep
    cases hs : s.getLsbD 0
    · simp [BitVec.msb_ushiftRight]
    · simp [BitVec.msb_xor, BitVec.msb_ushiftRight, hpoly]
  intro x y heq
  have hlow : x.getLsbD 0 = y.getLsbD 0 := by
    rw [← hmsb x, ← hmsb y, heq]
  have hhigh : x >>> 1 = y >>> 1 := by
    unfold bitStep at heq
    rw [hlow] at heq
    split at heq
    · exact (BitVec.xor_left_inj poly).mp heq
    · exact heq
  apply BitVec.eq_of_getLsbD_eq
  intro i hi
  cases i with
  | zero => exact hlow
  | succ i =>
      have hbit := congrArg (fun v => v.getLsbD i) hhigh
      simpa [BitVec.getLsbD_ushiftRight, Nat.add_comm] using hbit

theorem bitSteps_injective (hpoly : poly.msb = true) (n : Nat) :
    Function.Injective (bitSteps poly n) := by
  induction n with
  | zero => exact fun _ _ h => h
  | succ n ih => exact ih.comp (bitStep_injective poly hpoly)

/-- The bit-by-bit update of the register by one byte, low bit first. -/
def updateByte (s : BitVec w) (b : BitVec 8) : BitVec w :=
  bitSteps poly 8 (s ^^^ b.setWidth w)

def update (s : BitVec w) (bs : List (BitVec 8)) : BitVec w :=
  bs.foldl (updateByte poly) s

@[simp] theorem update_nil (s : BitVec w) : update poly s [] = s := rfl

@[simp] theorem update_cons (s : BitVec w) (b : BitVec 8) (bs : List (BitVec 8)) :
    update poly s (b :: bs) = update poly (updateByte poly s b) bs := rfl

theorem update_append (s : BitVec w) (xs ys : List (BitVec 8)) :
    update poly s (xs ++ ys) = update poly (update poly s xs) ys := by
  simp [update]

theorem update_injective (hpoly : poly.msb = true) (bs : List (BitVec 8)) :
    Function.Injective (fun s => update poly s bs) := by
  induction bs with
  | nil => exact fun _ _ h => h
  | cons b bs ih =>
      intro x y heq
      have hbyte : updateByte poly x b = updateByte poly y b := ih heq
      have hxor := bitSteps_injective poly hpoly 8 hbyte
      exact (BitVec.xor_left_inj _).mp hxor

/-- The bytes of a list as one register value, first byte lowest. -/
def leWord (w : Nat) : List (BitVec 8) → BitVec w
  | [] => 0
  | b :: bs => b.setWidth w ^^^ (leWord w bs <<< 8)

theorem leWord_getLsbD (bs : List (BitVec 8)) (i : Nat) (hi : i < w) :
    (leWord w bs).getLsbD i = ((bs[i / 8]?).getD 0).getLsbD (i % 8) := by
  induction bs generalizing i with
  | nil => simp [leWord]
  | cons b bs ih =>
      simp only [leWord, BitVec.getLsbD_xor, BitVec.getLsbD_setWidth,
        BitVec.getLsbD_shiftLeft, hi, decide_true, Bool.true_and]
      by_cases h8 : i < 8
      · have hdiv : i / 8 = 0 := by omega
        have hmod : i % 8 = i := by omega
        simp [h8, hdiv, hmod]
      · have hdiv : i / 8 = (i - 8) / 8 + 1 := by omega
        have hmod : i % 8 = (i - 8) % 8 := by omega
        have hb : b.getLsbD i = false := BitVec.getLsbD_of_ge b i (by omega)
        rw [hdiv, hmod, List.getElem?_cons_succ, ← ih (i - 8) (by omega)]
        simp [h8, hb]

/-- A string of at most the register's width is its bytes, read off the word. -/
theorem leWord_injective {xs ys : List (BitVec 8)} (hlen : xs.length = ys.length)
    (hfit : 8 * xs.length ≤ w) (heq : leWord w xs = leWord w ys) : xs = ys := by
  apply List.ext_getElem hlen
  intro k hx hy
  apply BitVec.eq_of_getLsbD_eq
  intro j hj
  have hbit : 8 * k + j < w := by omega
  have hdiv : (8 * k + j) / 8 = k := by omega
  have hmod : (8 * k + j) % 8 = j := by omega
  have hword := congrArg (fun v => v.getLsbD (8 * k + j)) heq
  simpa [leWord_getLsbD _ _ hbit, hdiv, hmod, List.getElem?_eq_getElem hx,
    List.getElem?_eq_getElem hy] using hword

/-- Bytes that fit the register can be brought in all at once. -/
theorem update_eq_bitSteps (s : BitVec w) (bs : List (BitVec 8))
    (hfit : 8 * bs.length ≤ w) :
    update poly s bs = bitSteps poly (8 * bs.length) (s ^^^ leWord w bs) := by
  induction bs generalizing s with
  | nil => simp [leWord, bitSteps]
  | cons b bs ih =>
      have hlen : 8 * (b :: bs).length = 8 + 8 * bs.length := by
        simp only [List.length_cons]
        omega
      have hrest : 8 * bs.length ≤ w := by omega
      have hlater : bitSteps poly 8 (leWord w bs <<< 8) = leWord w bs := by
        rw [bitSteps_of_low_clear]
        · apply BitVec.eq_of_getLsbD_eq
          intro i hi
          rw [BitVec.getLsbD_ushiftRight, BitVec.getLsbD_shiftLeft]
          by_cases h8 : 8 + i < w
          · simp [h8]
          · -- The bits shifted out belong to no byte of the list.
            have hnone : bs.length ≤ i / 8 := by omega
            rw [leWord_getLsbD bs i hi, List.getElem?_eq_none hnone]
            simp [h8]
        · intro i hi
          simp [BitVec.getLsbD_shiftLeft, hi]
      rw [update_cons, ih _ hrest, hlen, bitSteps_add, leWord, ← BitVec.xor_assoc,
        bitSteps_xor poly 8 (s ^^^ b.setWidth w), hlater]
      rfl

/-- Error bursts no longer than the register change the result: two messages
that differ only in such a window never have the same check. -/
theorem update_burst (hpoly : poly.msb = true) (s : BitVec w)
    (before xs ys after : List (BitVec 8)) (hlen : xs.length = ys.length)
    (hfit : 8 * xs.length ≤ w)
    (heq : update poly s (before ++ xs ++ after) =
      update poly s (before ++ ys ++ after)) : xs = ys := by
  simp only [update_append] at heq
  have hwindow := update_injective poly hpoly after heq
  rw [update_eq_bitSteps poly _ xs hfit,
    update_eq_bitSteps poly _ ys (by omega), hlen] at hwindow
  have hxor := bitSteps_injective poly hpoly _ hwindow
  exact leWord_injective hlen hfit ((BitVec.xor_right_inj _).mp hxor)

/-- A little-endian load is the word of the bytes it reads. -/
theorem ofNat_load (m : Memory.Mem) (a n : Nat) :
    BitVec.ofNat w (Memory.load m a n) = leWord w (Memory.read m a n) := by
  induction n generalizing a with
  | zero => rfl
  | succ n ih =>
      have hread : Memory.read m a (n + 1) = m a :: Memory.read m (a + 1) n := by
        rw [Nat.add_comm, Memory.read_append]
        rfl
      rw [hread, leWord, ← ih (a + 1)]
      apply BitVec.eq_of_getLsbD_eq
      intro i hi
      have hsplit := Nat.testBit_two_pow_mul_add (Memory.load m (a + 1) n)
        (m a).isLt i
      have hbyte : 256 = 2 ^ 8 := rfl
      rw [Memory.load, Nat.add_comm (m a).toNat, BitVec.getLsbD_ofNat, hbyte, hsplit]
      simp only [BitVec.getLsbD_xor, BitVec.getLsbD_setWidth, BitVec.getLsbD_shiftLeft,
        BitVec.getLsbD_ofNat, hi, decide_true, Bool.true_and]
      by_cases h8 : i < 8
      · simp [h8, BitVec.getLsbD]
      · have hb : (m a).getLsbD i = false := BitVec.getLsbD_of_ge _ _ (by omega)
        have hlt : i - 8 < w := by omega
        simp [h8, hb, hlt]

/-- The lookup table for `n` steps: entry `i` is the byte `i` divided `n` times. -/
def IsTable (n : Nat) (t : List (BitVec w)) : Prop :=
  t = (List.range 256).map (fun i => bitSteps poly n (BitVec.ofNat w i))

/-- Dividing every entry by another byte gives the table for eight more steps. -/
theorem IsTable.next {n : Nat} {t t' : List (BitVec w)} (h : IsTable poly n t)
    (hnext : t' = t.map (bitSteps poly 8)) : IsTable poly (n + 8) t' := by
  rw [IsTable, hnext, h, List.map_map]
  apply List.map_congr_left
  intro i _
  exact (bitSteps_add poly n 8 _).symm

theorem IsTable.lookup {n : Nat} {t : List (BitVec w)} (h : IsTable poly n t)
    (x : BitVec w) (hx : x.toNat < 256) : t.getD x.toNat 0 = bitSteps poly n x := by
  rw [h, List.getD_eq_getElem?_getD, List.getElem?_map, List.getElem?_range hx]
  simp

theorem and_255_toNat_lt (hw : 8 ≤ w) (x : BitVec w) :
    (x &&& BitVec.ofNat w 255).toNat < 256 := by
  have h256 : 2 ^ 8 ≤ 2 ^ w := Nat.pow_le_pow_right (by omega) hw
  rw [BitVec.toNat_and, BitVec.toNat_ofNat, Nat.mod_eq_of_lt (by omega)]
  exact lt_of_le_of_lt Nat.and_le_right (by omega)

theorem testBit_255 (i : Nat) : Nat.testBit 255 i = decide (i < 8) :=
  Nat.testBit_two_pow_sub_one 8 i

/-- Slicing: the low byte takes all the steps by itself, the rest of the
register has eight fewer to go. -/
theorem bitSteps_slice (n : Nat) (x : BitVec w) :
    bitSteps poly (8 + n) x =
      bitSteps poly (8 + n) (x &&& BitVec.ofNat w 255) ^^^ bitSteps poly n (x >>> 8) := by
  have hsplit : x = (x &&& BitVec.ofNat w 255) ^^^ (x &&& ~~~(BitVec.ofNat w 255)) := by
    ext i
    simp only [BitVec.getElem_xor, BitVec.getElem_and, BitVec.getElem_not]
    cases x[i] <;> cases (BitVec.ofNat w 255)[i] <;> rfl
  have hhigh : bitSteps poly 8 (x &&& ~~~(BitVec.ofNat w 255)) = x >>> 8 := by
    rw [bitSteps_of_low_clear]
    · apply BitVec.eq_of_getLsbD_eq
      intro i _
      simp only [BitVec.getLsbD_ushiftRight, BitVec.getLsbD_and, BitVec.getLsbD_not,
        BitVec.getLsbD_ofNat, testBit_255]
      by_cases hi : 8 + i < w
      · simp [hi]
      · simp [BitVec.getLsbD_of_ge x (8 + i) (by omega)]
    · intro i hi
      simp only [BitVec.getLsbD_and, BitVec.getLsbD_not, BitVec.getLsbD_ofNat, testBit_255]
      simp [hi]
  conv_lhs => rw [hsplit, bitSteps_xor, bitSteps_add poly 8 n (x &&& ~~~_), hhigh]

end OpenAAA.Crc
