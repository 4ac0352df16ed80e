import OpenAAA.Lib.Memory

/-!
`arch/x86/elf/hash.c`: the hash of a symbol name, in `unsigned long` arithmetic on the
characters of the machine, which are signed. The System V gABI defines it on unsigned
bytes in 32 bits. What the wider arithmetic adds is a carry or a borrow out of bit 31,
and it is shifted out again after eight more characters.
-/

namespace OpenAAA.Elf

open Memory

/-- One turn of the loop. -/
def symHashStep (h : BitVec 64) (c : Byte) : BitVec 64 :=
  let h := (h <<< 4) + c.signExtend 64
  let g := h &&& 0xF0000000
  let h := if g ≠ 0 then h ^^^ (g >>> 24) else h
  h &&& ~~~g

/-- The loop, over the characters before the one that ends the name. -/
def symHash (name : List Byte) : BitVec 64 := name.foldl symHashStep 0

/-- `elf32_get_sym_hash` -/
def elf32GetSymHash (name : List Byte) : BitVec 32 := (symHash name).setWidth 32

/-- `elf64_get_sym_hash` -/
def elf64GetSymHash (name : List Byte) : BitVec 64 := symHash name

/-! ## The definition of the gABI -/

/-- One character in 32-bit arithmetic. -/
def gabiStep (h c : BitVec 32) : BitVec 32 :=
  let h := (h <<< 4) + c
  let g := h &&& 0xF0000000
  let h := if g ≠ 0 then h ^^^ (g >>> 24) else h
  h &&& ~~~g

/-- The hash of a name whose characters are read by `value`. -/
def gabiHash (value : Byte → BitVec 32) (name : List Byte) : BitVec 32 :=
  name.foldl (fun h c => gabiStep h (value c)) 0

def unsignedChar (c : Byte) : BitVec 32 := c.setWidth 32

def signedChar (c : Byte) : BitVec 32 := c.signExtend 32

/-- Both functions return the hash of the gABI, and it has 28 bits. -/
def MeetsGabi (name : List Byte) : Prop :=
  elf32GetSymHash name = gabiHash unsignedChar name ∧
  elf64GetSymHash name = (gabiHash unsignedChar name).setWidth 64 ∧
  (gabiHash unsignedChar name).toNat < 2 ^ 28

instance (name : List Byte) : Decidable (MeetsGabi name) := inferInstanceAs (Decidable (_ ∧ _ ∧ _))

/-! ## One step -/

section Step

variable {h h' : BitVec 32}

/-- Without the test: a top nibble of zero changes nothing. -/
theorem fold_eq (w : Nat) (h g : BitVec w) :
    (if g ≠ 0 then h ^^^ (g >>> 24) else h) = h ^^^ (g >>> 24) := by
  split
  · rfl
  · next hg =>
      rw [not_not] at hg
      simp [hg]

/-- The top nibble goes into the second lowest one. -/
theorem toNat_gabiStep (h c : BitVec 32) : (gabiStep h c).toNat =
    ((h <<< 4) + c).toNat % 2 ^ 28 ^^^ ((h <<< 4) + c).toNat / 2 ^ 28 * 16 := by
  have hbits : ∀ t : BitVec 32, (t ^^^ ((t &&& 0xF0000000) >>> 24)) &&& ~~~(t &&& 0xF0000000) =
      (t &&& 0x0FFFFFFF#32) ^^^ ((t >>> 28) <<< 4) := by
    intro t
    ext i hi
    interval_cases i
    all_goals simp
  unfold gabiStep
  dsimp only
  rw [fold_eq, hbits]
  generalize (h <<< 4) + c = t
  have hlt := t.isLt
  have hmask : (0x0FFFFFFF#32).toNat = 2 ^ 28 - 1 := rfl
  have hnibble : t.toNat / 2 ^ 28 * 2 ^ 4 % 2 ^ 32 = t.toNat / 2 ^ 28 * 16 := by omega
  rw [BitVec.toNat_xor, BitVec.toNat_and, hmask, Nat.and_two_pow_sub_one_eq_mod, BitVec.toNat_shiftLeft,
    BitVec.toNat_ushiftRight, Nat.shiftRight_eq_div_pow, Nat.shiftLeft_eq, hnibble]

/-- The lower half of the wide word takes part in 32-bit arithmetic. -/
theorem setWidth_symHashStep (h : BitVec 64) (c : Byte) :
    (symHashStep h c).setWidth 32 = gabiStep (h.setWidth 32) (signedChar c) := by
  have hbits : ∀ t : BitVec 64,
      ((t ^^^ ((t &&& 0xF0000000) >>> 24)) &&& ~~~(t &&& 0xF0000000)).setWidth 32 =
        (t.setWidth 32 ^^^ ((t.setWidth 32 &&& 0xF0000000) >>> 24)) &&&
          ~~~(t.setWidth 32 &&& 0xF0000000) := by
    intro t
    ext i hi
    interval_cases i
    all_goals simp
  have hsum : ((h <<< 4) + c.signExtend 64).setWidth 32 = (h.setWidth 32 <<< 4) + signedChar c := by
    rw [BitVec.setWidth_add _ _ (by decide)]
    congr 1
    · ext i hi
      simp [BitVec.getElem_shiftLeft]
    · rw [signedChar]
      ext i hi
      have hwide : i < 64 := by omega
      simp [BitVec.getElem_signExtend, hwide]
  unfold symHashStep gabiStep
  dsimp only
  rw [fold_eq, fold_eq, hbits, hsum]

/-- What a step carries out of bit 31. -/
def carry (h : BitVec 32) (c : Byte) : Int := (16 * h.toNat + c.toInt) / 2 ^ 32

theorem toInt_bounds (c : Byte) : -128 ≤ c.toInt ∧ c.toInt < 128 := by
  have hlow := BitVec.le_toInt c
  have hhigh := BitVec.toInt_lt (x := c)
  constructor
  · simpa using hlow
  · simpa using hhigh

theorem toNat_signExtend (c : Byte) : ((c.signExtend 64).toNat : Int) = c.toInt % 2 ^ 64 := by
  have hbounds := toInt_bounds c
  have hext := BitVec.toInt_signExtend_of_le (x := c) (v := 64) (by decide)
  have htoInt := BitVec.toInt_eq_toNat_cond (c.signExtend 64)
  have hlt := (c.signExtend 64).isLt
  rw [hext] at htoInt
  split at htoInt
  · omega
  · omega

/-- The upper half of the wide word is shifted, and the carry is added to it. -/
theorem high_symHashStep (h : BitVec 64) (c : Byte) :
    ((symHashStep h c).toNat / 2 ^ 32 : Int) =
      (16 * (h.toNat / 2 ^ 32 : Int) + carry (h.setWidth 32) c) % 2 ^ 32 := by
  have hbits : ∀ t : BitVec 64,
      ((t ^^^ ((t &&& 0xF0000000) >>> 24)) &&& ~~~(t &&& 0xF0000000)) >>> 32 = t >>> 32 := by
    intro t
    ext i hi
    interval_cases i
    all_goals simp
  have hhigh : (symHashStep h c).toNat / 2 ^ 32 =
      ((h <<< 4) + c.signExtend 64).toNat / 2 ^ 32 := by
    have hshift := congrArg BitVec.toNat (hbits ((h <<< 4) + c.signExtend 64))
    rw [BitVec.toNat_ushiftRight, BitVec.toNat_ushiftRight, Nat.shiftRight_eq_div_pow,
      Nat.shiftRight_eq_div_pow] at hshift
    unfold symHashStep
    dsimp only
    rw [fold_eq]
    exact hshift
  have hsum : ((h <<< 4) + c.signExtend 64).toNat =
      (h.toNat * 2 ^ 4 % 2 ^ 64 + (c.signExtend 64).toNat) % 2 ^ 64 := by
    rw [BitVec.toNat_add, BitVec.toNat_shiftLeft, Nat.shiftLeft_eq]
  have hext := toNat_signExtend c
  have hbounds := toInt_bounds c
  have hlt := h.isLt
  unfold carry
  rw [BitVec.toNat_setWidth]
  omega

theorem carry_bounds (c : Byte) (hh : h.toNat < 2 ^ 28) : -1 ≤ carry h c ∧ carry h c ≤ 1 := by
  have hbounds := toInt_bounds c
  unfold carry
  omega

theorem gabiStep_lt (h c : BitVec 32) : (gabiStep h c).toNat < 2 ^ 28 := by
  rw [toNat_gabiStep]
  have hlt := ((h <<< 4) + c).isLt
  apply Nat.xor_lt_two_pow
  · exact Nat.mod_lt _ (by decide)
  · omega

theorem toNat_shift_add (h c : BitVec 32) :
    ((h <<< 4) + c).toNat = (16 * h.toNat + c.toNat) % 2 ^ 32 := by
  rw [BitVec.toNat_add, BitVec.toNat_shiftLeft, Nat.shiftLeft_eq]
  omega

theorem gabiStep_mod (h c : BitVec 32) :
    (gabiStep h c).toNat % 16 = c.toNat % 16 := by
  rw [toNat_gabiStep, toNat_shift_add]
  have hxor := Nat.xor_mod_two_pow (a := (16 * h.toNat + c.toNat) % 2 ^ 32 % 2 ^ 28)
    (b := (16 * h.toNat + c.toNat) % 2 ^ 32 / 2 ^ 28 * 16) (n := 4)
  have hnibble : (16 * h.toNat + c.toNat) % 2 ^ 32 / 2 ^ 28 * 16 % 2 ^ 4 = 0 := by omega
  rw [hnibble, Nat.xor_zero] at hxor
  omega

/-- Where the lowest nibbles agree, no two hashes have the same successor: the nibble that is
folded in can be told from the sum below it. -/
theorem gabiStep_injective (hh : h.toNat < 2 ^ 28) (hh' : h'.toNat < 2 ^ 28)
    (hlow : h.toNat % 16 = h'.toNat % 16) {c : BitVec 32}
    (heq : gabiStep h c = gabiStep h' c) : h = h' := by
  have hvalue := congrArg BitVec.toNat heq
  rw [toNat_gabiStep, toNat_gabiStep, toNat_shift_add, toNat_shift_add] at hvalue
  generalize ht : (16 * h.toNat + c.toNat) % 2 ^ 32 = t at hvalue
  generalize ht' : (16 * h'.toNat + c.toNat) % 2 ^ 32 = t' at hvalue
  have hnibble : t / 2 ^ 28 * 16 / 2 ^ 8 = 0 := by omega
  have hnibble' : t' / 2 ^ 28 * 16 / 2 ^ 8 = 0 := by omega
  have habove := congrArg (· / 2 ^ 8) hvalue
  rw [Nat.xor_div_two_pow, Nat.xor_div_two_pow, hnibble, hnibble', Nat.xor_zero,
    Nat.xor_zero] at habove
  have hbelow : t % 2 ^ 28 = t' % 2 ^ 28 := by omega
  rw [hbelow] at hvalue
  have htop := congrArg (t' % 2 ^ 28 ^^^ ·) hvalue
  rw [← Nat.xor_assoc, ← Nat.xor_assoc, Nat.xor_self, Nat.zero_xor, Nat.zero_xor] at htop
  apply BitVec.eq_of_toNat_eq
  omega

theorem signedChar_of_lt {c : Byte} (hc : c.toNat < 128) : signedChar c = unsignedChar c := by
  have hmsb : c.msb = false := by
    rw [BitVec.msb_eq_decide]
    simp only [decide_eq_false_iff_not]
    omega
  rw [signedChar, BitVec.signExtend_eq_setWidth_of_msb_false hmsb, unsignedChar]

theorem toNat_signedChar {c : Byte} (hc : 128 ≤ c.toNat) :
    (signedChar c).toNat = 2 ^ 32 - 256 + c.toNat := by
  have hlt := c.isLt
  have hmsb : c.msb = true := by
    rw [BitVec.msb_eq_decide]
    simp only [decide_eq_true_eq]
    omega
  rw [signedChar, BitVec.toNat_signExtend, hmsb]
  simp
  omega

theorem toNat_unsignedChar (c : Byte) : (unsignedChar c).toNat = c.toNat := by
  have hlt := c.isLt
  rw [unsignedChar, BitVec.toNat_setWidth]
  omega

/-- A byte above 127 that is read as signed takes 16 from the hash before it. -/
theorem gabiStep_signed (h : BitVec 32) {c : Byte} (hc : 128 ≤ c.toNat) :
    gabiStep h (signedChar c) =
      gabiStep (BitVec.ofNat 32 ((h.toNat + (2 ^ 28 - 16)) % 2 ^ 28)) (unsignedChar c) := by
  have hlt := c.isLt
  have hless : (BitVec.ofNat 32 ((h.toNat + (2 ^ 28 - 16)) % 2 ^ 28)).toNat =
      (h.toNat + (2 ^ 28 - 16)) % 2 ^ 28 := by
    rw [BitVec.toNat_ofNat]
    omega
  have hsum : (h <<< 4) + signedChar c =
      (BitVec.ofNat 32 ((h.toNat + (2 ^ 28 - 16)) % 2 ^ 28) <<< 4) + unsignedChar c := by
    apply BitVec.eq_of_toNat_eq
    rw [toNat_shift_add, toNat_shift_add, hless, toNat_signedChar hc,
      toNat_unsignedChar]
    omega
  unfold gabiStep
  rw [hsum]

end Step

/-! ## Names -/

section Names

variable {name : List Byte}

theorem gabiHash_append (value : Byte → BitVec 32) (name : List Byte) (c : Byte) :
    gabiHash value (name ++ [c]) = gabiStep (gabiHash value name) (value c) := by
  simp [gabiHash]

theorem symHash_append (name : List Byte) (c : Byte) :
    symHash (name ++ [c]) = symHashStep (symHash name) c := by
  simp [symHash]

theorem gabiHash_lt (value : Byte → BitVec 32) (name : List Byte) :
    (gabiHash value name).toNat < 2 ^ 28 := by
  induction name using List.reverseRecOn with
  | nil => simp [gabiHash]
  | append_singleton name c _ =>
      rw [gabiHash_append]
      exact gabiStep_lt _ _

/-- `elf32_get_sym_hash` is the hash of the signed characters. -/
theorem setWidth_symHash (name : List Byte) : (symHash name).setWidth 32 = gabiHash signedChar name := by
  induction name using List.reverseRecOn with
  | nil => rfl
  | append_singleton name c ih => rw [symHash_append, setWidth_symHashStep, ih, gabiHash_append]

/-- Both readings of a name end in the same nibble. -/
theorem gabiHash_mod (name : List Byte) :
    (gabiHash signedChar name).toNat % 16 = (gabiHash unsignedChar name).toNat % 16 := by
  induction name using List.reverseRecOn with
  | nil => rfl
  | append_singleton name c _ =>
      rw [gabiHash_append, gabiHash_append, gabiStep_mod, gabiStep_mod, toNat_unsignedChar]
      by_cases hc : c.toNat < 128
      · rw [signedChar_of_lt hc, toNat_unsignedChar]
      · rw [toNat_signedChar (by omega)]
        omega

/-- At the character `c` behind `before` the sum stays in 32 bits. -/
def InRange (before : List Byte) (c : Byte) : Prop :=
  0 ≤ 16 * ((gabiHash signedChar before).toNat : Int) + c.toInt ∧
    16 * ((gabiHash signedChar before).toNat : Int) + c.toInt < 2 ^ 32

instance (before : List Byte) (c : Byte) : Decidable (InRange before c) :=
  inferInstanceAs (Decidable (_ ∧ _))

theorem carry_eq_zero_iff (before : List Byte) (c : Byte) :
    carry (gabiHash signedChar before) c = 0 ↔ InRange before c := by
  unfold carry InRange
  omega

/-- The splits of a name with one more character. -/
theorem forall_split_append {p : List Byte → Byte → List Byte → Prop} {c : Byte} :
    (∀ before d after, name ++ [c] = before ++ d :: after → p before d after) ↔
      p name c [] ∧ ∀ before d after, name = before ++ d :: after → p before d (after ++ [c]) := by
  constructor
  · intro h
    refine ⟨h name c [] rfl, fun before d after hname => ?_⟩
    apply h before d (after ++ [c])
    rw [hname, List.append_assoc, List.cons_append]
  · rintro ⟨hlast, hothers⟩ before d after hsplit
    rcases List.eq_nil_or_concat after with rfl | ⟨after, e, rfl⟩
    · obtain ⟨rfl, hd⟩ := List.append_inj' hsplit rfl
      cases hd
      exact hlast
    · rw [List.concat_eq_append, ← List.cons_append, ← List.append_assoc] at hsplit
      obtain ⟨hname, he⟩ := List.append_inj' hsplit rfl
      cases he
      rw [List.concat_eq_append]
      exact hothers before d after hname

/-- A digit below the others shows in no power of the base. -/
theorem pow_dvd_shift_add {j : Nat} {x e : Int} (he : -1 ≤ e ∧ e ≤ 1) :
    (16 ^ (j + 1) : Int) ∣ 16 * x + e ↔ e = 0 ∧ (16 ^ j : Int) ∣ x := by
  constructor
  · intro h
    have hdigit : (16 : Int) ∣ 16 * x + e := (dvd_pow_self 16 (Nat.succ_ne_zero j)).trans h
    have hzero : e = 0 := by omega
    rw [hzero, add_zero, pow_succ'] at h
    exact ⟨hzero, Int.dvd_of_mul_dvd_mul_left (by decide) h⟩
  · rintro ⟨rfl, h⟩
    rw [add_zero, pow_succ']
    exact mul_dvd_mul_left 16 h

/-- A carry shows in the upper half until it is shifted out: nothing is left of the last `j` of
them exactly when there were none. -/
theorem high_symHash (name : List Byte) {j : Nat} (hj : j ≤ 8) :
    (16 ^ j : Int) ∣ ((symHash name).toNat / 2 ^ 32 : Int) ↔
      ∀ before c after, name = before ++ c :: after → after.length < j → InRange before c := by
  induction name using List.reverseRecOn generalizing j with
  | nil => simp [symHash]
  | append_singleton name c ih =>
      rw [forall_split_append (p := fun before c after => after.length < j → InRange before c)]
      cases j with
      | zero => simp
      | succ j =>
          have hwhole : (16 ^ (j + 1) : Int) ∣ 2 ^ 32 := by
            have hpow : (2 ^ 32 : Int) = 16 ^ 8 := by norm_num
            rw [hpow]
            exact pow_dvd_pow 16 hj
          have hbounds := carry_bounds c (gabiHash_lt signedChar name)
          rw [symHash_append, high_symHashStep, setWidth_symHash, EuclideanDomain.dvd_mod_iff hwhole,
            pow_dvd_shift_add hbounds, carry_eq_zero_iff, ih (Nat.le_of_succ_le hj)]
          simp

/-- Reading the characters as signed leaves the hash as it is exactly when there is no byte above
127, or the hashes before the last one are 16 apart. -/
theorem gabiHash_signed_iff (name : List Byte) :
    gabiHash signedChar name = gabiHash unsignedChar name ↔
      ∀ before c after, name = before ++ c :: after → 128 ≤ c.toNat →
        (∀ d ∈ after, d.toNat < 128) →
        (gabiHash signedChar before).toNat = ((gabiHash unsignedChar before).toNat + 16) % 2 ^ 28 := by
  induction name using List.reverseRecOn with
  | nil => simp [gabiHash]
  | append_singleton name c ih =>
      rw [forall_split_append (p := fun before c after => 128 ≤ c.toNat →
        (∀ d ∈ after, d.toNat < 128) →
        (gabiHash signedChar before).toNat = ((gabiHash unsignedChar before).toNat + 16) % 2 ^ 28),
        gabiHash_append, gabiHash_append]
      have hsigned := gabiHash_lt signedChar name
      have hunsigned := gabiHash_lt unsignedChar name
      have hmod := gabiHash_mod name
      by_cases hc : c.toNat < 128
      · have hstep : gabiStep (gabiHash signedChar name) (signedChar c) =
            gabiStep (gabiHash unsignedChar name) (unsignedChar c) ↔
            gabiHash signedChar name = gabiHash unsignedChar name := by
          rw [signedChar_of_lt hc]
          exact ⟨gabiStep_injective hsigned hunsigned hmod, fun heq => by rw [heq]⟩
        have hlast : ¬ 128 ≤ c.toNat := by omega
        rw [hstep, ih]
        simp only [hlast, false_implies, true_and, List.mem_append, List.mem_singleton]
        refine forall_congr' fun before => forall_congr' fun d => forall_congr' fun after =>
          imp_congr_right fun _ => imp_congr_right fun _ => ?_
        constructor
        · exact fun h hafter => h fun e he => hafter e (Or.inl he)
        · intro h hafter
          refine h fun e he => ?_
          rcases he with he | rfl
          · exact hafter e he
          · exact hc
      · have hlast : 128 ≤ c.toNat := by omega
        have hless : (BitVec.ofNat 32 (((gabiHash signedChar name).toNat + (2 ^ 28 - 16)) %
            2 ^ 28)).toNat = ((gabiHash signedChar name).toNat + (2 ^ 28 - 16)) % 2 ^ 28 := by
          rw [BitVec.toNat_ofNat]
          omega
        rw [gabiStep_signed _ hlast]
        constructor
        · intro heq
          have hsame := gabiStep_injective (by rw [hless]; omega) hunsigned (by rw [hless]; omega)
            heq
          have hvalue := congrArg BitVec.toNat hsame
          rw [hless] at hvalue
          refine ⟨fun _ _ => by omega, fun before d after _ _ hafter => ?_⟩
          exact absurd (hafter c (by simp)) hc
        · rintro ⟨hhere, _⟩
          have hvalue := hhere hlast (by simp)
          have hsame : BitVec.ofNat 32 (((gabiHash signedChar name).toNat + (2 ^ 28 - 16)) %
              2 ^ 28) = gabiHash unsignedChar name := by
            apply BitVec.eq_of_toNat_eq
            rw [hless]
            omega
          rw [hsame]

/-- What the arithmetic of the code does not show on a name. Without bytes above 127 the first
part says nothing, and in the second the hash is that of the gABI. -/
structure Undisturbed (name : List Byte) : Prop where
  signs : ∀ before c after, name = before ++ c :: after → 128 ≤ c.toNat →
    (∀ d ∈ after, d.toNat < 128) →
    (gabiHash signedChar before).toNat = ((gabiHash unsignedChar before).toNat + 16) % 2 ^ 28
  carries : ∀ before c after, name = before ++ c :: after → after.length < 8 → InRange before c

/-- For every name, both functions return the hash of the gABI if and only if the name is
undisturbed. -/
theorem sym_hashes_meet_gabi_iff (name : List Byte) : MeetsGabi name ↔ Undisturbed name := by
  have hlow := setWidth_symHash name
  have hlt := gabiHash_lt unsignedChar name
  have hsplit : symHash name = (gabiHash unsignedChar name).setWidth 64 ↔
      gabiHash signedChar name = gabiHash unsignedChar name ∧
        (16 ^ 8 : Int) ∣ ((symHash name).toNat / 2 ^ 32 : Int) := by
    have hword := (symHash name).isLt
    rw [← hlow, ← BitVec.toNat_inj, ← BitVec.toNat_inj, BitVec.toNat_setWidth, BitVec.toNat_setWidth]
    omega
  constructor
  · rintro ⟨_, hwide, _⟩
    obtain ⟨hsigned, hhigh⟩ := hsplit.mp hwide
    exact ⟨(gabiHash_signed_iff name).mp hsigned, (high_symHash name le_rfl).mp hhigh⟩
  · intro h
    have hsigned := (gabiHash_signed_iff name).mpr h.signs
    have hhigh := (high_symHash name le_rfl).mpr h.carries
    exact ⟨hlow.trans hsigned, hsplit.mpr ⟨hsigned, hhigh⟩, hlt⟩

/-- A byte above 127, and a name of letters after the seventh of which a carry leaves 32 bits. -/
theorem sym_hashes_miss_gabi : ¬ MeetsGabi [0x80] ∧
    ¬ MeetsGabi [0x68, 0x79, 0x69, 0x69, 0x68, 0x72, 0x79, 0x7a] := by
  decide

end Names

end OpenAAA.Elf
