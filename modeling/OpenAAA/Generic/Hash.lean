import Mathlib.Data.List.GetD
import Mathlib.Data.List.TakeWhile
import OpenAAA.Lib.Crc

/-!
`generic/hash/fn.h`: `hash_string` on the little-endian build. A string at an address
that is a multiple of four is read by words, another one by bytes. The table of masks
for the last word is a static array that nothing assigns, so the characters of a last
word that is not whole are left out of the hash.
-/

namespace OpenAAA.Hash

open Memory

/-- `unsigned int` -/
abbrev Word := BitVec 32

/-- `HASH_SHIFT_BITS` -/
def hashShiftBits : Nat := 7

/-- `_rol` -/
def rol (x : Word) (bits : Nat) : Word := (x <<< bits) ||| (x >>> (32 - bits))

/-- `*u` -/
def wordAt (m : Mem) (u : Nat) : Word := BitVec.ofNat 32 (load m u 4)

/-- `((byte *) &x)[i]` -/
def byteOf (x : Word) (i : Nat) : Byte := x.extractLsb' (8 * i) 8

/-- `hash_string_len_uint` -/
def hashStringLenUint (x : Word) : Nat :=
  let sub : Word := ~~~0#32 / 0xff
  let an : Word := sub * 0x80
  let a := ~~~x &&& (x - sub) &&& an
  if a = 0 then 4
  else ((List.range 4).takeWhile fun i => byteOf x i ≠ 0).length

/-- `static unsigned int mhb[sizeof(unsigned int)]` -/
def mhb (_ : Nat) : Word := 0

/-- The loop of `hash_string_aligned`, of which `fuel` bounds the turns. -/
def hashStringAlignedFrom (m : Mem) : Nat → Nat → Word → Option Word
  | 0, _, _ => none
  | fuel + 1, u, hash =>
      let lastLen := hashStringLenUint (wordAt m u)
      let hash := rol hash hashShiftBits
      if lastLen < 4 then
        let tmp := wordAt m u &&& mhb lastLen
        some (hash ^^^ tmp)
      else hashStringAlignedFrom m fuel (u + 4) (hash ^^^ wordAt m u)

def hashStringAligned (m : Mem) (fuel str : Nat) : Option Word := hashStringAlignedFrom m fuel str 0

/-- The loop of `hash_string`. Its counter is an `unsigned int`. -/
def hashStringFrom (m : Mem) (s : Nat) : Nat → Nat → Word → Option Word
  | 0, _, _ => none
  | fuel + 1, i, hash =>
      let modulo := i % 4
      let hash := if modulo = 0 then rol hash hashShiftBits else hash
      if m (s + i) = 0 then some hash
      else
        hashStringFrom m s fuel ((i + 1) % 2 ^ 32) (hash ^^^ ((m (s + i)).setWidth 32 <<< (modulo * 8)))

/-- `hash_string`; without a result, the loop is not done after `fuel` turns. -/
def hashString (m : Mem) (fuel str : Nat) : Option Word :=
  if str % 4 = 0 then hashStringAligned m fuel str else hashStringFrom m str fuel 0 0

/-- The characters of a string in memory, up to the byte that ends it. -/
structure StringAt (m : Mem) (p : Nat) (chars : List Byte) : Prop where
  no_nul : 0 ∉ chars
  holds : ∀ i < chars.length, m (p + i) = chars.getD i 0
  ended : m (p + chars.length) = 0

/-- The string hashes to one value, wherever it is stored and whatever is behind it. -/
def HashesAlike (chars : List Byte) : Prop :=
  ∃ v, ∀ m p, StringAt m p chars → ∃ turns, ∀ fuel, turns ≤ fuel → hashString m fuel p = some v

/-! ## Words -/

theorem byteOf_eq_zero_iff (x : Word) (i : Nat) : byteOf x i = 0 ↔ x.toNat / 2 ^ (8 * i) % 256 = 0 := by
  rw [← BitVec.toNat_inj, byteOf, BitVec.extractLsb'_toNat, Nat.shiftRight_eq_div_pow]
  rfl

/-- The carry trick misses no zero byte: the first one has the highest bit set after the
subtraction, since the bytes below it lend nothing. -/
theorem carry_of_zero_byte {x : Word} {i : Nat} (hi : i < 4) (hzero : byteOf x i = 0)
    (hbelow : ∀ j < i, byteOf x j ≠ 0) : ~~~x &&& (x - 0x01010101) &&& 0x80808080 ≠ 0 := by
  have hlt := x.isLt
  rw [byteOf_eq_zero_iff] at hzero
  have hbytes : ∀ j < i, x.toNat / 2 ^ (8 * j) % 256 ≠ 0 := by
    intro j hj
    rw [Ne, ← byteOf_eq_zero_iff]
    exact hbelow j hj
  have hx : x.getLsbD (8 * i + 7) = false := by
    rw [BitVec.getLsbD, Nat.testBit_eq_decide_div_mod_eq, decide_eq_false_iff_not]
    interval_cases i
    all_goals omega
  have hsub : (x - 0x01010101).getLsbD (8 * i + 7) = true := by
    rw [BitVec.getLsbD, Nat.testBit_eq_decide_div_mod_eq, decide_eq_true_eq, BitVec.toNat_sub]
    interval_cases i
    · simp; omega
    · have h0 := hbytes 0 (by decide)
      simp at h0 ⊢; omega
    · have h0 := hbytes 0 (by decide)
      have h1 := hbytes 1 (by decide)
      simp at h0 h1 ⊢; omega
    · have h0 := hbytes 0 (by decide)
      have h1 := hbytes 1 (by decide)
      have h2 := hbytes 2 (by decide)
      simp at h0 h1 h2 ⊢; omega
  have hmask : (0x80808080 : Word).getLsbD (8 * i + 7) = true := by
    interval_cases i
    all_goals rfl
  have hin : 8 * i + 7 < 32 := by omega
  intro hcarry
  have hbit : (~~~x &&& (x - 0x01010101) &&& 0x80808080).getLsbD (8 * i + 7) = true := by
    rw [BitVec.getLsbD_and, BitVec.getLsbD_and, BitVec.getLsbD_not, hx, hsub, hmask]
    simp [hin]
  rw [hcarry] at hbit
  simp at hbit

/-- The length of the string in a word: the bytes before the first zero byte. -/
theorem hashStringLenUint_eq (x : Word) :
    hashStringLenUint x = ((List.range 4).takeWhile fun i => byteOf x i ≠ 0).length := by
  have hsub : ~~~0#32 / 0xff = (0x01010101 : Word) := by decide
  have han : (0x01010101 : Word) * 0x80 = 0x80808080 := by decide
  unfold hashStringLenUint
  dsimp only
  rw [hsub, han]
  split
  · next hcarry =>
      have hnonzero : ∀ i < 4, byteOf x i ≠ 0 := by
        intro i hi
        induction i using Nat.strong_induction_on with
        | _ i ih =>
            intro hzero
            exact carry_of_zero_byte hi hzero (fun j hj => ih j hj (by omega)) hcarry
      rw [List.takeWhile_eq_self_iff.mpr, List.length_range]
      intro i hi
      simpa using hnonzero i (List.mem_range.mp hi)
  · rfl

/-- The bytes of a word in memory. -/
theorem byteOf_wordAt (m : Mem) (u : Nat) {i : Nat} (hi : i < 4) : byteOf (wordAt m u) i = m (u + i) := by
  apply BitVec.eq_of_getLsbD_eq
  intro j hj
  have hdiv : (8 * i + j) / 8 = i := by omega
  have hmod : (8 * i + j) % 8 = j := by omega
  rw [byteOf, wordAt, Crc.ofNat_load, BitVec.getLsbD_extractLsb', Crc.leWord_getLsbD _ _ (by omega),
    hdiv, hmod, read_getElem? hi]
  simp [hj]

/-- A word of the string without its end. -/
theorem lenUint_of_whole {m : Mem} {u : Nat} (h : ∀ i < 4, m (u + i) ≠ 0) :
    hashStringLenUint (wordAt m u) = 4 := by
  rw [hashStringLenUint_eq, List.takeWhile_eq_self_iff.mpr, List.length_range]
  intro i hi
  rw [byteOf_wordAt m u (List.mem_range.mp hi)]
  simpa using h i (List.mem_range.mp hi)

/-- A word with the end of the string in it. -/
theorem lenUint_of_ended {m : Mem} {u n : Nat} (hn : n < 4) (h : m (u + n) = 0) :
    hashStringLenUint (wordAt m u) < 4 := by
  rw [hashStringLenUint_eq]
  have hprefix := List.takeWhile_prefix (l := List.range 4) fun i => byteOf (wordAt m u) i ≠ 0
  have hle := hprefix.length_le
  rw [List.length_range] at hle
  refine lt_of_le_of_ne hle fun hlength => ?_
  have hwhole := hprefix.eq_of_length (by rw [hlength, List.length_range])
  have hbyte := List.takeWhile_eq_self_iff.mp hwhole n (List.mem_range.mpr hn)
  rw [byteOf_wordAt m u hn, h] at hbyte
  simp at hbyte

/-! ## The two paths -/

/-- What `hash_string_aligned` computes: the last word counts for its rotation only. -/
def wordHash : Word → List Byte → Word
  | hash, b₀ :: b₁ :: b₂ :: b₃ :: rest =>
      wordHash (rol hash hashShiftBits ^^^ Crc.leWord 32 [b₀, b₁, b₂, b₃]) rest
  | hash, _ => rol hash hashShiftBits

/-- The characters of the last word. -/
def lastWord : List Byte → List Byte
  | _ :: _ :: _ :: _ :: rest => lastWord rest
  | rest => rest

/-- What the loop of `hash_string` computes. -/
def byteHash : Nat → Word → List Byte → Word
  | i, hash, [] => if i % 4 = 0 then rol hash hashShiftBits else hash
  | i, hash, b :: rest =>
      let hash := if i % 4 = 0 then rol hash hashShiftBits else hash
      byteHash (i + 1) (hash ^^^ (b.setWidth 32 <<< (i % 4 * 8))) rest

theorem leWord_four (b₀ b₁ b₂ b₃ : Byte) :
    Crc.leWord 32 [b₀, b₁, b₂, b₃] = b₀.setWidth 32 <<< 0 ^^^ b₁.setWidth 32 <<< 8 ^^^
      b₂.setWidth 32 <<< 16 ^^^ b₃.setWidth 32 <<< 24 := by
  simp [Crc.leWord, BitVec.shiftLeft_xor_distrib, ← BitVec.shiftLeft_add, BitVec.xor_assoc]

/-- The two paths differ by the characters of the last word. -/
theorem byteHash_eq (chars : List Byte) (i : Nat) (hash : Word) (hi : i % 4 = 0) :
    byteHash i hash chars = wordHash hash chars ^^^ Crc.leWord 32 (lastWord chars) := by
  induction chars using lastWord.induct generalizing i hash with
  | case1 b₀ b₁ b₂ b₃ rest ih =>
      have h1 : (i + 1) % 4 = 1 := by omega
      have h2 : (i + 1 + 1) % 4 = 2 := by omega
      have h3 : (i + 1 + 1 + 1) % 4 = 3 := by omega
      have h4 : (i + 1 + 1 + 1 + 1) % 4 = 0 := by omega
      rw [wordHash, lastWord, ← ih (i + 1 + 1 + 1 + 1) _ h4, leWord_four]
      simp [byteHash, hi, h1, h2, h3, BitVec.xor_assoc]
  | case2 rest hrest =>
      have h1 : (i + 1) % 4 = 1 := by omega
      have h2 : (i + 1 + 1) % 4 = 2 := by omega
      have h3 : (i + 1 + 1 + 1) % 4 = 3 := by omega
      rcases rest with _ | ⟨b₀, _ | ⟨b₁, _ | ⟨b₂, _ | ⟨b₃, rest⟩⟩⟩⟩
      · simp [byteHash, wordHash, lastWord, Crc.leWord, hi]
      · simp [byteHash, wordHash, lastWord, Crc.leWord, hi, h1]
      · simp [byteHash, wordHash, lastWord, Crc.leWord, hi, h1, h2]
        rw [BitVec.xor_assoc]
      · simp [byteHash, wordHash, lastWord, Crc.leWord, hi, h1, h2, h3,
          BitVec.shiftLeft_xor_distrib, ← BitVec.shiftLeft_add, BitVec.xor_assoc]
      · exact absurd rfl (hrest b₀ b₁ b₂ b₃ rest)

/-- The last word has no characters exactly if the string is whole words. -/
theorem lastWord_eq_nil_iff (chars : List Byte) : lastWord chars = [] ↔ 4 ∣ chars.length := by
  induction chars using lastWord.induct with
  | case1 b₀ b₁ b₂ b₃ rest ih =>
      rw [lastWord, ih]
      simp only [List.length_cons]
      omega
  | case2 rest hrest =>
      rcases rest with _ | ⟨b₀, _ | ⟨b₁, _ | ⟨b₂, _ | ⟨b₃, rest⟩⟩⟩⟩
      · simp [lastWord]
      · simp [lastWord]
      · simp [lastWord]
      · simp [lastWord]
      · exact absurd rfl (hrest b₀ b₁ b₂ b₃ rest)

theorem lastWord_suffix (chars : List Byte) : ∃ front, chars = front ++ lastWord chars := by
  induction chars using lastWord.induct with
  | case1 b₀ b₁ b₂ b₃ rest ih =>
      obtain ⟨front, hfront⟩ := ih
      refine ⟨b₀ :: b₁ :: b₂ :: b₃ :: front, ?_⟩
      rw [lastWord]
      simpa using hfront
  | case2 rest hrest => exact ⟨[], by rw [lastWord, List.nil_append]; exact hrest⟩

theorem leWord_eq_zero_iff {chars : List Byte} (hnul : 0 ∉ chars) :
    Crc.leWord 32 chars = 0 ↔ chars = [] := by
  constructor
  · intro hzero
    cases chars with
    | nil => rfl
    | cons b rest =>
        have hbyte : b = 0 := by
          apply BitVec.eq_of_getLsbD_eq
          intro j hj
          have hdiv : j / 8 = 0 := by omega
          have hmod : j % 8 = j := by omega
          have hbit := Crc.leWord_getLsbD (b :: rest) j (show j < 32 by omega)
          rw [hzero, hdiv, hmod] at hbit
          simpa using hbit.symm
        exact absurd (by simp [hbyte]) hnul
  · rintro rfl
    rfl

/-! ## Strings in memory -/

section Stored

variable {m : Mem} {p : Nat} {chars : List Byte}

theorem StringAt.tail {b : Byte} {rest : List Byte} (h : StringAt m p (b :: rest)) :
    m p = b ∧ b ≠ 0 ∧ StringAt m (p + 1) rest := by
  have hnul := h.no_nul
  rw [List.mem_cons, not_or] at hnul
  refine ⟨h.holds 0 (by simp), Ne.symm hnul.1, hnul.2, fun i hi => ?_, ?_⟩
  · rw [Nat.add_right_comm, Nat.add_assoc]
    exact h.holds (i + 1) (by simpa using hi)
  · rw [Nat.add_assoc, Nat.add_comm 1]
    exact h.ended

theorem StringAt.ne_zero (h : StringAt m p chars) {i : Nat} (hi : i < chars.length) :
    m (p + i) ≠ 0 := by
  rw [h.holds i hi, List.getD_eq_getElem _ _ hi]
  exact fun hzero => h.no_nul (hzero ▸ List.getElem_mem hi)

/-- The word loop, from a multiple of four on. -/
theorem hashStringAlignedFrom_eq {u fuel : Nat} (h : StringAt m u chars) (hash : Word)
    (hfuel : chars.length / 4 < fuel) :
    hashStringAlignedFrom m fuel u hash = some (wordHash hash chars) := by
  induction chars using lastWord.induct generalizing u fuel hash with
  | case1 b₀ b₁ b₂ b₃ rest ih =>
      obtain ⟨h₀, hb₀, ht₀⟩ := h.tail
      obtain ⟨h₁, hb₁, ht₁⟩ := ht₀.tail
      obtain ⟨h₂, hb₂, ht₂⟩ := ht₁.tail
      obtain ⟨h₃, hb₃, ht₃⟩ := ht₂.tail
      have hwhole : ∀ i < 4, m (u + i) ≠ 0 := fun i hi =>
        h.ne_zero (by simp only [List.length_cons]; omega)
      have hword : wordAt m u = Crc.leWord 32 [b₀, b₁, b₂, b₃] := by
        rw [wordAt, Crc.ofNat_load, ← h₀, ← h₁, ← h₂, ← h₃]
        rfl
      simp only [List.length_cons] at hfuel
      obtain ⟨fuel, rfl⟩ : ∃ left, fuel = left + 1 := ⟨fuel - 1, by omega⟩
      rw [hashStringAlignedFrom, lenUint_of_whole hwhole, if_neg (lt_irrefl 4), wordHash, hword]
      exact ih ht₃ _ (by omega)
  | case2 rest hrest =>
      obtain ⟨fuel, rfl⟩ : ∃ left, fuel = left + 1 := ⟨fuel - 1, by omega⟩
      have hshort : rest.length < 4 := by
        rcases rest with _ | ⟨b₀, _ | ⟨b₁, _ | ⟨b₂, _ | ⟨b₃, rest⟩⟩⟩⟩
        · decide
        · simp
        · simp
        · simp
        · exact absurd rfl (hrest b₀ b₁ b₂ b₃ rest)
      have hlast : wordHash hash rest = rol hash hashShiftBits := by
        rw [wordHash]
        exact hrest
      rw [hashStringAlignedFrom, if_pos (lenUint_of_ended hshort h.ended), hlast]
      simp [mhb]

/-- The byte loop. -/
theorem hashStringFrom_eq (h : StringAt m p chars) (hlength : chars.length < 2 ^ 32)
    {left i fuel : Nat} (hi : i + left = chars.length) (hfuel : left < fuel) (hash : Word) :
    hashStringFrom m p fuel i hash = some (byteHash i hash (chars.drop i)) := by
  obtain ⟨fuel, rfl⟩ : ∃ more, fuel = more + 1 := ⟨fuel - 1, by omega⟩
  induction left generalizing i hash fuel with
  | zero =>
      have hend : i = chars.length := hi
      rw [hashStringFrom, hend, if_pos h.ended, List.drop_length, byteHash]
  | succ left ih =>
      obtain ⟨fuel, rfl⟩ : ∃ more, fuel = more + 1 := ⟨fuel - 1, by omega⟩
      have hlt : i < chars.length := by omega
      have hnext : (i + 1) % 2 ^ 32 = i + 1 := Nat.mod_eq_of_lt (by omega)
      have hbyte : m (p + i) = chars[i] := by
        rw [h.holds i hlt, List.getD_eq_getElem _ _ hlt]
      rw [hashStringFrom, if_neg (h.ne_zero hlt), hnext, ih (by omega) _ _ (by omega),
        List.drop_eq_getElem_cons hlt, byteHash, hbyte]

/-- The counter of the byte loop does not get to the end of a string of 4 GiB. -/
theorem hashStringFrom_endless (h : StringAt m p chars) (hlength : 2 ^ 32 ≤ chars.length)
    (fuel i : Nat) (hi : i < 2 ^ 32) (hash : Word) : hashStringFrom m p fuel i hash = none := by
  induction fuel generalizing i hash with
  | zero => rfl
  | succ fuel ih =>
      rw [hashStringFrom, if_neg (h.ne_zero (by omega))]
      exact ih _ (Nat.mod_lt _ (by decide)) _

end Stored

/-- A string stored at an address, with zero bytes around it. -/
def stored (p : Nat) (chars : List Byte) : Mem := fun a => chars.getD (a - p) 0

theorem stored_stringAt {chars : List Byte} (hnul : 0 ∉ chars) (p : Nat) :
    StringAt (stored p chars) p chars := by
  refine ⟨hnul, fun i _ => ?_, ?_⟩
  · rw [stored, Nat.add_sub_cancel_left]
  · rw [stored, Nat.add_sub_cancel_left, List.getD_eq_default _ _ le_rfl]

/-- What `hash_string` returns, by the alignment of the address. -/
theorem hashString_eq {m : Mem} {p fuel : Nat} {chars : List Byte} (h : StringAt m p chars)
    (hlength : chars.length < 2 ^ 32) (hfuel : chars.length < fuel) :
    hashString m fuel p =
      some (if p % 4 = 0 then wordHash 0 chars else wordHash 0 chars ^^^ Crc.leWord 32 (lastWord chars)) := by
  rw [hashString]
  split
  · rw [hashStringAligned, hashStringAlignedFrom_eq h 0 (by omega)]
  · rw [hashStringFrom_eq h hlength (Nat.zero_add _) hfuel, List.drop_zero, byteHash_eq _ _ _ rfl]

/-- The two paths agree on the strings of whole words that are shorter than 4 GiB. -/
theorem hashesAlike_iff (chars : List Byte) (hnul : 0 ∉ chars) :
    HashesAlike chars ↔ 4 ∣ chars.length ∧ chars.length < 2 ^ 32 := by
  constructor
  · rintro ⟨v, hv⟩
    have hat₀ := stored_stringAt hnul 0
    have hat₁ := stored_stringAt hnul 1
    obtain ⟨turns₀, haligned⟩ := hv _ 0 hat₀
    obtain ⟨turns₁, hbytes⟩ := hv _ 1 hat₁
    have hlength : chars.length < 2 ^ 32 := by
      by_contra hlong
      have hreturns := hbytes turns₁ le_rfl
      rw [hashString, if_neg (by decide), hashStringFrom_endless hat₁ (not_lt.mp hlong) _ _
        (by decide)] at hreturns
      cases hreturns
    refine ⟨?_, hlength⟩
    have h₀ := haligned (max turns₀ (chars.length + 1)) (le_max_left _ _)
    have h₁ := hbytes (max turns₁ (chars.length + 1)) (le_max_left _ _)
    rw [hashString_eq hat₀ hlength (lt_of_lt_of_le (Nat.lt_succ_self _) (le_max_right _ _)),
      if_pos (by decide)] at h₀
    rw [hashString_eq hat₁ hlength (lt_of_lt_of_le (Nat.lt_succ_self _) (le_max_right _ _)),
      if_neg (by decide), ← h₀] at h₁
    have hlast : Crc.leWord 32 (lastWord chars) = 0 := by
      have hxor := Option.some.inj h₁
      exact (BitVec.xor_right_inj _).mp (hxor.trans BitVec.xor_zero.symm)
    obtain ⟨front, hfront⟩ := lastWord_suffix chars
    have hlastNul : 0 ∉ lastWord chars := by
      intro hin
      rw [hfront] at hnul
      exact hnul (List.mem_append_right front hin)
    exact (lastWord_eq_nil_iff chars).mp ((leWord_eq_zero_iff hlastNul).mp hlast)
  · rintro ⟨hwords, hlength⟩
    refine ⟨wordHash 0 chars, fun m p h => ⟨chars.length + 1, fun fuel hfuel => ?_⟩⟩
    rw [hashString_eq h hlength hfuel, (lastWord_eq_nil_iff chars).mpr hwords]
    simp [Crc.leWord]

/-- A string of one word. -/
theorem hashesAlike_abcd : HashesAlike [0x61, 0x62, 0x63, 0x64] :=
  (hashesAlike_iff [0x61, 0x62, 0x63, 0x64] (by decide)).mpr (by decide)

/-- A string of one character has two hashes. -/
theorem not_hashesAlike_a : ¬ HashesAlike [0x61] := by
  have hnul : 0 ∉ ([0x61] : List Byte) := by decide
  rintro ⟨v, hv⟩
  obtain ⟨turns₀, haligned⟩ := hv _ 0 (stored_stringAt hnul 0)
  obtain ⟨turns₁, hbytes⟩ := hv _ 1 (stored_stringAt hnul 1)
  have h₀ := haligned (max turns₀ 2) (le_max_left _ _)
  have h₁ := hbytes (max turns₁ 2) (le_max_left _ _)
  rw [hashString_eq (stored_stringAt hnul 0) (by decide)
    (lt_of_lt_of_le (by decide : 1 < 2) (le_max_right _ _))] at h₀
  rw [hashString_eq (stored_stringAt hnul 1) (by decide)
    (lt_of_lt_of_le (by decide : 1 < 2) (le_max_right _ _)), ← h₀] at h₁
  exact absurd h₁ (by decide)

end OpenAAA.Hash
