import OpenAAA.Crypto.Crc
import OpenAAA.Net.Sctp

/-!
`sctp_checksum` and `sctp_validate` of `net/sctp/dec.c`. Both compute the CRC of
the whole packet, checksum field included, and they differ in what that field
holds meanwhile: the generator leaves the old value there, the verifier clears
it, and does not put it back. So a generated packet verifies exactly when the
field was clear to begin with, and verifying is destructive. For packets that
were generated from a clear field, the CRC then catches every change inside four
consecutive bytes.
-/

namespace OpenAAA.Net

open Memory Sys Crypto

/-- The offset of `hdr.checksum`. -/
def sctpChecksumOff : Nat := 8

def sctpChecksum (m : Mem) (msg len : Nat) : Mem :=
  store m (msg + sctpChecksumOff) 4 (cpuBe32 (crc32Hash m msg len).toNat)

/-- The result of `sctp_validate` and the memory it leaves behind. -/
def sctpValidate (m : Mem) (msg len : Nat) : Int × Mem :=
  let crc32 := be32Cpu (load m (msg + sctpChecksumOff) 4)
  let m := store m (msg + sctpChecksumOff) 4 0
  (if crc32 = (crc32Hash m msg len).toNat then 1 else -1, m)

section Hash

variable {m m' : Mem} {msg msg' len : Nat}

theorem crc32Hash_packet (m : Mem) (msg : Nat) (hmin : 12 ≤ len) (hmax : len < 2 ^ 32) :
    crc32Hash m msg len = crc32c 0xffffffff (read m msg len) ^^^ 0xffffffff := by
  apply crc32Hash_eq m msg len hmax
  unfold initBytes
  split <;> omega

theorem crc32Hash_congr (hmin : 12 ≤ len) (hmax : len < 2 ^ 32)
    (h : ∀ i < len, m' (msg' + i) = m (msg + i)) :
    crc32Hash m' msg' len = crc32Hash m msg len := by
  rw [crc32Hash_packet m' msg' hmin hmax, crc32Hash_packet m msg hmin hmax, read_congr h]

theorem read_window (m : Mem) (msg : Nat) {w n : Nat} (hwindow : w + n ≤ len) :
    read m msg len =
      read m msg w ++ read m (msg + w) n ++ read m (msg + w + n) (len - w - n) := by
  rw [← read_append, Nat.add_assoc msg w n, ← read_append]
  congr 1
  omega

/-- Two packets that differ only inside four consecutive bytes and have the same
hash do not differ at all. -/
theorem eq_of_crc32Hash_eq (hmin : 12 ≤ len) (hmax : len < 2 ^ 32) {w n : Nat}
    (hwindow : w + n ≤ len) (hn : n ≤ 4)
    (hsame : ∀ i < len, i < w ∨ w + n ≤ i → m' (msg' + i) = m (msg + i))
    (hhash : crc32Hash m' msg' len = crc32Hash m msg len) :
    ∀ i < len, m' (msg' + i) = m (msg + i) := by
  rw [crc32Hash_packet m' msg' hmin hmax, crc32Hash_packet m msg hmin hmax] at hhash
  have hcrc := (BitVec.xor_left_inj _).mp hhash
  have hbefore : read m' msg' w = read m msg w :=
    read_congr (fun i hi => hsame i (by omega) (Or.inl hi))
  have hafter : read m' (msg' + w + n) (len - w - n) =
      read m (msg + w + n) (len - w - n) := by
    apply read_congr
    intro i hi
    have htail := hsame (w + n + i) (by omega) (Or.inr (by omega))
    simpa only [Nat.add_assoc] using htail
  rw [read_window m' msg' hwindow, read_window m msg hwindow, hbefore, hafter] at hcrc
  have hmiddle := Crc.update_burst _ crc32cPoly_msb _ _ _ _ _ (by simp)
    (by rw [read_length]; omega) hcrc
  intro i hi
  by_cases hout : i < w ∨ w + n ≤ i
  · exact hsame i hi hout
  · have hbyte := congrArg (fun bs => bs[i - w]?) hmiddle
    have hlt : i - w < n := by omega
    simp only [read_getElem? hlt, Option.some.injEq] at hbyte
    have hplace : w + (i - w) = i := by omega
    simpa only [Nat.add_assoc, hplace] using hbyte

end Hash

section Packet

variable {m : Mem} {msg len : Nat}

/-- The packet with its checksum field cleared. -/
def cleared (m : Mem) (msg : Nat) : Mem := store m (msg + sctpChecksumOff) 4 0

theorem cleared_outside (m : Mem) (msg i : Nat) (hout : i < 8 ∨ 12 ≤ i) :
    cleared m msg (msg + i) = m (msg + i) := by
  apply store_outside
  unfold sctpChecksumOff
  omega

theorem cleared_field (m : Mem) (msg i : Nat) (hin : 8 ≤ i ∧ i < 12) :
    cleared m msg (msg + i) = 0 := by
  unfold cleared sctpChecksumOff
  exact store_zero (by omega) (by omega)

/-- The verdict compares the field, in network order, with the hash of the
cleared packet. -/
theorem sctpValidate_fst (m : Mem) (msg len : Nat) :
    (sctpValidate m msg len).1 =
      if getU32Be m (msg + 8) = (crc32Hash (cleared m msg) msg len).toNat then 1 else -1 := by
  simp only [sctpValidate, sctpChecksumOff, be32Cpu_load]
  rfl

theorem sctpValidate_eq_one (m : Mem) (msg len : Nat) :
    (sctpValidate m msg len).1 = 1 ↔
      getU32Be m (msg + 8) = (crc32Hash (cleared m msg) msg len).toNat := by
  rw [sctpValidate_fst]
  split <;> simp_all

theorem sctpChecksum_field (m : Mem) (msg len : Nat) :
    getU32Be (sctpChecksum m msg len) (msg + 8) = (crc32Hash m msg len).toNat :=
  getU32Be_store_cpuBe32 m (msg + 8) _ (crc32Hash m msg len).isLt

theorem sctpChecksum_outside (m : Mem) (msg len i : Nat) (hout : i < 8 ∨ 12 ≤ i) :
    sctpChecksum m msg len (msg + i) = m (msg + i) := by
  apply store_outside
  unfold sctpChecksumOff
  omega

/-- Clearing the field forgets what `sctp_checksum` wrote there. -/
theorem cleared_sctpChecksum (m : Mem) (msg len i : Nat) :
    cleared (sctpChecksum m msg len) msg (msg + i) = cleared m msg (msg + i) := by
  by_cases hin : 8 ≤ i ∧ i < 12
  · rw [cleared_field _ _ _ hin, cleared_field _ _ _ hin]
  · rw [cleared_outside _ _ _ (by omega), cleared_outside _ _ _ (by omega),
      sctpChecksum_outside _ _ _ _ (by omega)]

theorem cleared_of_zero (hzero : load m (msg + 8) 4 = 0) (i : Nat) :
    cleared m msg (msg + i) = m (msg + i) := by
  by_cases hin : 8 ≤ i ∧ i < 12
  · have hbyte := (load_eq_zero_iff m (msg + 8) 4).mp hzero (i - 8) (by omega)
    have hplace : 8 + (i - 8) = i := by omega
    rw [Nat.add_assoc, hplace] at hbyte
    rw [cleared_field _ _ _ hin, hbyte]
  · exact cleared_outside _ _ _ (by omega)

/-- A generated packet verifies exactly when its field was clear before. -/
theorem sctpValidate_sctpChecksum (hmin : 12 ≤ len) (hmax : len < 2 ^ 32) :
    (sctpValidate (sctpChecksum m msg len) msg len).1 = 1 ↔ load m (msg + 8) 4 = 0 := by
  have hforget : crc32Hash (cleared (sctpChecksum m msg len) msg) msg len =
      crc32Hash (cleared m msg) msg len :=
    crc32Hash_congr hmin hmax (fun i _ => cleared_sctpChecksum m msg len i)
  rw [sctpValidate_eq_one, sctpChecksum_field, hforget]
  constructor
  · intro hequal
    have hsame := eq_of_crc32Hash_eq hmin hmax (w := 8) (n := 4) (by omega) (le_refl 4)
      (fun i _ hout => (cleared_outside m msg i (by omega)).symm)
      (BitVec.eq_of_toNat_eq hequal)
    apply (load_eq_zero_iff m (msg + 8) 4).mpr
    intro i hi
    rw [Nat.add_assoc, hsame (8 + i) (by omega), cleared_field m msg (8 + i) (by omega)]
  · intro hzero
    rw [crc32Hash_congr hmin hmax (fun i _ => cleared_of_zero hzero i)]

end Packet

/-- Generating and then verifying twice: both verdicts. -/
def checksumThenValidateTwice (m : Mem) (msg len : Nat) : Int × Int :=
  let first := sctpValidate (sctpChecksum m msg len) msg len
  (first.1, (sctpValidate first.2 msg len).1)

/-- Both verdicts are 1 exactly for the packets whose checksum field is clear
and whose CRC-32C is zero: the first needs the clear field, and the second sees
the zero that the first one left there. -/
theorem checksumThenValidateTwice_iff (m : Mem) (msg len : Nat) (hmin : 12 ≤ len)
    (hmax : len < 2 ^ 32) :
    checksumThenValidateTwice m msg len = (1, 1) ↔
      load m (msg + 8) 4 = 0 ∧
        crc32c 0xffffffff (read m msg len) ^^^ 0xffffffff = 0 := by
  have hsecond : (sctpValidate (sctpValidate (sctpChecksum m msg len) msg len).2 msg len).1 = 1 ↔
      crc32Hash (cleared m msg) msg len = 0 := by
    -- The second call finds the field that the first call cleared.
    have hleft : (sctpValidate (sctpChecksum m msg len) msg len).2 =
        cleared (sctpChecksum m msg len) msg := rfl
    have hfield : getU32Be (cleared (sctpChecksum m msg len) msg) (msg + 8) = 0 := by
      have hbytes : ∀ i < 4, cleared (sctpChecksum m msg len) msg (msg + 8 + i) = 0 := by
        intro i hi
        rw [Nat.add_assoc]
        exact cleared_field _ _ _ (by omega)
      have hfirst : cleared (sctpChecksum m msg len) msg (msg + 8) = 0 := hbytes 0 (by decide)
      rw [getU32Be_eq, hfirst, hbytes 1 (by decide), hbytes 2 (by decide), hbytes 3 (by decide)]
      rfl
    have hhash : crc32Hash (cleared (cleared (sctpChecksum m msg len) msg) msg) msg len =
        crc32Hash (cleared m msg) msg len := by
      apply crc32Hash_congr hmin hmax
      intro i _
      by_cases hin : 8 ≤ i ∧ i < 12
      · rw [cleared_field _ _ _ hin, cleared_field _ _ _ hin]
      · rw [cleared_outside _ _ _ (by omega), cleared_sctpChecksum]
    rw [hleft, sctpValidate_eq_one, hfield, hhash]
    constructor
    · intro hzero
      exact BitVec.eq_of_toNat_eq hzero.symm
    · intro hzero
      rw [hzero]
      rfl
  rw [checksumThenValidateTwice, Prod.mk.injEq, sctpValidate_sctpChecksum hmin hmax, hsecond]
  refine and_congr_right (fun hzero => ?_)
  rw [crc32Hash_congr hmin hmax (fun i _ => cleared_of_zero hzero i),
    crc32Hash_packet m msg hmin hmax]

/-- A header whose CRC-32C happens to be zero; the verification tag was solved
for. -/
def headerZeroCrc : Mem :=
  write (fun _ => 0) 0x1000 [0, 0, 0, 0, 0x2a, 0xa4, 0xd0, 0x97, 0, 0, 0, 0]

theorem checksumThenValidateTwice_zero_crc :
    12 ≤ 12 ∧ 12 < 2 ^ 32 ∧ checksumThenValidateTwice headerZeroCrc 0x1000 12 = (1, 1) :=
  ⟨by decide, by decide,
    (checksumThenValidateTwice_iff headerZeroCrc 0x1000 12 (by decide) (by decide)).mpr
      ⟨by decide, by decide +kernel⟩⟩

/-- A header that is zero but for an old value 1 in the checksum field: it does
not verify after `sctp_checksum`, neither the first time nor the second. -/
theorem checksumThenValidateTwice_old_value :
    checksumThenValidateTwice (write (fun _ => 0) 0x1000 [0, 0, 0, 0, 0, 0, 0, 0, 1, 0, 0, 0])
      0x1000 12 = (-1, -1) := by
  decide +kernel

/-- The packet at `msg'` in `m'` is a copy of the one at `msg` in `m`, changed
somewhere and only inside the `n` bytes from offset `w`. -/
structure CorruptedIn (m m' : Mem) (msg msg' len w n : Nat) : Prop where
  inside : w + n ≤ len
  outside : ∀ i < len, i < w ∨ w + n ≤ i → m' (msg' + i) = m (msg + i)
  changed : ∃ i < len, m' (msg' + i) ≠ m (msg + i)

/-- A corrupted field no longer holds the hash, which is still the same. -/
theorem field_of_corrupted_inside {m m' : Mem} {msg msg' len w n : Nat}
    (hmin : 12 ≤ len) (hmax : len < 2 ^ 32) (hzero : load m (msg + 8) 4 = 0)
    (hplace : Inside w n 8 4)
    (hcorrupt : CorruptedIn (sctpChecksum m msg len) m' msg msg' len w n) :
    getU32Be m' (msg' + 8) ≠ (crc32Hash (cleared m' msg') msg' len).toNat := by
  obtain ⟨_, houtside, i, hi, hchanged⟩ := hcorrupt
  obtain ⟨hlow, hhigh⟩ := hplace
  have hhash : crc32Hash (cleared m' msg') msg' len = crc32Hash m msg len := by
    apply crc32Hash_congr hmin hmax
    intro j hj
    rw [← cleared_of_zero hzero j]
    by_cases hin : 8 ≤ j ∧ j < 12
    · rw [cleared_field _ _ _ hin, cleared_field _ _ _ hin]
    · rw [cleared_outside _ _ _ (by omega), cleared_outside _ _ _ (by omega),
        houtside j hj (by omega), sctpChecksum_outside _ _ _ _ (by omega)]
  intro hequal
  rw [hhash, ← sctpChecksum_field] at hequal
  have hfield : 8 ≤ i ∧ i < 12 := by
    by_contra hout
    exact hchanged (houtside i hi (by omega))
  have hbyte := getU32Be_injective hequal (i - 8) (by omega)
  have hoff : 8 + (i - 8) = i := by omega
  rw [Nat.add_assoc, Nat.add_assoc, hoff] at hbyte
  exact hchanged hbyte

/-- A packet corrupted outside its field keeps the field and changes its hash. -/
theorem field_of_corrupted_outside {m m' : Mem} {msg msg' len w n : Nat}
    (hmin : 12 ≤ len) (hmax : len < 2 ^ 32) (hzero : load m (msg + 8) 4 = 0) (hn : n ≤ 4)
    (hplace : Apart w n 8 4)
    (hcorrupt : CorruptedIn (sctpChecksum m msg len) m' msg msg' len w n) :
    getU32Be m' (msg' + 8) ≠ (crc32Hash (cleared m' msg') msg' len).toNat := by
  obtain ⟨hinside, houtside, i, hi, hchanged⟩ := hcorrupt
  unfold Apart at hplace
  have hwindow : ¬ (i < w ∨ w + n ≤ i) := fun hout => hchanged (houtside i hi hout)
  have hkept : getU32Be m' (msg' + 8) = (crc32Hash m msg len).toNat := by
    rw [← sctpChecksum_field]
    apply getU32Be_congr
    intro j hj
    rw [Nat.add_assoc, Nat.add_assoc]
    exact houtside (8 + j) (by omega) (by omega)
  intro hequal
  rw [hkept] at hequal
  have hrest : ∀ j < len, j < w ∨ w + n ≤ j → cleared m' msg' (msg' + j) = m (msg + j) := by
    intro j hj hout
    by_cases hin : 8 ≤ j ∧ j < 12
    · rw [cleared_field _ _ _ hin, ← cleared_of_zero hzero j, cleared_field _ _ _ hin]
    · rw [cleared_outside _ _ _ (by omega), houtside j hj hout,
        sctpChecksum_outside _ _ _ _ (by omega)]
  have hsame := eq_of_crc32Hash_eq hmin hmax hinside hn hrest
    (BitVec.eq_of_toNat_eq hequal.symm) i hi
  rw [cleared_outside _ _ _ (by omega), ← sctpChecksum_outside m msg len i (by omega)] at hsame
  exact hchanged hsame

/-- No change inside four consecutive bytes of a packet that was generated with
a clear field goes unnoticed, as long as those bytes are all in the checksum
field or all outside it. The copy may lie at another address. -/
theorem sctpValidate_detects_corruption (m m' : Mem) (msg msg' len w n : Nat)
    (hmin : 12 ≤ len) (hmax : len < 2 ^ 32) (hzero : load m (msg + 8) 4 = 0) (hn : n ≤ 4)
    (hplace : Apart w n 8 4 ∨ Inside w n 8 4)
    (hcorrupt : CorruptedIn (sctpChecksum m msg len) m' msg msg' len w n) :
    (sctpValidate m' msg' len).1 = -1 := by
  have hfield : getU32Be m' (msg' + 8) ≠ (crc32Hash (cleared m' msg') msg' len).toNat := by
    rcases hplace with hapart | hin
    · exact field_of_corrupted_outside hmin hmax hzero hn hapart hcorrupt
    · exact field_of_corrupted_inside hmin hmax hzero hin hcorrupt
  rw [sctpValidate_fst, if_neg hfield]

/-- The packet of two chunks from the walk above with one bit of its second
chunk flipped after its checksum was generated. -/
def packetFlipped : Mem :=
  write (sctpChecksum packetLongTail 0x1000 32) (0x1000 + 20) [0]

theorem packetFlipped_corruptedIn :
    CorruptedIn (sctpChecksum packetLongTail 0x1000 32) packetFlipped 0x1000 0x1000 32 20 1 :=
  ⟨by decide, by decide +kernel, ⟨20, by decide, by decide +kernel⟩⟩

theorem sctpValidate_detects_flipped :
    CorruptedIn (sctpChecksum packetLongTail 0x1000 32) packetFlipped 0x1000 0x1000 32 20 1 ∧
      (sctpValidate packetFlipped 0x1000 32).1 = -1 :=
  ⟨packetFlipped_corruptedIn,
    sctpValidate_detects_corruption packetLongTail packetFlipped 0x1000 0x1000 32 20 1
      (by decide) (by decide) (by decide) (by decide) (Or.inl (by decide))
      packetFlipped_corruptedIn⟩

end OpenAAA.Net
