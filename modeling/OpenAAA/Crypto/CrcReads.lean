import OpenAAA.Crypto.Crc
import OpenAAA.Lib.Traced

/-!
Which bytes `crc32_update` reads. The update functions are written once more with every
dereference recorded; their values are those of `Crc`. The aligning loops first take the
bytes up to the next word, without asking whether the message has that many, so the
bytes they consume are those of the message exactly when it covers that prologue.
-/

namespace OpenAAA.Crypto

open Memory Traces

/-- `*buf` -/
def fetchByte (m : Mem) (buf : Nat) : Traced Access Byte := record ⟨buf, 1⟩ (m buf)

/-- `*buf32` -/
def fetchWord (m : Mem) (buf : Nat) : Traced Access (BitVec 32) := record ⟨buf, 4⟩ (word32 m buf)

/-- `crc32Bytes`, recorded. -/
def crc32BytesReads (m : Mem) : Nat → Nat → BitVec 32 → Traced Access (BitVec 32)
  | 0, _, crc => pure crc
  | len + 1, buf, crc => do
      let b ← fetchByte m buf
      crc32BytesReads m len (buf + 1)
        (lookup tableIl8O32 (crc ^^^ b.setWidth 32) ^^^ (crc >>> 8))

/-- `crc32Words`, recorded. -/
def crc32WordsReads (m : Mem) : Nat → Nat → BitVec 32 → Traced Access (BitVec 32)
  | 0, _, crc => pure crc
  | words + 1, buf, crc => do
      let word ← fetchWord m buf
      let crc := crc ^^^ word
      let term1 := lookup tableIl8O56 crc ^^^ lookup tableIl8O48 (crc >>> 8)
      let term2 := crc >>> 16
      crc32WordsReads m words (buf + 4)
        (term1 ^^^ lookup tableIl8O40 term2 ^^^ lookup tableIl8O32 (term2 >>> 8))

/-- `crc32Quads`, recorded: the second word is named three times. -/
def crc32QuadsReads (m : Mem) : Nat → Nat → BitVec 32 → Traced Access (BitVec 32)
  | 0, _, crc => pure crc
  | quads + 1, buf, crc => do
      let word ← fetchWord m buf
      let crc := crc ^^^ word
      let term1 := lookup tableIl8O88 crc ^^^ lookup tableIl8O80 (crc >>> 8)
      let term2 := crc >>> 16
      let crc := term1 ^^^ lookup tableIl8O72 term2 ^^^ lookup tableIl8O64 (term2 >>> 8)
      let low ← fetchWord m (buf + 4)
      let middle ← fetchWord m (buf + 4)
      let term1 := lookup tableIl8O56 low ^^^ lookup tableIl8O48 (middle >>> 8)
      let high ← fetchWord m (buf + 4)
      let term2 := high >>> 16
      crc32QuadsReads m quads (buf + 8)
        (crc ^^^ term1 ^^^ lookup tableIl8O40 term2 ^^^ lookup tableIl8O32 (term2 >>> 8))

def crc32UpdateBy1Reads (m : Mem) (state : BitVec 32) (buf len : Nat) :
    Traced Access (BitVec 32) :=
  crc32BytesReads m len buf state

def crc32UpdateBy4Reads (m : Mem) (state : BitVec 32) (buf len : Nat) :
    Traced Access (BitVec 32) := do
  let init := initBytes 4 buf
  let crc ← crc32BytesReads m init buf state
  let len := lenAfter 4 buf len
  let words := len / 4
  let crc ← crc32WordsReads m words (buf + init) crc
  crc32BytesReads m (len - 4 * words) (buf + init + 4 * words) crc

def crc32UpdateBy8Reads (m : Mem) (state : BitVec 32) (buf len : Nat) :
    Traced Access (BitVec 32) := do
  let init := initBytes 8 buf
  let crc ← crc32BytesReads m init buf state
  let len := lenAfter 8 buf len
  let quads := len / 8
  let crc ← crc32QuadsReads m quads (buf + init) crc
  crc32BytesReads m (len - 8 * quads) (buf + init + 8 * quads) crc

/-- `crc32_update` in the mode given to `crc32_init`, recorded. -/
def crc32UpdateReads : Crc32Mode → Mem → BitVec 32 → Nat → Nat → Traced Access (BitVec 32)
  | .default => crc32UpdateBy4Reads
  | .small => crc32UpdateBy1Reads
  | .big => crc32UpdateBy8Reads

/-! ## The recorded functions compute the same values -/

theorem value_crc32BytesReads (m : Mem) (len buf : Nat) (crc : BitVec 32) :
    value (crc32BytesReads m len buf crc) = crc32Bytes m len buf crc := by
  induction len generalizing buf crc with
  | zero => rfl
  | succ len ih =>
      simp only [crc32BytesReads, fetchByte, value_bind, value_record, ih, crc32Bytes]

theorem value_crc32WordsReads (m : Mem) (words buf : Nat) (crc : BitVec 32) :
    value (crc32WordsReads m words buf crc) = crc32Words m words buf crc := by
  induction words generalizing buf crc with
  | zero => rfl
  | succ words ih =>
      simp only [crc32WordsReads, fetchWord, value_bind, value_record, ih, crc32Words]

theorem value_crc32QuadsReads (m : Mem) (quads buf : Nat) (crc : BitVec 32) :
    value (crc32QuadsReads m quads buf crc) = crc32Quads m quads buf crc := by
  induction quads generalizing buf crc with
  | zero => rfl
  | succ quads ih =>
      simp only [crc32QuadsReads, fetchWord, value_bind, value_record, ih, crc32Quads]

theorem value_crc32UpdateReads (mode : Crc32Mode) (m : Mem) (state : BitVec 32) (buf len : Nat) :
    value (crc32UpdateReads mode m state buf len) =
      (crc32Update m { crc32Init mode with state := state } buf len).state := by
  unfold crc32Update crc32Init
  cases mode with
  | default =>
      have hvalue : value (crc32UpdateBy4Reads m state buf len) = crc32UpdateBy4 m state buf len := by
        rw [crc32UpdateBy4Reads, crc32UpdateBy4]
        -- the counter is kept closed, so that its `2 ^ 32` is not computed with
        generalize lenAfter 4 buf len = rest
        rw [value_bind, value_bind, value_crc32BytesReads, value_crc32BytesReads,
          value_crc32WordsReads]
      exact hvalue
  | small => exact value_crc32BytesReads m len buf state
  | big =>
      have hvalue : value (crc32UpdateBy8Reads m state buf len) = crc32UpdateBy8 m state buf len := by
        rw [crc32UpdateBy8Reads, crc32UpdateBy8]
        generalize lenAfter 8 buf len = rest
        rw [value_bind, value_bind, value_crc32BytesReads, value_crc32BytesReads,
          value_crc32QuadsReads]
      exact hvalue

/-! ## What they read -/

theorem covers_crc32Bytes (m : Mem) (len buf : Nat) (crc : BitVec 32) {l : List Access} {n : Nat}
    (h : Covers l (buf + len) n) :
    Covers (trace (crc32BytesReads m len buf crc) ++ l) buf (len + n) := by
  induction len generalizing buf crc with
  | zero => simpa [crc32BytesReads] using h
  | succ len ih =>
      have hnext : buf + (len + 1) = buf + 1 + len := by omega
      rw [hnext] at h
      have hcount : len + 1 + n = 1 + (len + n) := by omega
      rw [hcount]
      exact (ih _ _ h).cons 1 (by decide)

theorem covers_crc32Words (m : Mem) (words buf : Nat) (crc : BitVec 32) {l : List Access} {n : Nat}
    (h : Covers l (buf + 4 * words) n) :
    Covers (trace (crc32WordsReads m words buf crc) ++ l) buf (4 * words + n) := by
  induction words generalizing buf crc with
  | zero => simpa [crc32WordsReads] using h
  | succ words ih =>
      have hnext : buf + 4 * (words + 1) = buf + 4 + 4 * words := by omega
      rw [hnext] at h
      have hcount : 4 * (words + 1) + n = 4 + (4 * words + n) := by omega
      rw [hcount]
      exact (ih _ _ h).cons 4 (by decide)

theorem covers_crc32Quads (m : Mem) (quads buf : Nat) (crc : BitVec 32) {l : List Access} {n : Nat}
    (h : Covers l (buf + 8 * quads) n) :
    Covers (trace (crc32QuadsReads m quads buf crc) ++ l) buf (8 * quads + n) := by
  induction quads generalizing buf crc with
  | zero => simpa [crc32QuadsReads] using h
  | succ quads ih =>
      have hnext : buf + 8 * (quads + 1) = buf + 4 + 4 + 8 * quads := by omega
      rw [hnext] at h
      have hcount : 8 * (quads + 1) + n = 4 + (4 + (8 * quads + n)) := by omega
      rw [hcount]
      have hthree : ∀ rest : List Access, Covers rest (buf + 4) (4 + (8 * quads + n)) →
          rest = ⟨buf + 4, 4⟩ :: rest.tail →
          Covers (⟨buf, 4⟩ :: ⟨buf + 4, 4⟩ :: ⟨buf + 4, 4⟩ :: rest) buf
            (4 + (4 + (8 * quads + n))) := by
        intro rest hrest hhead
        rw [hhead] at hrest ⊢
        have hwidth : 0 < (⟨buf + 4, 4⟩ : Access).width := Nat.succ_pos 3
        exact ((hrest.again rfl hwidth).again rfl hwidth).cons 4 (by decide)
      simp only [crc32QuadsReads, fetchWord, trace_bind, trace_record, value_record,
        List.cons_append, List.nil_append]
      exact hthree _ ((ih _ _ h).cons 4 (by decide)) rfl

theorem covers_crc32UpdateBy4 (m : Mem) (state : BitVec 32) (buf len : Nat) :
    Covers (trace (crc32UpdateBy4Reads m state buf len)) buf
      (initBytes 4 buf + lenAfter 4 buf len) := by
  rw [crc32UpdateBy4Reads]
  generalize lenAfter 4 buf len = rest
  have hsplit : initBytes 4 buf + rest =
      initBytes 4 buf + (4 * (rest / 4) + (rest - 4 * (rest / 4) + 0)) := by omega
  rw [hsplit, trace_bind, trace_bind]
  apply covers_crc32Bytes
  apply covers_crc32Words
  rw [← List.append_nil (trace _)]
  exact covers_crc32Bytes m _ _ _ (Covers.nil _)

theorem covers_crc32UpdateBy8 (m : Mem) (state : BitVec 32) (buf len : Nat) :
    Covers (trace (crc32UpdateBy8Reads m state buf len)) buf
      (initBytes 8 buf + lenAfter 8 buf len) := by
  rw [crc32UpdateBy8Reads]
  generalize lenAfter 8 buf len = rest
  have hsplit : initBytes 8 buf + rest =
      initBytes 8 buf + (8 * (rest / 8) + (rest - 8 * (rest / 8) + 0)) := by omega
  rw [hsplit, trace_bind, trace_bind]
  apply covers_crc32Bytes
  apply covers_crc32Quads
  rw [← List.append_nil (trace _)]
  exact covers_crc32Bytes m _ _ _ (Covers.nil _)

/-- The bytes before the first word. -/
def prologue : Crc32Mode → Nat → Nat
  | .default, buf => initBytes 4 buf
  | .small, _ => 0
  | .big, buf => initBytes 8 buf

/-- The counter `len` behind the prologue. -/
def lenLeft : Crc32Mode → Nat → Nat → Nat
  | .default, buf, len => lenAfter 4 buf len
  | .small, _, len => len
  | .big, buf, len => lenAfter 8 buf len

/-- An update consumes the prologue and then as many bytes as the counter says. -/
theorem addresses_merged_crc32Update (mode : Crc32Mode) (m : Mem) (state : BitVec 32)
    (buf len : Nat) :
    addresses (merged (trace (crc32UpdateReads mode m state buf len))) =
      List.range' buf (prologue mode buf + lenLeft mode buf len) := by
  apply Covers.addresses_merged
  cases mode with
  | default => exact covers_crc32UpdateBy4 m state buf len
  | small =>
      have hbytes := covers_crc32Bytes m len buf state (Covers.nil _)
      rw [List.append_nil, Nat.add_zero] at hbytes
      rw [prologue, lenLeft, Nat.zero_add]
      exact hbytes
  | big => exact covers_crc32UpdateBy8 m state buf len

theorem addresses_crc32Bytes (m : Mem) (len buf : Nat) (crc : BitVec 32) :
    addresses (trace (crc32BytesReads m len buf crc)) = List.range' buf len := by
  induction len generalizing buf crc with
  | zero => rfl
  | succ len ih =>
      have htrace : trace (crc32BytesReads m (len + 1) buf crc) = ⟨buf, 1⟩ ::
          trace (crc32BytesReads m len (buf + 1)
            (lookup tableIl8O32 (crc ^^^ (m buf).setWidth 32) ^^^ (crc >>> 8))) := rfl
      rw [htrace, addresses_cons, ih, List.range'_append_1, Nat.add_comm]

theorem addresses_crc32Words (m : Mem) (words buf : Nat) (crc : BitVec 32) :
    addresses (trace (crc32WordsReads m words buf crc)) = List.range' buf (4 * words) := by
  induction words generalizing buf crc with
  | zero => rfl
  | succ words ih =>
      have hcount : 4 * (words + 1) = 4 + 4 * words := by omega
      rw [crc32WordsReads, trace_bind, addresses_append, ih, hcount, ← List.range'_append_1]
      simp [fetchWord]

/-- Twelve of the sixteen bytes accessed for two words belong to the second one. -/
theorem length_addresses_crc32Quads (m : Mem) (quads buf : Nat) (crc : BitVec 32) :
    (addresses (trace (crc32QuadsReads m quads buf crc))).length = 16 * quads := by
  induction quads generalizing buf crc with
  | zero => rfl
  | succ quads ih =>
      simp only [crc32QuadsReads, fetchWord, trace_bind, trace_record, value_record, addresses_append,
        addresses_cons, addresses_nil, List.length_append, List.length_range', ih, List.length_nil]
      omega

theorem addresses_crc32UpdateBy4 (m : Mem) (state : BitVec 32) (buf len : Nat) :
    addresses (trace (crc32UpdateBy4Reads m state buf len)) =
      List.range' buf (initBytes 4 buf + lenAfter 4 buf len) := by
  rw [crc32UpdateBy4Reads]
  generalize lenAfter 4 buf len = rest
  have hparts : 4 * (rest / 4) + (rest - 4 * (rest / 4)) = rest := by omega
  rw [trace_bind, trace_bind, addresses_append, addresses_append, addresses_crc32Bytes,
    addresses_crc32Words, addresses_crc32Bytes, List.range'_append_1, List.range'_append_1, hparts]

theorem length_addresses_crc32UpdateBy8 (m : Mem) (state : BitVec 32) (buf len : Nat) :
    (addresses (trace (crc32UpdateBy8Reads m state buf len))).length =
      initBytes 8 buf + lenAfter 8 buf len + 8 * (lenAfter 8 buf len / 8) := by
  rw [crc32UpdateBy8Reads]
  generalize lenAfter 8 buf len = rest
  rw [trace_bind, trace_bind, addresses_append, addresses_append, List.length_append,
    List.length_append, addresses_crc32Bytes, addresses_crc32Bytes, length_addresses_crc32Quads,
    List.length_range', List.length_range']
  omega

theorem addresses_crc32UpdateBy8_short (m : Mem) (state : BitVec 32) {buf len : Nat}
    (hshort : lenAfter 8 buf len < 8) :
    addresses (trace (crc32UpdateBy8Reads m state buf len)) =
      List.range' buf (initBytes 8 buf + lenAfter 8 buf len) := by
  rw [crc32UpdateBy8Reads]
  generalize lenAfter 8 buf len = rest at hshort
  have hnone : rest / 8 = 0 := by omega
  rw [trace_bind, trace_bind, hnone, crc32QuadsReads, trace_pure, value_pure, addresses_append,
    List.nil_append, addresses_crc32Bytes, addresses_crc32Bytes, Nat.mul_zero, Nat.sub_zero,
    Nat.add_zero, List.range'_append_1]

/-- What `crc32_update` is to read: the bytes of the message, each once, with a counter
that does not pass zero. The three mentions of one word in one turn are one reading of it. -/
structure ReadsMessage (mode : Crc32Mode) (m : Mem) (state : BitVec 32) (buf len : Nat) : Prop where
  once : (addresses (merged (trace (crc32UpdateReads mode m state buf len)))).Perm
    (List.range' buf len)
  counter : prologue mode buf + lenLeft mode buf len = len

theorem initBytes_lt (buf : Nat) {align : Nat} (halign : 0 < align) : initBytes align buf < align := by
  unfold initBytes
  have hmod := Nat.mod_lt buf halign
  split <;> omega

/-- The counter can wrap, but it never loses bytes. -/
theorem le_lenAfter_add (buf : Nat) {align len : Nat} (hlen : len < 2 ^ 32) (halign : 0 < align)
    (hsmall : align ≤ 2 ^ 32) : len ≤ initBytes align buf + lenAfter align buf len := by
  have hinit := initBytes_lt buf halign
  unfold lenAfter
  omega

theorem prologue_add_lenLeft {mode : Crc32Mode} {buf len : Nat} (hlen : len < 2 ^ 32) :
    prologue mode buf + lenLeft mode buf len = len ↔ prologue mode buf ≤ len := by
  have hfour := initBytes_lt buf (by decide : 0 < 4)
  have height := initBytes_lt buf (by decide : 0 < 8)
  cases mode <;> simp only [prologue, lenLeft, lenAfter] <;> omega

theorem readsMessage_iff (mode : Crc32Mode) (m : Mem) (state : BitVec 32) (buf len : Nat)
    (hlen : len < 2 ^ 32) :
    ReadsMessage mode m state buf len ↔ prologue mode buf ≤ len := by
  rw [← prologue_add_lenLeft hlen]
  constructor
  · intro h
    have hperm := h.once
    rw [addresses_merged_crc32Update] at hperm
    simpa using hperm.length_eq
  · intro hcounter
    refine ⟨?_, hcounter⟩
    rw [addresses_merged_crc32Update, hcounter]

/-- With every mention of a word counted, the second word of each pair is read three times. -/
theorem addresses_crc32Update_perm_iff (mode : Crc32Mode) (m : Mem) (state : BitVec 32)
    (buf len : Nat) (hlen : len < 2 ^ 32) :
    (addresses (trace (crc32UpdateReads mode m state buf len))).Perm (List.range' buf len) ↔
      prologue mode buf ≤ len ∧ (mode = .big → len < prologue mode buf + 8) := by
  rw [← prologue_add_lenLeft hlen]
  cases mode with
  | default =>
      rw [crc32UpdateReads, addresses_crc32UpdateBy4, prologue, lenLeft]
      constructor
      · intro hperm
        exact ⟨by simpa using hperm.length_eq, nofun⟩
      · rintro ⟨heq, -⟩
        rw [heq]
  | small =>
      rw [crc32UpdateReads, crc32UpdateBy1Reads, addresses_crc32Bytes, prologue, lenLeft]
      simp
  | big =>
      rw [crc32UpdateReads, prologue, lenLeft]
      constructor
      · intro hperm
        have heq := hperm.length_eq
        rw [length_addresses_crc32UpdateBy8, List.length_range'] at heq
        have hle := le_lenAfter_add buf hlen (by decide : 0 < 8) (by decide)
        omega
      · rintro ⟨heq, hshort⟩
        have hleft := hshort rfl
        rw [addresses_crc32UpdateBy8_short m state (by omega), heq]

/-- For every mode, address and length, `crc32_update` reads its message exactly when the
message reaches the first aligned word; if each of the three mentions of a word in
`crc32_update_by8` counts, then moreover only when no pair of words follows. -/
theorem crc32Update_reads_message_iff (mode : Crc32Mode) (m : Mem) (state : BitVec 32)
    (buf len : Nat) (hlen : len < 2 ^ 32) :
    (ReadsMessage mode m state buf len ↔ prologue mode buf ≤ len) ∧
      ((addresses (trace (crc32UpdateReads mode m state buf len))).Perm (List.range' buf len) ↔
        prologue mode buf ≤ len ∧ (mode = .big → len < prologue mode buf + 8)) :=
  ⟨readsMessage_iff mode m state buf len hlen,
    addresses_crc32Update_perm_iff mode m state buf len hlen⟩

theorem crc32Update_reads_message_unaligned :
    9 < 2 ^ 32 ∧ ReadsMessage .big (fun _ => 0) 0 4097 9 :=
  ⟨by decide, (crc32Update_reads_message_iff .big _ _ 4097 9 (by decide)).1.mpr (by decide)⟩

/-- Two bytes at an odd address: the prologue reads three, and the counter wraps. -/
theorem not_readsMessage_two_bytes : ¬ ReadsMessage .default (fun _ => 0) 0xffffffff 4097 2 := by
  rw [readsMessage_iff .default _ _ 4097 2 (by decide)]
  decide

end OpenAAA.Crypto
