import OpenAAA.Lib.Memory
import OpenAAA.Lib.Traced

/-!
`mem/stack.h`: hexadecimal text on the stack. `stk_hex_enc` makes two characters of
every byte, `stk_hex_dec` a byte of every two characters. The decoder allocates half
as many bytes as it is given characters, but takes a turn for every character. The
accesses of both loops are recorded; the addresses that `alloca` returns are arguments.
-/

namespace OpenAAA.Stack

open Memory Traces

/-- `*p` -/
def readByte (m : Mem) (p : Nat) : Traced ByteEvent Byte := record (.read p) (m p)

/-- `*p = x` -/
def writeByte (m : Mem) (p x : Nat) : Traced ByteEvent Mem :=
  record (.write p) (write m p [BitVec.ofNat 8 x])

/-- `hex_make` -/
def hexMake (x : Nat) : Nat := if x < 10 then x + 48 else x - 10 + 97

/-- The loop of `stk_hex_enc` and the byte that ends the text. -/
def stkHexEncFrom (src dest : Nat) : Nat → Mem → Traced ByteEvent Mem
  | 0, m => writeByte m dest 0
  | bytes + 1, m => do
      let b ← readByte m src
      let m ← writeByte m dest (hexMake (b.toNat >>> 4))
      let b ← readByte m src
      let m ← writeByte m (dest + 1) (hexMake (b.toNat &&& 0x0f))
      stkHexEncFrom (src + 1) (dest + 2) bytes m

/-- `stk_hex_enc(addr, bytes)` into `dest`. -/
def stkHexEnc (m : Mem) (addr bytes dest : Nat) : Traced ByteEvent Mem := stkHexEncFrom addr dest bytes m

/-- `toupper` -/
def toupper (c : Nat) : Nat := if 97 ≤ c ∧ c ≤ 122 then c - 32 else c

/-- `hex_parse`, with unsigned integers. -/
def hexParse (c : Nat) : Nat :=
  let c := (toupper c + 2 ^ 32 - 48) % 2 ^ 32
  if c < 10 then c else (c + 2 ^ 32 - 7) % 2 ^ 32

/-- The loop of `stk_hex_dec`. -/
def stkHexDecFrom (src dest : Nat) : Nat → Mem → Traced ByteEvent Mem
  | 0, m => pure m
  | bytes + 1, m => do
      let high ← readByte m src
      let low ← readByte m (src + 1)
      let m ← writeByte m dest ((hexParse high.toNat <<< 4 % 2 ^ 32) ||| hexParse low.toNat)
      stkHexDecFrom (src + 2) (dest + 1) bytes m

/-- `stk_hex_dec(addr, bytes)` into `dest`, which has room for half as many bytes. -/
def stkHexDec (m : Mem) (addr bytes dest : Nat) : Traced ByteEvent Mem := stkHexDecFrom addr dest bytes m

/-! ## What the text denotes -/

/-- A hexadecimal digit, of either case. -/
def digitValue (c : Byte) : Option Nat :=
  if 48 ≤ c.toNat ∧ c.toNat ≤ 57 then some (c.toNat - 48)
  else if 65 ≤ c.toNat ∧ c.toNat ≤ 70 then some (c.toNat - 55)
  else if 97 ≤ c.toNat ∧ c.toNat ≤ 102 then some (c.toNat - 87)
  else none

/-- The bytes that pairs of digits denote. -/
def denoted : List Byte → Option (List Byte)
  | [] => some []
  | [_] => none
  | high :: low :: text => do
      let h ← digitValue high
      let l ← digitValue low
      let rest ← denoted text
      pure (BitVec.ofNat 8 (16 * h + l) :: rest)

/-- The decoder keeps to the `2 * n` characters and to the `n` bytes of its buffer. -/
def KeepsToBuffers (events : List ByteEvent) (src dest n : Nat) : Prop :=
  (∀ a ∈ reads events, src ≤ a ∧ a < src + 2 * n) ∧ writes events = List.range' dest n

/-- Texts of `2 * n` characters: what is encoded is decoded, and so are all digits, with no
access beside the buffers. -/
structure HexSound (n : Nat) : Prop where
  roundTrip : ∀ (m : Mem) (addr text dest : Nat), Apart addr n text (2 * n + 1) →
    Apart text (2 * n + 1) dest n → Apart addr n dest n →
      let run := stkHexDec (value (stkHexEnc m addr n text)) text (2 * n) dest
      Memory.read (value run) dest n = Memory.read m addr n ∧
        KeepsToBuffers (trace run) text dest n
  digits : ∀ (m : Mem) (text dest : Nat) (bytes : List Byte), Apart text (2 * n) dest n →
    denoted (Memory.read m text (2 * n)) = some bytes →
      Memory.read (value (stkHexDec m text (2 * n) dest)) dest n = bytes

/-! ## Digits -/

theorem digitValue_lt {c : Byte} {v : Nat} (h : digitValue c = some v) : v < 16 := by
  unfold digitValue at h
  split at h
  · have hv := Option.some.inj h
    omega
  · split at h
    · have hv := Option.some.inj h
      omega
    · split at h
      · have hv := Option.some.inj h
        omega
      · cases h

theorem hexParse_digit {c : Byte} {v : Nat} (h : digitValue c = some v) : hexParse c.toNat = v := by
  unfold digitValue at h
  unfold hexParse
  dsimp only
  split at h
  · have hv := Option.some.inj h
    have hupper : toupper c.toNat = c.toNat := if_neg (by omega)
    have hsub : (toupper c.toNat + 2 ^ 32 - 48) % 2 ^ 32 = v := by omega
    rw [hsub, if_pos (by omega)]
  · split at h
    · have hv := Option.some.inj h
      have hupper : toupper c.toNat = c.toNat := if_neg (by omega)
      have hsub : (toupper c.toNat + 2 ^ 32 - 48) % 2 ^ 32 = v + 7 := by omega
      rw [hsub, if_neg (by omega)]
      omega
    · split at h
      · have hv := Option.some.inj h
        have hupper : toupper c.toNat = c.toNat - 32 := if_pos (by omega)
        have hsub : (toupper c.toNat + 2 ^ 32 - 48) % 2 ^ 32 = v + 7 := by omega
        rw [hsub, if_neg (by omega)]
        omega
      · cases h

theorem digitValue_hexMake {x : Nat} (hx : x < 16) :
    digitValue (BitVec.ofNat 8 (hexMake x)) = some x := by
  interval_cases x
  all_goals decide

/-- The byte that the decoder makes of two digits. -/
theorem parsed_eq {high low : Byte} {h l : Nat} (hh : digitValue high = some h)
    (hl : digitValue low = some l) :
    (hexParse high.toNat <<< 4 % 2 ^ 32) ||| hexParse low.toNat = 16 * h + l := by
  have hhlt := digitValue_lt hh
  have hllt := digitValue_lt hl
  rw [hexParse_digit hh, hexParse_digit hl, Nat.shiftLeft_eq, Nat.mod_eq_of_lt (by omega),
    ← Nat.shiftLeft_eq, ← Nat.shiftLeft_add_eq_or_of_lt (by omega), Nat.shiftLeft_eq]
  omega

/-! ## Accesses -/

/-- A turn of the decoder's loop. -/
theorem trace_stkHexDecFrom_succ (src dest n : Nat) (m : Mem) :
    trace (stkHexDecFrom src dest (n + 1) m) = .read src :: .read (src + 1) :: .write dest ::
      trace (stkHexDecFrom (src + 2) (dest + 1) n (write m dest [BitVec.ofNat 8
        ((hexParse (m src).toNat <<< 4 % 2 ^ 32) ||| hexParse (m (src + 1)).toNat)])) := rfl

theorem value_stkHexDecFrom_succ (src dest n : Nat) (m : Mem) :
    value (stkHexDecFrom src dest (n + 1) m) =
      value (stkHexDecFrom (src + 2) (dest + 1) n (write m dest [BitVec.ofNat 8
        ((hexParse (m src).toNat <<< 4 % 2 ^ 32) ||| hexParse (m (src + 1)).toNat)])) := rfl

/-- The decoder writes a byte for every character. -/
theorem writes_stkHexDecFrom (src dest n : Nat) (m : Mem) :
    writes (trace (stkHexDecFrom src dest n m)) = List.range' dest n := by
  induction n generalizing src dest m with
  | zero => rfl
  | succ n ih =>
      rw [trace_stkHexDecFrom_succ]
      simp [writes, ih, List.range'_succ]

/-! ## Values -/

theorem stkHexDecFrom_changesOnly (src dest n : Nat) (m : Mem) :
    ChangesOnly m (value (stkHexDecFrom src dest n m)) dest n := by
  induction n generalizing src dest m with
  | zero => exact fun x _ => rfl
  | succ n ih =>
      rw [value_stkHexDecFrom_succ]
      have hwrite := (write_changesOnly m dest [BitVec.ofNat 8
        ((hexParse (m src).toNat <<< 4 % 2 ^ 32) ||| hexParse (m (src + 1)).toNat)]).mono
          (b := dest) (k := n + 1) (by unfold Inside; simp)
      exact hwrite.trans ((ih (src + 2) (dest + 1) _).mono (by unfold Inside; omega))

theorem read_succ (m : Mem) (a n : Nat) : Memory.read m a (n + 1) = m a :: Memory.read m (a + 1) n := by
  rw [Nat.add_comm, read_append]
  rfl

/-- The first bytes that the decoder writes, of as many turns as there are pairs of digits and
any number of turns behind them. -/
theorem stkHexDecFrom_denoted {src dest n : Nat} (more : Nat) {m : Mem} {bytes : List Byte}
    (hapart : Apart src (2 * n) dest n)
    (hbytes : denoted (Memory.read m src (2 * n)) = some bytes) :
    Memory.read (value (stkHexDecFrom src dest (n + more) m)) dest n = bytes := by
  induction n generalizing src dest m bytes with
  | zero => exact Option.some.inj hbytes
  | succ n ih =>
      have hpair : Memory.read m src (2 * (n + 1)) =
          m src :: m (src + 1) :: Memory.read m (src + 2) (2 * n) := by
        rw [show 2 * (n + 1) = 2 * n + 1 + 1 by ring, read_succ, read_succ]
      rw [hpair] at hbytes
      simp only [denoted, Option.bind_eq_bind, Option.bind_eq_some_iff, Option.pure_def,
        Option.some.injEq] at hbytes
      obtain ⟨h, hh, l, hl, rest, hrest, rfl⟩ := hbytes
      rw [show n + 1 + more = n + more + 1 by ring, value_stkHexDecFrom_succ, parsed_eq hh hl,
        read_succ]
      generalize hstep : write m dest [BitVec.ofNat 8 (16 * h + l)] = m'
      have hkept : Agree m m' (src + 2) (2 * n) := by
        rw [← hstep]
        apply write_agree
        unfold Apart at *
        simp only [List.length_singleton]
        omega
      have hfirst : value (stkHexDecFrom (src + 2) (dest + 1) (n + more) m') dest =
          BitVec.ofNat 8 (16 * h + l) := by
        rw [stkHexDecFrom_changesOnly (src + 2) (dest + 1) (n + more) m' dest (Or.inl (by omega)),
          ← hstep]
        simp [write]
      rw [hfirst, ih (by unfold Apart at *; omega) (by rw [read_of_agree hkept]; exact hrest)]

/-! ## The encoder -/

theorem value_stkHexEncFrom_succ (src dest n : Nat) (m : Mem) :
    value (stkHexEncFrom src dest (n + 1) m) =
      let m' := write m dest [BitVec.ofNat 8 (hexMake ((m src).toNat >>> 4))]
      value (stkHexEncFrom (src + 1) (dest + 2) n
        (write m' (dest + 1) [BitVec.ofNat 8 (hexMake ((m' src).toNat &&& 0x0f))])) := rfl

theorem stkHexEncFrom_changesOnly (src dest n : Nat) (m : Mem) :
    ChangesOnly m (value (stkHexEncFrom src dest n m)) dest (2 * n + 1) := by
  induction n generalizing src dest m with
  | zero => exact write_changesOnly m dest [0]
  | succ n ih =>
      rw [value_stkHexEncFrom_succ]
      dsimp only
      have hfirst := (write_changesOnly m dest
        [BitVec.ofNat 8 (hexMake ((m src).toNat >>> 4))]).mono (b := dest) (k := 2 * (n + 1) + 1)
          (by unfold Inside; simp only [List.length_singleton]; omega)
      have hsecond := fun m' b => (write_changesOnly m' (dest + 1) [b]).mono (b := dest)
        (k := 2 * (n + 1) + 1) (by unfold Inside; simp only [List.length_singleton]; omega)
      exact (hfirst.trans (hsecond _ _)).trans ((ih _ _ _).mono (by unfold Inside; omega))

/-- The text denotes the bytes it was made of. -/
theorem denoted_stkHexEncFrom {src dest n : Nat} {m : Mem} (hapart : Apart src n dest (2 * n + 1)) :
    denoted (Memory.read (value (stkHexEncFrom src dest n m)) dest (2 * n)) =
      some (Memory.read m src n) := by
  induction n generalizing src dest m with
  | zero => rfl
  | succ n ih =>
      have hbound := (m src).isLt
      rw [value_stkHexEncFrom_succ]
      generalize hm₁ : write m dest [BitVec.ofNat 8 (hexMake ((m src).toNat >>> 4))] = m₁
      have hagree₁ : Agree m m₁ src (n + 1) := by
        rw [← hm₁]
        apply write_agree
        unfold Apart at *
        simp only [List.length_singleton]
        omega
      have hsrc : m₁ src = m src := hagree₁ src le_rfl (by omega)
      dsimp only
      rw [hsrc]
      generalize hm₂ : write m₁ (dest + 1) [BitVec.ofNat 8 (hexMake ((m src).toNat &&& 0x0f))] = m₂
      have hagree₂ : Agree m₁ m₂ (src + 1) n := by
        rw [← hm₂]
        apply write_agree
        unfold Apart at *
        simp only [List.length_singleton]
        omega
      have hrest := @ih (src + 1) (dest + 2) m₂ (by unfold Apart at *; omega)
      rw [read_of_agree hagree₂, read_of_agree (hagree₁.mono (by unfold Inside; omega))] at hrest
      have hkept := stkHexEncFrom_changesOnly (src + 1) (dest + 2) n m₂
      have hhigh : value (stkHexEncFrom (src + 1) (dest + 2) n m₂) dest =
          BitVec.ofNat 8 (hexMake ((m src).toNat >>> 4)) := by
        rw [hkept dest (Or.inl (by omega)), ← hm₂, write_changesOnly m₁ (dest + 1) _ dest
          (Or.inl (by omega)), ← hm₁]
        simp [write]
      have hlow : value (stkHexEncFrom (src + 1) (dest + 2) n m₂) (dest + 1) =
          BitVec.ofNat 8 (hexMake ((m src).toNat &&& 0x0f)) := by
        rw [hkept (dest + 1) (Or.inl (by omega)), ← hm₂]
        simp [write]
      have hnibble : (m src).toNat &&& 0x0f = (m src).toNat % 16 :=
        Nat.and_two_pow_sub_one_eq_mod _ 4
      have hbyte : BitVec.ofNat 8 (16 * ((m src).toNat / 16) + (m src).toNat % 16) = m src := by
        rw [Nat.div_add_mod]
        simp
      rw [show 2 * (n + 1) = 2 * n + 1 + 1 by ring, read_succ, read_succ, hhigh, hlow, hnibble,
        Nat.shiftRight_eq_div_pow, denoted, digitValue_hexMake (by omega),
        digitValue_hexMake (by omega), read_succ, hrest]
      simp [hbyte]

/-! ## Texts -/

/-- The text that the encoder makes is decoded to the bytes it was made of. -/
theorem stkHexDec_stkHexEnc {m : Mem} {addr text dest n : Nat} (hsrc : Apart addr n text (2 * n + 1))
    (hdest : Apart text (2 * n + 1) dest n) :
    Memory.read (value (stkHexDec (value (stkHexEnc m addr n text)) text (2 * n) dest)) dest n =
      Memory.read m addr n := by
  rw [stkHexDec, show 2 * n = n + n by ring]
  refine stkHexDecFrom_denoted n (by unfold Apart at *; omega) ?_
  exact denoted_stkHexEncFrom hsrc

/-- The decoder is right about the bytes, and keeps to its buffers for the empty text only. -/
theorem hexSound_iff (n : Nat) : HexSound n ↔ n = 0 := by
  constructor
  · intro h
    have hrun := h.roundTrip (fun _ => 0) 0 n (3 * n + 1) (by unfold Apart; omega)
      (by unfold Apart; omega) (by unfold Apart; omega)
    have hwrites := hrun.2.2
    rw [stkHexDec, writes_stkHexDecFrom] at hwrites
    have hlength := congrArg List.length hwrites
    rw [List.length_range', List.length_range'] at hlength
    omega
  · rintro rfl
    refine ⟨fun m addr text dest hsrc hdest _ => ⟨stkHexDec_stkHexEnc hsrc hdest, nofun, rfl⟩, ?_⟩
    exact fun m text dest bytes hdest hbytes => stkHexDecFrom_denoted 0 hdest hbytes

/-- One byte: its text is decoded with two bytes written into a buffer of one. -/
theorem not_hexSound_one : ¬ HexSound 1 := by
  intro h
  have hrun := h.roundTrip (fun _ => 0xab) 0 1 4 (by decide) (by decide) (by decide)
  exact absurd hrun.2.2 (by decide)

end OpenAAA.Stack
