import OpenAAA.Lib.Rfc4648
import OpenAAA.Lib.Traced
import Mathlib.Data.List.GetD

/-!
`crypto/b64.c`: the base 64 encoder. The bytes at `src` are read by their offsets and
those at `dst` are written in memory; both kinds of accesses are recorded.
-/

namespace OpenAAA.B64

open Memory Traces Rfc4648

/-- The letters from `first` on. -/
def letters (first : Nat) : List Byte := (List.range 26).map fun i => BitVec.ofNat 8 (first + i)

/-- `b64_tab` -/
def b64Tab : List Byte :=
  letters 65 ++ letters 97 ++ [48, 49, 50, 51, 52, 53, 54, 55, 56, 57, 43, 47, 0]

/-- `b64_pad` -/
def b64Pad : Byte := 61

/-- `c[k]`, as the integer that it is promoted to. -/
def readSrc (src : List Byte) (c k : Nat) : Traced ByteEvent Nat :=
  record (.read (c + k)) ((src.getD (c + k) 0).toNat)

/-- `d[i++] = x`, and the new `i`. -/
def put (m : Mem) (d i : Nat) (x : Byte) : Traced ByteEvent (Nat × Mem) :=
  record (.write (d + i)) ((i + 1) % 2 ^ 32, write m (d + i) [x])

/-- `b64_enc` from its loop on: `c` is an offset in `src`. -/
def b64EncFrom (src : List Byte) (d c len i : Nat) (m : Mem) : Traced ByteEvent (Nat × Mem) :=
  if 2 < len then do
    let c0 ← readSrc src c 0
    let (i, m) ← put m d i (b64Tab.getD (c0 >>> 2) 0)
    let c0 ← readSrc src c 0
    let c1 ← readSrc src c 1
    let (i, m) ← put m d i (b64Tab.getD ((c0 &&& 0x03) <<< 4 + c1 >>> 4) 0)
    let c1 ← readSrc src c 1
    let c2 ← readSrc src c 2
    let (i, m) ← put m d i (b64Tab.getD ((c1 &&& 0x0f) <<< 2 + c2 >>> 6) 0)
    let c2 ← readSrc src c 2
    let (i, m) ← put m d i (b64Tab.getD (c2 &&& 0x3f) 0)
    b64EncFrom src d (c + 3) (len - 3) i m
  else if len ≠ 0 then do
    let c0 ← readSrc src c 0
    let (i, m) ← put m d i (b64Tab.getD (c0 >>> 2) 0)
    if 1 < len then do
      let c0 ← readSrc src c 0
      let c1 ← readSrc src c 1
      let (i, m) ← put m d i (b64Tab.getD ((c0 &&& 0x03) <<< 4 + c1 >>> 4) 0)
      let c1 ← readSrc src c 1
      let (i, m) ← put m d i (b64Tab.getD ((c1 &&& 0x0f) <<< 2) 0)
      put m d i b64Pad
    else do
      let c0 ← readSrc src c 0
      let (i, m) ← put m d i (b64Tab.getD ((c0 &&& 0x03) <<< 4) 0)
      let (i, m) ← put m d i b64Pad
      put m d i b64Pad
  else pure (i, m)
termination_by len

/-- `b64_enc` -/
def b64Enc (m : Mem) (dst : Nat) (src : List Byte) (len : Nat) : Traced ByteEvent (Nat × Mem) :=
  b64EncFrom src dst 0 len 0 m

/-- `b64_enc_len` -/
def b64EncLen (len : Nat) : Nat := (len + 2) % 2 ^ 32 / 3 * 4 % 2 ^ 32

/-! ## Characters -/

theorem b64Tab_eq_alphabet {v : Nat} (hv : v < 64) : b64Tab.getD v 0 = alphabet v := by
  revert v
  decide

section Sextets

variable (a b c : Byte)

theorem sextet_zero : a.toNat >>> 2 = sextet (group a b c) 0 := by
  have ha := a.isLt
  have hb := b.isLt
  have hc := c.isLt
  simp only [sextet, group, Nat.shiftRight_eq_div_pow]
  omega

theorem sextet_one :
    (a.toNat &&& 0x03) <<< 4 + b.toNat >>> 4 = sextet (group a b c) 1 := by
  have ha := a.isLt
  have hb := b.isLt
  have hc := c.isLt
  have hlow : a.toNat &&& 0x03 = a.toNat % 4 := Nat.and_two_pow_sub_one_eq_mod _ 2
  rw [hlow]
  simp only [sextet, group, Nat.shiftRight_eq_div_pow, Nat.shiftLeft_eq]
  omega

theorem sextet_two :
    (b.toNat &&& 0x0f) <<< 2 + c.toNat >>> 6 = sextet (group a b c) 2 := by
  have ha := a.isLt
  have hb := b.isLt
  have hc := c.isLt
  have hlow : b.toNat &&& 0x0f = b.toNat % 16 := Nat.and_two_pow_sub_one_eq_mod _ 4
  rw [hlow]
  simp only [sextet, group, Nat.shiftRight_eq_div_pow, Nat.shiftLeft_eq]
  omega

theorem sextet_three : c.toNat &&& 0x3f = sextet (group a b c) 3 := by
  have hlow : c.toNat &&& 0x3f = c.toNat % 64 := Nat.and_two_pow_sub_one_eq_mod _ 6
  rw [hlow]
  simp only [sextet, group]
  omega

/-- Without a third byte, and without a second one. -/
theorem sextet_two_last : (b.toNat &&& 0x0f) <<< 2 = sextet (group a b 0#8) 2 := by
  rw [← sextet_two]
  rfl

theorem sextet_one_last : (a.toNat &&& 0x03) <<< 4 = sextet (group a 0#8 0#8) 1 := by
  rw [← sextet_one]
  rfl

end Sextets

/-! ## The loop -/

section Loop

variable {src : List Byte} {d c len i : Nat} {m : Mem}

theorem put_eq (hi : i + 1 < 2 ^ 32) (x : Byte) :
    put m d i x = record (.write (d + i)) (i + 1, write m (d + i) [x]) := by
  rw [put, Nat.mod_eq_of_lt hi]

/-- Four characters that are put one after the other. -/
theorem write_four (m : Mem) (p : Nat) (w x y z : Byte) :
    write (write (write (write m p [w]) (p + 1) [x]) (p + 2) [y]) (p + 3) [z] =
      write m p [w, x, y, z] := by
  have htwo : write (write m p [w]) (p + 1) [x] = write m p [w, x] := write_write_append m p [w] [x]
  have hthree : write (write m p [w, x]) (p + 2) [y] = write m p [w, x, y] :=
    write_write_append m p [w, x] [y]
  have hfour : write (write m p [w, x, y]) (p + 3) [z] = write m p [w, x, y, z] :=
    write_write_append m p [w, x, y] [z]
  rw [htwo, hthree, hfour]

/-- A turn of the loop. -/
theorem b64EncFrom_turn (hlen : 2 < len) (hi : i + 4 < 2 ^ 32) :
    value (b64EncFrom src d c len i m) = value (b64EncFrom src d (c + 3) (len - 3) (i + 4)
        (write m (d + i) (encode [src.getD c 0, src.getD (c + 1) 0, src.getD (c + 2) 0]))) ∧
      trace (b64EncFrom src d c len i m) = [.read c, .write (d + i), .read c, .read (c + 1),
        .write (d + i + 1), .read (c + 1), .read (c + 2), .write (d + i + 2), .read (c + 2),
        .write (d + i + 3)] ++ trace (b64EncFrom src d (c + 3) (len - 3) (i + 4)
        (write m (d + i) (encode [src.getD c 0, src.getD (c + 1) 0, src.getD (c + 2) 0]))) := by
  rw [b64EncFrom, if_pos hlen]
  simp only [readSrc, value_bind, trace_bind, value_record, trace_record,
    put_eq (show i + 1 < 2 ^ 32 by omega), put_eq (show i + 1 + 1 < 2 ^ 32 by omega),
    put_eq (show i + 1 + 1 + 1 < 2 ^ 32 by omega), put_eq (show i + 1 + 1 + 1 + 1 < 2 ^ 32 by omega),
    Nat.add_zero, Nat.add_assoc, Nat.reduceAdd]
  rw [sextet_zero (src.getD c 0) (src.getD (c + 1) 0) (src.getD (c + 2) 0),
    sextet_one (src.getD c 0) (src.getD (c + 1) 0) (src.getD (c + 2) 0),
    sextet_two (src.getD c 0) (src.getD (c + 1) 0) (src.getD (c + 2) 0),
    sextet_three (src.getD c 0) (src.getD (c + 1) 0) (src.getD (c + 2) 0),
    b64Tab_eq_alphabet (sextet_lt _ _), b64Tab_eq_alphabet (sextet_lt _ _),
    b64Tab_eq_alphabet (sextet_lt _ _), b64Tab_eq_alphabet (sextet_lt _ _),
    ← Nat.add_assoc, ← Nat.add_assoc, ← Nat.add_assoc, write_four]
  exact ⟨rfl, rfl⟩

/-- Two bytes are left. -/
theorem b64EncFrom_two (hi : i + 4 < 2 ^ 32) :
    value (b64EncFrom src d c 2 i m) =
        (i + 4, write m (d + i) (encode [src.getD c 0, src.getD (c + 1) 0])) ∧
      trace (b64EncFrom src d c 2 i m) = [.read c, .write (d + i), .read c, .read (c + 1),
        .write (d + i + 1), .read (c + 1), .write (d + i + 2), .write (d + i + 3)] := by
  rw [b64EncFrom, if_neg (by decide), if_pos (by decide)]
  simp only [if_pos (show 1 < 2 by decide), readSrc, value_bind, trace_bind, value_record, trace_record,
    put_eq (show i + 1 < 2 ^ 32 by omega), put_eq (show i + 1 + 1 < 2 ^ 32 by omega),
    put_eq (show i + 1 + 1 + 1 < 2 ^ 32 by omega), put_eq (show i + 1 + 1 + 1 + 1 < 2 ^ 32 by omega),
    Nat.add_zero, Nat.add_assoc, Nat.reduceAdd]
  rw [sextet_zero (src.getD c 0) (src.getD (c + 1) 0) 0#8,
    sextet_one (src.getD c 0) (src.getD (c + 1) 0) 0#8,
    sextet_two_last (src.getD c 0) (src.getD (c + 1) 0),
    b64Tab_eq_alphabet (sextet_lt _ _), b64Tab_eq_alphabet (sextet_lt _ _),
    b64Tab_eq_alphabet (sextet_lt _ _),
    ← Nat.add_assoc, ← Nat.add_assoc, ← Nat.add_assoc, write_four]
  exact ⟨rfl, rfl⟩

/-- One byte is left. -/
theorem b64EncFrom_one (hi : i + 4 < 2 ^ 32) :
    value (b64EncFrom src d c 1 i m) = (i + 4, write m (d + i) (encode [src.getD c 0])) ∧
      trace (b64EncFrom src d c 1 i m) = [.read c, .write (d + i), .read c,
        .write (d + i + 1), .write (d + i + 2), .write (d + i + 3)] := by
  rw [b64EncFrom, if_neg (by decide), if_pos (by decide)]
  simp only [if_neg (show ¬ 1 < 1 by decide), readSrc, value_bind, trace_bind, value_record, trace_record,
    put_eq (show i + 1 < 2 ^ 32 by omega), put_eq (show i + 1 + 1 < 2 ^ 32 by omega),
    put_eq (show i + 1 + 1 + 1 < 2 ^ 32 by omega), put_eq (show i + 1 + 1 + 1 + 1 < 2 ^ 32 by omega),
    Nat.add_zero, Nat.add_assoc, Nat.reduceAdd]
  rw [sextet_zero (src.getD c 0) 0#8 0#8, sextet_one_last (src.getD c 0),
    b64Tab_eq_alphabet (sextet_lt _ _), b64Tab_eq_alphabet (sextet_lt _ _),
    ← Nat.add_assoc, ← Nat.add_assoc, ← Nat.add_assoc, write_four]
  exact ⟨rfl, rfl⟩

theorem b64EncFrom_none : b64EncFrom src d c 0 i m = pure (i, m) := by
  rw [b64EncFrom, if_neg (by decide), if_neg (by decide)]

theorem drop_eq_cons (h : c < src.length) : src.drop c = src.getD c 0 :: src.drop (c + 1) := by
  rw [List.drop_eq_getElem_cons h, List.getD_eq_getElem src 0 h]

/-- The encoding of the rest of `src` is put behind what is there already. The bytes
that are read are those of the rest, and every character is written once, in order. -/
theorem b64EncFrom_spec (hlen : c + len = src.length) (hi : i + (len + 2) / 3 * 4 < 2 ^ 32) :
    value (b64EncFrom src d c len i m) =
        (i + (len + 2) / 3 * 4, write m (d + i) (encode (src.drop c))) ∧
      (∀ a ∈ reads (trace (b64EncFrom src d c len i m)), c ≤ a ∧ a < src.length) ∧
      writes (trace (b64EncFrom src d c len i m)) = List.range' (d + i) ((len + 2) / 3 * 4) := by
  -- The induction follows the loop, which takes three bytes in every turn.
  induction len using Nat.strong_induction_on generalizing c i m with
  | _ len ih =>
      by_cases hfull : 2 < len
      · have hgroups : (len + 2) / 3 * 4 = 4 + (len - 3 + 2) / 3 * 4 := by omega
        obtain ⟨hvalue, htrace⟩ := @b64EncFrom_turn src d c len i m hfull (by omega)
        obtain ⟨hrest, hreads, hwrites⟩ := @ih (len - 3) (by omega) (c + 3) (i + 4)
          (write m (d + i) (encode [src.getD c 0, src.getD (c + 1) 0, src.getD (c + 2) 0]))
          (by omega) (by omega)
        have hdrop : src.drop c =
            src.getD c 0 :: src.getD (c + 1) 0 :: src.getD (c + 2) 0 :: src.drop (c + 3) := by
          rw [drop_eq_cons (by omega), drop_eq_cons (c := c + 1) (by omega),
            drop_eq_cons (c := c + 1 + 1) (by omega)]
        refine ⟨?_, ?_, ?_⟩
        · rw [hvalue, hrest, hdrop, hgroups, Nat.add_assoc i, ← Nat.add_assoc d i 4]
          exact congrArg (Prod.mk _) (write_write_append m (d + i) (encode _) _)
        · intro a ha
          rw [htrace] at ha
          simp only [List.cons_append, List.nil_append, reads, List.mem_cons] at ha
          rcases ha with ha | ha | ha | ha | ha | ha | ha
          all_goals first | omega | skip
          have hlate := hreads a ha
          omega
        · rw [htrace, hgroups, ← List.range'_append_1]
          simp only [List.cons_append, List.nil_append, writes, hwrites]
          rfl
      · have hshort : len = 0 ∨ len = 1 ∨ len = 2 := by omega
        rcases hshort with rfl | rfl | rfl
        · have hdrop : src.drop c = [] := List.drop_eq_nil_of_le (by omega)
          rw [b64EncFrom_none, hdrop]
          refine ⟨?_, ?_, rfl⟩
          · rw [value_pure, encode, write_nil]
            rfl
          · intro a ha
            simp [reads] at ha
        · obtain ⟨hvalue, htrace⟩ := @b64EncFrom_one src d c i m (by omega)
          have hdrop : src.drop c = [src.getD c 0] := by
            rw [drop_eq_cons (by omega), List.drop_eq_nil_of_le (by omega)]
          refine ⟨?_, ?_, ?_⟩
          · rw [hvalue, hdrop]
          · intro a ha
            rw [htrace] at ha
            simp only [reads, List.mem_cons, List.not_mem_nil, or_false] at ha
            omega
          · rw [htrace]
            rfl
        · obtain ⟨hvalue, htrace⟩ := @b64EncFrom_two src d c i m (by omega)
          have hdrop : src.drop c = [src.getD c 0, src.getD (c + 1) 0] := by
            rw [drop_eq_cons (by omega), drop_eq_cons (c := c + 1) (by omega),
              List.drop_eq_nil_of_le (by omega)]
          refine ⟨?_, ?_, ?_⟩
          · rw [hvalue, hdrop]
          · intro a ha
            rw [htrace] at ha
            simp only [reads, List.mem_cons, List.not_mem_nil, or_false] at ha
            omega
          · rw [htrace]
            rfl

end Loop

/-- `b64_enc` writes the encoding of `src` at `dst` and nothing else, each character once,
its result is the length that `b64_enc_len` tells, it reads no byte behind `src`, and what
it wrote decodes to `src`. -/
theorem b64Enc_encodes (m : Mem) (dst : Nat) (src : List Byte)
    (hlen : 4 * ((src.length + 2) / 3) < 2 ^ 32) :
    (value (b64Enc m dst src src.length)).1 = b64EncLen src.length ∧
      (value (b64Enc m dst src src.length)).1 = (encode src).length ∧
      (value (b64Enc m dst src src.length)).2 = write m dst (encode src) ∧
      (∀ a ∈ reads (trace (b64Enc m dst src src.length)), a < src.length) ∧
      writes (trace (b64Enc m dst src src.length)) = List.range' dst (b64EncLen src.length) ∧
      decode (read (value (b64Enc m dst src src.length)).2 dst
        (value (b64Enc m dst src src.length)).1) = some src := by
  have hencLen : b64EncLen src.length = (src.length + 2) / 3 * 4 := by
    rw [b64EncLen, Nat.mod_eq_of_lt (a := src.length + 2) (by omega), Nat.mod_eq_of_lt (by omega)]
  obtain ⟨hvalue, hreads, hwrites⟩ := @b64EncFrom_spec src dst 0 src.length 0 m (by omega)
    (by omega)
  rw [Nat.zero_add, List.drop_zero] at hvalue
  rw [b64Enc, hvalue, hencLen, encode_length]
  have hread := read_write_self m dst (encode src)
  rw [encode_length] at hread
  refine ⟨rfl, rfl, rfl, fun a ha => (hreads a ha).2, hwrites, ?_⟩
  calc
    decode (read (write m dst (encode src)) dst ((src.length + 2) / 3 * 4)) = decode (encode src) := by
      rw [hread]
    _ = some src := decode_encode src

/-- `Man` -/
theorem b64Enc_encodes_man :
    (value (b64Enc (fun _ => 0#8) 16 [77, 97, 110] 3)).2 =
      write (fun _ => 0#8) 16 [84, 87, 70, 117] := by
  have hchars : encode [77, 97, 110] = [84, 87, 70, 117] := by decide
  rw [← hchars]
  exact (b64Enc_encodes (fun _ => 0#8) 16 [77, 97, 110] (by decide)).2.2.1

end OpenAAA.B64
