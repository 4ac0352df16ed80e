import OpenAAA.Lib.Memory

/-!
The base 64 encoding of RFC 4648, section 4. Three bytes form a group of 24 bits that
is cut into four values of six bits, each of which is a character of the alphabet; the
last group is filled up with zero bits and with pads.
-/

namespace OpenAAA.Rfc4648

open Memory

/-- The character of a value of six bits. -/
def alphabet (v : Nat) : Byte :=
  if v < 26 then BitVec.ofNat 8 (65 + v)
  else if v < 52 then BitVec.ofNat 8 (97 + (v - 26))
  else if v < 62 then BitVec.ofNat 8 (48 + (v - 52))
  else if v = 62 then 43
  else 47

/-- `=` -/
def pad : Byte := 61

/-- The `i`-th of the four values of a group of 24 bits. -/
def sextet (group i : Nat) : Nat := group / 64 ^ (3 - i) % 64

/-- Three bytes as a group of 24 bits. -/
def group (a b c : Byte) : Nat := a.toNat * 65536 + b.toNat * 256 + c.toNat

def encode : List Byte → List Byte
  | [] => []
  | [a] => [alphabet (sextet (group a 0#8 0#8) 0), alphabet (sextet (group a 0#8 0#8) 1), pad, pad]
  | [a, b] => [alphabet (sextet (group a b 0#8) 0), alphabet (sextet (group a b 0#8) 1),
      alphabet (sextet (group a b 0#8) 2), pad]
  | a :: b :: c :: rest =>
      alphabet (sextet (group a b c) 0) :: alphabet (sextet (group a b c) 1) ::
        alphabet (sextet (group a b c) 2) :: alphabet (sextet (group a b c) 3) :: encode rest

/-- The value of a character of the alphabet. -/
def sextetOf (c : Byte) : Option Nat :=
  if 65 ≤ c.toNat ∧ c.toNat ≤ 90 then some (c.toNat - 65)
  else if 97 ≤ c.toNat ∧ c.toNat ≤ 122 then some (c.toNat - 97 + 26)
  else if 48 ≤ c.toNat ∧ c.toNat ≤ 57 then some (c.toNat - 48 + 52)
  else if c = 43 then some 62
  else if c = 47 then some 63
  else none

/-- The three bytes of four values. -/
def bytesOf (w x y z : Nat) : List Byte :=
  let group := ((w * 64 + x) * 64 + y) * 64 + z
  [BitVec.ofNat 8 (group / 65536), BitVec.ofNat 8 (group / 256), BitVec.ofNat 8 group]

/-- Groups of four characters. Only the last one has pads, and nothing comes after it. -/
def decode : List Byte → Option (List Byte)
  | [] => some []
  | w :: x :: y :: z :: rest =>
      if z = pad then
        if rest ≠ [] then none
        else if y = pad then do
          pure ((bytesOf (← sextetOf w) (← sextetOf x) 0 0).take 1)
        else do
          pure ((bytesOf (← sextetOf w) (← sextetOf x) (← sextetOf y) 0).take 2)
      else do
        let bytes := bytesOf (← sextetOf w) (← sextetOf x) (← sextetOf y) (← sextetOf z)
        pure (bytes ++ (← decode rest))
  | _ => none

theorem sextet_lt (group i : Nat) : sextet group i < 64 := Nat.mod_lt _ (by decide)

theorem sextetOf_alphabet {v : Nat} (hv : v < 64) : sextetOf (alphabet v) = some v := by
  revert v
  decide

theorem alphabet_ne_pad {v : Nat} (hv : v < 64) : alphabet v ≠ pad := by
  revert v
  decide

theorem group_lt (a b c : Byte) : group a b c < 2 ^ 24 := by
  have ha := a.isLt
  have hb := b.isLt
  have hc := c.isLt
  unfold group
  omega

/-- The values of a group give its bytes back. -/
theorem bytesOf_sextets (a b c : Byte) :
    bytesOf (sextet (group a b c) 0) (sextet (group a b c) 1) (sextet (group a b c) 2)
      (sextet (group a b c) 3) = [a, b, c] := by
  have ha := a.isLt
  have hb := b.isLt
  have hc := c.isLt
  have hgroup : ((sextet (group a b c) 0 * 64 + sextet (group a b c) 1) * 64 +
      sextet (group a b c) 2) * 64 + sextet (group a b c) 3 = group a b c := by
    have hlt := group_lt a b c
    simp only [sextet]
    omega
  have hfirst : BitVec.ofNat 8 (group a b c / 65536) = a := by
    apply BitVec.eq_of_toNat_eq
    rw [BitVec.toNat_ofNat]
    unfold group
    omega
  have hsecond : BitVec.ofNat 8 (group a b c / 256) = b := by
    apply BitVec.eq_of_toNat_eq
    rw [BitVec.toNat_ofNat]
    unfold group
    omega
  have hthird : BitVec.ofNat 8 (group a b c) = c := by
    apply BitVec.eq_of_toNat_eq
    rw [BitVec.toNat_ofNat]
    unfold group
    omega
  rw [bytesOf, hgroup, hfirst, hsecond, hthird]

/-- The zero bits that fill up a group. -/
theorem sextet_filled (a b : Byte) :
    sextet (group a b 0#8) 3 = 0 ∧ sextet (group a 0#8 0#8) 2 = 0 ∧ sextet (group a 0#8 0#8) 3 = 0 := by
  have hb := b.isLt
  simp only [sextet, group, BitVec.toNat_ofNat]
  omega

/-- Decoding recovers what was encoded. -/
theorem decode_encode (bytes : List Byte) : decode (encode bytes) = some bytes := by
  induction bytes using encode.induct with
  | case1 => rfl
  | case2 a =>
      have hbytes := bytesOf_sextets a 0#8 0#8
      rw [(sextet_filled a 0#8).2.1, (sextet_filled a 0#8).2.2] at hbytes
      simp [encode, decode, sextetOf_alphabet (sextet_lt _ _), hbytes]
  | case3 a b =>
      have hbytes := bytesOf_sextets a b 0#8
      rw [(sextet_filled a b).1] at hbytes
      simp [encode, decode, sextetOf_alphabet (sextet_lt _ _), alphabet_ne_pad (sextet_lt _ _), hbytes]
  | case4 a b c rest ih =>
      simp [encode, decode, sextetOf_alphabet (sextet_lt _ _), alphabet_ne_pad (sextet_lt _ _),
        bytesOf_sextets, ih]

theorem encode_length (bytes : List Byte) : (encode bytes).length = (bytes.length + 2) / 3 * 4 := by
  induction bytes using encode.induct with
  | case1 => rfl
  | case2 a => simp [encode]
  | case3 a b => simp [encode]
  | case4 a b c rest ih =>
      simp only [encode, List.length_cons, ih]
      omega

end OpenAAA.Rfc4648
