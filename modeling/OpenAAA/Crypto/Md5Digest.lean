import OpenAAA.Lib.Rfc1321
import OpenAAA.Crypto.Md5Hmac

/-!
`md5.c` against RFC 1321. The standard turns its four words after every operation where the
lines of `md5_transform` name other variables. A context that took in the chunks of a message
has the blocks of the message in its chaining words, whatever the chunks were.
-/

namespace OpenAAA.Md5

open Memory Sys BlockHash

/-! ## The compression function -/

theorem F1_eq_F (x y z : Word) : F1 x y z = Rfc1321.F x y z := by
  apply BitVec.eq_of_getLsbD_eq
  intro i hi
  simp only [F1, Rfc1321.F, BitVec.getLsbD_xor, BitVec.getLsbD_and, BitVec.getLsbD_or,
    BitVec.getLsbD_not, hi, decide_true, Bool.true_and]
  cases x.getLsbD i <;> cases y.getLsbD i <;> cases z.getLsbD i <;> rfl

theorem F2_eq_G (x y z : Word) : F2 x y z = Rfc1321.G x y z := by
  apply BitVec.eq_of_getLsbD_eq
  intro i hi
  simp only [F2, F1, Rfc1321.G, BitVec.getLsbD_xor, BitVec.getLsbD_and, BitVec.getLsbD_or,
    BitVec.getLsbD_not, hi, decide_true, Bool.true_and]
  cases x.getLsbD i <;> cases y.getLsbD i <;> cases z.getLsbD i <;> rfl

/-- The functions of the four rounds. -/
theorem auxiliary_eq (i : Nat) (x y z : Word) :
    (if i < 16 then F1 else if i < 32 then F2 else if i < 48 then F3 else F4) x y z =
      Rfc1321.auxiliary i x y z := by
  unfold Rfc1321.auxiliary
  split_ifs
  · exact F1_eq_F x y z
  · exact F2_eq_G x y z
  · rfl
  · rfl

/-- Words, constants and shifts are those of the standard. -/
theorem steps_eq {i : Nat} (hi : i < 64) : steps.getD i (0, 0, 0) =
    (Rfc1321.index i, Rfc1321.table.getD i 0, Rfc1321.shift i) := by
  revert i
  decide

theorem shift_lt (i : Nat) : Rfc1321.shift i < 32 := by
  have hmod : i % 4 = 0 ∨ i % 4 = 1 ∨ i % 4 = 2 ∨ i % 4 = 3 := by omega
  unfold Rfc1321.shift
  rcases hmod with h | h | h | h <;> rw [h] <;> split_ifs <;> decide

theorem index_lt (i : Nat) : Rfc1321.index i < 16 := by
  unfold Rfc1321.index
  split_ifs <;> omega

theorem blockWords_getD (block : List Byte) {k : Nat} (hk : k < 16) :
    (blockWords block).getD k 0 = Rfc1321.wordAt block k := by
  simp [blockWords, Rfc1321.wordAt, hk]

/-- `MD5STEP` is the assignment of an operation. -/
theorem md5Step_eq (f : Word → Word → Word → Word) (w x y z word constant : Word) {s : Nat}
    (hs : s < 32) : md5Step f w x y z (word + constant) s =
      x + (w + f x y z + word + constant).rotateLeft s := by
  have hsum : w + (f x y z + (word + constant)) = w + f x y z + word + constant := by
    simp only [BitVec.add_assoc]
  rw [md5Step, hsum, BitVec.rotateLeft_def, Nat.mod_eq_of_lt hs, BitVec.add_comm x]

/-- The variables in the order in which the line `i` names them. -/
def view (i : Nat) (v : Words) : Rfc1321.Words :=
  match i % 4 with
  | 0 => ⟨v.a, v.b, v.c, v.d⟩
  | 1 => ⟨v.d, v.a, v.b, v.c⟩
  | 2 => ⟨v.c, v.d, v.a, v.b⟩
  | _ => ⟨v.b, v.c, v.d, v.a⟩

theorem view_md5Line (block : List Byte) (v : Words) {i : Nat} (hi : i < 64) :
    view (i + 1) (md5Line (blockWords block) v i) = Rfc1321.operation block (view i v) i := by
  have hmod : i % 4 = 0 ∨ i % 4 = 1 ∨ i % 4 = 2 ∨ i % 4 = 3 := by omega
  have hword := blockWords_getD block (index_lt i)
  simp only [md5Line, steps_eq hi, hword]
  rcases hmod with h | h | h | h
  · have hnext : (i + 1) % 4 = 1 := by omega
    simp only [view, h, hnext, Rfc1321.operation, md5Step_eq _ _ _ _ _ _ _ (shift_lt i), auxiliary_eq]
  · have hnext : (i + 1) % 4 = 2 := by omega
    simp only [view, h, hnext, Rfc1321.operation, md5Step_eq _ _ _ _ _ _ _ (shift_lt i), auxiliary_eq]
  · have hnext : (i + 1) % 4 = 3 := by omega
    simp only [view, h, hnext, Rfc1321.operation, md5Step_eq _ _ _ _ _ _ _ (shift_lt i), auxiliary_eq]
  · have hnext : (i + 1) % 4 = 0 := by omega
    simp only [view, h, hnext, Rfc1321.operation, md5Step_eq _ _ _ _ _ _ _ (shift_lt i), auxiliary_eq]

theorem view_lines (block : List Byte) (v : Words) {n : Nat} (hn : n ≤ 64) :
    view n ((List.range n).foldl (md5Line (blockWords block)) v) =
      (List.range n).foldl (Rfc1321.operation block) (view 0 v) := by
  induction n with
  | zero => rfl
  | succ n ih =>
      rw [List.range_succ, List.foldl_append, List.foldl_append, List.foldl_cons, List.foldl_nil,
        List.foldl_cons, List.foldl_nil, view_md5Line block _ (by omega), ih (by omega)]

/-- `md5_transform` is the compression function. -/
theorem view_compress (h : Words) (block : List Byte) :
    view 0 (compress h block) = Rfc1321.compress (view 0 h) block := by
  have hlines := view_lines block h (le_refl 64)
  rw [Rfc1321.compress, ← hlines, compress, md5Transform]
  generalize (List.range 64).foldl (md5Line (blockWords block)) h = v
  rfl

theorem lengthBytes_eq (bits : Nat) : lengthBytes bits = Rfc1321.lengthBytes bits := by
  apply List.map_congr_left
  intro i hi
  have hi8 : i < 8 := List.mem_range.mp hi
  apply BitVec.eq_of_getLsbD_eq
  intro j hj
  have hlow : 8 * i + j < 64 := by omega
  simp only [BitVec.getLsbD_ofNat, Nat.testBit_shiftRight, Nat.testBit_mod_two_pow, hlow,
    decide_true, Bool.true_and]

theorem bufBytes_eq (v : Words) : bufBytes v = Rfc1321.wordBytes (view 0 v).a ++
    Rfc1321.wordBytes (view 0 v).b ++ Rfc1321.wordBytes (view 0 v).c ++
      Rfc1321.wordBytes (view 0 v).d := rfl

theorem md5_eq_rfc1321 (m : List Byte) : md5 m = Rfc1321.md5 m := by
  have hpadding : padding m.length = Rfc1321.padding m.length := by
    rw [padding, Rfc1321.padding, lengthBytes_eq]
  rw [md5, Rfc1321.md5, bufBytes_eq, hpadding, absorb_map compress 64 (view 0) view_compress]
  rfl

/-! ## The message in chunks -/

/-- One `md5_update` for each chunk. -/
def md5Updates (c : Context) (chunks : List Buffer) : Context :=
  chunks.foldl (fun c b => md5Update c (.bytes b.bytes) b.bytes.length) c

/-- A context goes from the message before the chunks to the message behind them. -/
theorem Chained.updates {c : Context} {m : List Byte} {n r : Nat} (h : Chained c m n r)
    (hr : r < 64) (hcounted : Counted c m) (chunks : List Buffer) :
    ∃ n' r', Chained (md5Updates c chunks) (m ++ chunks.flatMap Buffer.bytes) n' r' ∧ r' < 64 ∧
      Counted (md5Updates c chunks) (m ++ chunks.flatMap Buffer.bytes) := by
  induction chunks generalizing c m n r with
  | nil =>
      rw [List.flatMap_nil, List.append_nil]
      exact ⟨n, r, h, hr, hcounted⟩
  | cons b chunks ih =>
      obtain ⟨n₁, r₁, hafter, hlt, hbits⟩ := h.update hr hcounted b.short
      obtain ⟨n', r', hlast, hlast_lt, hlast_bits⟩ := ih hafter hlt hbits
      rw [List.append_assoc, ← List.flatMap_cons] at hlast hlast_bits
      exact ⟨n', r', hlast, hlast_lt, hlast_bits⟩

/-- Whatever was in the context and however the message is split, `md5_init`, one `md5_update`
for each chunk and `md5_final` return its digest. -/
theorem md5_of_chunks_eq_rfc1321 (c : Context) (chunks : List Buffer) :
    bufBytes (md5Final (md5Updates (md5Init c) chunks)).buf =
      Rfc1321.md5 (chunks.flatMap Buffer.bytes) := by
  obtain ⟨n, r, hafter, hlt, hcounted⟩ :=
    (chained_md5Init c).updates (by decide) (counted_md5Init c) chunks
  rw [List.nil_append] at hafter hcounted
  rw [hafter.final hlt hcounted, md5_eq_rfc1321]

end OpenAAA.Md5
