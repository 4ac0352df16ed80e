import OpenAAA.Crypto.Sha1

/-!
`sha1.c` against the standard. `transform` is the compression function, with
the eighty words of the schedule in a ring of sixteen and the five variables
renamed from line to line. A context is `After` a message when its chaining
words are those of the whole blocks and its buffer has the rest; `sha1_update`
takes a context from one message to the next exactly when its chunk does not
end inside a block that an earlier chunk has begun, and otherwise it does not
return.
-/

namespace OpenAAA.Sha

open Memory Sys Fips180 BlockHash

theorem rol_eq (x : Word) {n : Nat} (hn : n < 32) : rol x n = x.rotateLeft n := by
  rw [BitVec.rotateLeft_def, Nat.mod_eq_of_lt hn, rol]

/-- `F1` chooses by the bits of `x`. -/
theorem F1_eq (x y z : Word) : F1 x y z = (x &&& y) ||| (~~~x &&& z) := by
  apply BitVec.eq_of_getLsbD_eq
  intro i hi
  simp only [F1, BitVec.getLsbD_xor, BitVec.getLsbD_and, BitVec.getLsbD_or, BitVec.getLsbD_not, hi,
    decide_true, Bool.true_and]
  cases x.getLsbD i <;> cases y.getLsbD i <;> cases z.getLsbD i <;> rfl

/-- `F3` is the majority of the bits. -/
theorem F3_eq (x y z : Word) : F3 x y z = (x &&& y) ||| (x &&& z) ||| (y &&& z) := by
  apply BitVec.eq_of_getLsbD_eq
  intro i _
  simp only [F3, BitVec.getLsbD_and, BitVec.getLsbD_or]
  cases x.getLsbD i <;> cases y.getLsbD i <;> cases z.getLsbD i <;> rfl

theorem line_eq (i : Nat) (b c d : Word) : (line i).1 b c d = f i b c d ∧ (line i).2 = k i := by
  simp only [line, f, k]
  split_ifs <;> simp [F1_eq, F2, F3_eq, F4]

/-- The variables in the order in which the line `i` names them. -/
def view (i : Nat) (v : Words) : Words :=
  match vars i with
  | (a, b, c, d, e) => ⟨get v a, get v b, get v c, get v d, get v e⟩

/-- After a line, the next one names what the standard's assignments give. -/
theorem view_R (i : Nat) (v : Words) (g : Word → Word → Word → Word) (k₀ m : Word) :
    (match vars i with | (a, b, c, d, e) => view (i + 1) (R v a b c d e g k₀ m)) =
      ⟨(view i v).e + (rol (view i v).a 5 + g (view i v).b (view i v).c (view i v).d + k₀ + m),
        (view i v).a, rol (view i v).b 30, (view i v).c, (view i v).d⟩ := by
  have hmod : i % 5 < 5 := Nat.mod_lt _ (by decide)
  have hnext : (i + 1) % 5 = (i % 5 + 1) % 5 := by omega
  interval_cases hi : i % 5 <;> simp [view, vars, hi, hnext, R, get, set]

/-- The ring has the last sixteen words of the schedule that were used, at first the block. -/
def Ring (x w : List Word) (i : Nat) : Prop :=
  x.length = 16 ∧ ∀ t, t < max i 16 → max i 16 ≤ t + 16 → x.getD (t % 16) 0 = w.getD t 0

theorem xor_reverse (a b c d : Word) : a ^^^ b ^^^ c ^^^ d = d ^^^ c ^^^ b ^^^ a := by
  ac_rfl

theorem add_in_order (r g e m k₀ : Word) : e + (r + g + k₀ + m) = r + g + e + m + k₀ := by
  ac_rfl

/-- The word a line uses, and the ring after it. -/
def lineWord (x : List Word) (i : Nat) : Word × List Word :=
  if i < 16 then (x.getD i 0, x) else M x i

section Rounds

variable {w : List Word} (hw : ∀ t, 16 ≤ t → t < 80 → w.getD t 0 =
  (w.getD (t - 3) 0 ^^^ w.getD (t - 8) 0 ^^^ w.getD (t - 14) 0 ^^^ w.getD (t - 16) 0).rotateLeft 1)
include hw

/-- The word of a line is that of the schedule, and the ring keeps it. -/
theorem Ring.word {x : List Word} {i : Nat} (h : Ring x w i) (hi : i < 80) :
    (lineWord x i).1 = w.getD i 0 ∧ Ring (lineWord x i).2 w (i + 1) := by
  obtain ⟨hlen, hold⟩ := h
  by_cases hlt : i < 16
  · have hmod : i % 16 = i := Nat.mod_eq_of_lt hlt
    have hword := hold i (by omega) (by omega)
    rw [hmod] at hword
    rw [lineWord, if_pos hlt]
    refine ⟨hword, hlen, ?_⟩
    intro t ht ht'
    exact hold t (by omega) (by omega)
  · have hge : 16 ≤ i := by omega
    have hmod : i % 16 = (i - 16) % 16 := by omega
    have hword : (M x i).1 = w.getD i 0 := by
      rw [hw i hge hi, M, rol_eq _ (by decide), hmod, hold (i - 16) (by omega) (by omega),
        hold (i - 14) (by omega) (by omega), hold (i - 8) (by omega) (by omega),
        hold (i - 3) (by omega) (by omega), xor_reverse]
    rw [lineWord, if_neg hlt]
    refine ⟨hword, by simp [M, hlen], ?_⟩
    intro t ht ht'
    rw [M] at hword ⊢
    by_cases heq : t = i
    · subst heq
      rw [← hword, List.getD_eq_getElem?_getD, List.getElem?_set_self (by omega)]
      rfl
    · have hne : i % 16 ≠ t % 16 := by omega
      rw [List.getD_eq_getElem?_getD, List.getElem?_set_ne hne, ← List.getD_eq_getElem?_getD]
      exact hold t (by omega) (by omega)

omit hw in
theorem round_eq (s : Words × List Word) (i : Nat) :
    view (i + 1) (round s i).1 =
        ⟨(view i s.1).a.rotateLeft 5 + f i (view i s.1).b (view i s.1).c (view i s.1).d +
          (view i s.1).e + (lineWord s.2 i).1 + k i, (view i s.1).a,
            (view i s.1).b.rotateLeft 30, (view i s.1).c, (view i s.1).d⟩ ∧
      (round s i).2 = (lineWord s.2 i).2 := by
  have hview := view_R i s.1 (line i).1 (line i).2 (lineWord s.2 i).1
  obtain ⟨hf, hk⟩ := line_eq i (view i s.1).b (view i s.1).c (view i s.1).d
  rw [hf, hk, rol_eq _ (by decide), rol_eq _ (by decide)] at hview
  rw [add_in_order] at hview
  constructor
  · rw [← hview]
    rcases hv : vars i with ⟨a, b, c, d, e⟩
    simp only [round, hv, lineWord, hk]
  · rfl

theorem rounds_eq {v : Words} {x : List Word} (hx : Ring x w 0) {i : Nat} (hi : i ≤ 80) :
    view i ((List.range i).foldl round (v, x)).1 = (List.range i).foldl (turn w) v ∧
      Ring ((List.range i).foldl round (v, x)).2 w i := by
  induction i with
  | zero => exact ⟨rfl, hx⟩
  | succ i ih =>
      obtain ⟨hview, hring⟩ := ih (by omega)
      obtain ⟨hword, hkeep⟩ := hring.word hw (by omega)
      rw [List.range_succ, List.foldl_append, List.foldl_append, List.foldl_cons, List.foldl_nil,
        List.foldl_cons, List.foldl_nil, ← hview]
      generalize (List.range i).foldl round (v, x) = s at hword hkeep ⊢
      obtain ⟨hround, hring⟩ := round_eq s i
      rw [hround, hring, hword]
      exact ⟨rfl, hkeep⟩

end Rounds

/-- The chaining words of a context. -/
def chain (s : Sha1) : Words := ⟨s.h0, s.h1, s.h2, s.h3, s.h4⟩

theorem ofNat_getU32Be {data : Mem} {block : List Byte} (hdata : ∀ j < 64, data j = block.getD j 0)
    {t : Nat} (ht : t < 16) : BitVec.ofNat 32 (getU32Be data (4 * t)) = wordAt block t := by
  have hlt : getU32Be data (4 * t) < 2 ^ 32 := by
    have h0 := (data (4 * t)).isLt
    have h1 := (data (4 * t + 1)).isLt
    have h2 := (data (4 * t + 2)).isLt
    have h3 := (data (4 * t + 3)).isLt
    rw [getU32Be_eq]
    omega
  apply BitVec.eq_of_toNat_eq
  rw [BitVec.toNat_ofNat, Nat.mod_eq_of_lt hlt, getU32Be, hdata _ (by omega), hdata _ (by omega),
    hdata _ (by omega), hdata _ (by omega)]
  simp only [wordAt, BitVec.toNat_append, Nat.shiftLeft_or_distrib, ← Nat.shiftLeft_add]

/-- `transform` is the compression function. -/
theorem chain_transform {s : Sha1} {data : Mem} {block : List Byte}
    (hdata : ∀ j < 64, data j = block.getD j 0) :
    chain (transform s data) = compress (chain s) block := by
  have hx : Ring ((List.range 16).map fun i => BitVec.ofNat 32 (getU32Be data (4 * i)))
      (schedule block) 0 := by
    refine ⟨by simp, ?_⟩
    intro t ht _
    have hlt : t < 16 := by omega
    rw [schedule_getD_lt block hlt, Nat.mod_eq_of_lt hlt, ← ofNat_getU32Be hdata hlt]
    simp [hlt]
  have hrounds := (rounds_eq (fun t => schedule_getD_ge block) (v := chain s) hx
    (le_refl 80)).1
  have hlast : ∀ v, view 80 v = v := fun _ => rfl
  rw [hlast] at hrounds
  rw [compress, ← hrounds]
  rfl

/-- The context has taken in `n` blocks of the message and keeps the bytes behind them. -/
structure After (s : Sha1) (m : List Byte) (n : Nat) : Prop where
  chain : chain s = absorb compress 64 n initial m
  nblocks : s.nblocks = BitVec.ofNat 32 n
  length : m.length = 64 * n + s.count
  buf : ∀ j < s.count, s.buf j = m.getD (64 * n + j) 0

theorem after_sha1Init (s : Sha1) : After (sha1Init s) [] 0 :=
  ⟨rfl, rfl, rfl, fun j hj => absurd hj (Nat.not_lt_zero j)⟩

section Steps

variable {s : Sha1} {m bs : List Byte} {n : Nat}

theorem After.push (h : After s m n) (b : Byte) : After (push s b) (m ++ [b]) n := by
  have hlen := h.length
  refine ⟨?_, h.nblocks, ?_, ?_⟩
  · rw [absorb_append compress 64 (by omega)]
    exact h.chain
  · simp [Sha.push, hlen, Nat.add_assoc]
  · intro j hj
    simp only [Sha.push] at hj ⊢
    by_cases heq : j = s.count
    · subst heq
      rw [Function.update_self, ← hlen, List.getD_append_right _ _ _ _ (le_refl _), Nat.sub_self]
      rfl
    · rw [Function.update_of_ne heq, List.getD_append _ _ _ _ (by omega)]
      exact h.buf j (by omega)

/-- The buffer takes bytes until it is full or there are no more. -/
theorem After.fill (h : After s m n) (bs : List Byte) (hcount : s.count ≤ 64) :
    After (fill s bs).1 (m ++ bs.take (64 - s.count)) n ∧
      (fill s bs).1.count = s.count + min (64 - s.count) bs.length ∧
        (fill s bs).2 = bs.drop (64 - s.count) := by
  induction bs generalizing s m with
  | nil => simpa [Sha.fill] using h
  | cons b bs ih =>
      by_cases hlt : s.count < 64
      · have hpushed : (Sha.push s b).count = s.count + 1 := rfl
        obtain ⟨hafter, hnew, hrest⟩ := ih (h.push b) (by omega)
        rw [hpushed] at hafter hnew hrest
        have hstep : 64 - s.count = 64 - (s.count + 1) + 1 := by omega
        rw [Sha.fill, if_pos hlt, hstep, List.take_succ_cons, List.drop_succ_cons, hrest]
        refine ⟨?_, ?_, rfl⟩
        · simpa using hafter
        · rw [hnew, List.length_cons]
          omega
      · have hfull : 64 - s.count = 0 := by omega
        rw [Sha.fill, if_neg hlt, hfull]
        simpa using h

theorem chain_transformBlock {data : Mem} {block : List Byte}
    (hdata : ∀ j < 64, data j = block.getD j 0) :
    Sha.chain (transformBlock s data) = compress (Sha.chain s) block :=
  chain_transform hdata

/-- A full buffer is taken in. -/
theorem After.flush (h : After s m n) (hcount : s.count = 64) :
    After (transformBlock s s.buf) m (n + 1) := by
  have hlen := h.length
  have hdata : ∀ j < 64, s.buf j = ((m.drop (64 * n)).take 64).getD j 0 := by
    intro j hj
    rw [h.buf j (by omega), List.getD_eq_getElem?_getD, List.getD_eq_getElem?_getD,
      List.getElem?_take_of_lt hj, List.getElem?_drop]
  refine ⟨?_, ?_, ?_, ?_⟩
  · rw [chain_transformBlock hdata, h.chain, absorb_succ]
  · simp [transformBlock, h.nblocks, BitVec.ofNat_add]
  · simp only [transformBlock]
    omega
  · intro j hj
    exact absurd hj (Nat.not_lt_zero j)

/-- A block is taken in from the caller's buffer. -/
theorem After.takeBlock (h : After s m n) (hcount : s.count = 0) (hlen : 64 ≤ bs.length) :
    After (transformBlock s (bytesAt bs)) (m ++ bs.take 64) (n + 1) := by
  have hm := h.length
  have hblock : (bs.take 64).length = 64 := by
    rw [List.length_take]
    omega
  have hdata : ∀ j < 64, bytesAt bs j = (bs.take 64).getD j 0 := by
    intro j hj
    rw [bytesAt, List.getD_eq_getElem?_getD, List.getD_eq_getElem?_getD,
      List.getElem?_take_of_lt hj]
  refine ⟨?_, ?_, ?_, ?_⟩
  · rw [chain_transformBlock hdata, h.chain, absorb_block compress 64 (by omega) hblock]
  · simp [transformBlock, h.nblocks, BitVec.ofNat_add]
  · rw [List.length_append, hblock]
    simp only [transformBlock]
    omega
  · intro j hj
    exact absurd hj (Nat.not_lt_zero j)

/-- The loop over whole blocks leaves less than a block. -/
theorem After.wholeBlocks (h : After s m n) (bs : List Byte) (hcount : s.count = 0) :
    ∃ done n', bs = done ++ (wholeBlocks s bs).2 ∧ After (wholeBlocks s bs).1 (m ++ done) n' ∧
      (wholeBlocks s bs).1.count = 0 ∧ (wholeBlocks s bs).2.length < 64 := by
  induction s, bs using wholeBlocks.induct generalizing m n with
  | case1 s bs hlen ih =>
      obtain ⟨done, n', hdone, hafter, hzero, hrest⟩ := ih (h.takeBlock hcount hlen) rfl
      rw [Sha.wholeBlocks, if_pos hlen]
      refine ⟨bs.take 64 ++ done, n', ?_, ?_, hzero, hrest⟩
      · rw [List.append_assoc, ← hdone, List.take_append_drop]
      · rwa [← List.append_assoc]
  | case2 s bs hlen =>
      rw [Sha.wholeBlocks, if_neg hlen]
      exact ⟨[], n, by simp, by simpa using h, hcount, Nat.lt_of_not_le hlen⟩

/-- What `sha1_update` does with a buffer that is empty. -/
theorem After.taken (h : After s m n) (bs : List Byte) (hcount : s.count = 0) :
    ∃ n', After (Sha.fill (Sha.wholeBlocks s bs).1 (Sha.wholeBlocks s bs).2).1 (m ++ bs) n' ∧
      (Sha.fill (Sha.wholeBlocks s bs).1 (Sha.wholeBlocks s bs).2).1.count < 64 := by
  obtain ⟨done, n', hdone, hafter, hzero, hrest⟩ := h.wholeBlocks bs hcount
  obtain ⟨hfilled, hnew, -⟩ := hafter.fill (Sha.wholeBlocks s bs).2 (by omega)
  rw [hzero] at hfilled hnew
  rw [List.take_of_length_le (by omega), List.append_assoc, ← hdone] at hfilled
  exact ⟨n', hfilled, by omega⟩

theorem sha1Update_of_empty (hcount : s.count = 0) (fuel : Nat) : sha1Update (fuel + 1) s bs =
    some (Sha.fill (Sha.wholeBlocks s bs).1 (Sha.wholeBlocks s bs).2).1 := by
  have hne : s.count ≠ 64 := by omega
  rw [sha1Update, if_neg hne, if_neg (by simpa using hcount)]

theorem sha1Update_of_begun (hbegun : s.count ≠ 0) (hcount : s.count < 64) (fuel : Nat) :
    sha1Update (fuel + 1) s bs = (sha1Update fuel (Sha.fill s bs).1 []).bind fun s' =>
      if (Sha.fill s bs).2 = [] then some s'
      else some (Sha.fill (Sha.wholeBlocks s' (Sha.fill s bs).2).1
        (Sha.wholeBlocks s' (Sha.fill s bs).2).2).1 := by
  rw [sha1Update, if_neg (Nat.ne_of_lt hcount), if_pos hbegun]

/-- With a block begun and nothing to fill it with, `sha1_update` calls itself for ever. -/
theorem sha1Update_nil_eq_none (hbegun : s.count ≠ 0) (hcount : s.count < 64) (fuel : Nat) :
    sha1Update fuel s [] = none := by
  induction fuel with
  | zero => rfl
  | succ fuel ih =>
      rw [sha1Update_of_begun hbegun hcount, Sha.fill, ih]
      rfl

/-- With a full buffer it returns. -/
theorem sha1Update_nil_of_full (hfull : s.count = 64) (fuel : Nat) :
    sha1Update (fuel + 1) s [] = some (transformBlock s s.buf) := by
  rw [sha1Update, if_pos hfull, if_neg (by simp [transformBlock]), Sha.wholeBlocks]
  rfl

/-- A result does not depend on how many calls may be nested. -/
theorem sha1Update_succ {s' : Sha1} {fuel : Nat} (h : sha1Update fuel s bs = some s') :
    sha1Update (fuel + 1) s bs = some s' := by
  induction fuel generalizing s bs s' with
  | zero => simp [sha1Update] at h
  | succ fuel ih =>
      rw [sha1Update] at h ⊢
      split_ifs at h ⊢ with hfull hbegun hbegun
      all_goals first
        | exact h
        | (obtain ⟨t, hnested, hrest⟩ := Option.bind_eq_some_iff.mp h
           exact Option.bind_eq_some_iff.mpr ⟨t, ih hnested, hrest⟩)

/-- A chunk that does not end inside a block begun before it is taken in. -/
theorem After.update (h : After s m n) (hcount : s.count < 64)
    (hreach : s.count = 0 ∨ 64 ≤ s.count + bs.length) (fuel : Nat) :
    ∃ s' n', sha1Update (fuel + 2) s bs = some s' ∧ After s' (m ++ bs) n' ∧ s'.count < 64 := by
  by_cases hzero : s.count = 0
  · obtain ⟨n', hafter, hlt⟩ := h.taken bs hzero
    exact ⟨_, n', sha1Update_of_empty hzero _, hafter, hlt⟩
  · obtain ⟨hfilled, hnew, hrest⟩ := h.fill bs (Nat.le_of_lt hcount)
    have hfull : (Sha.fill s bs).1.count = 64 := by omega
    have hflushed := hfilled.flush hfull
    rw [sha1Update_of_begun hzero hcount, sha1Update_nil_of_full hfull, hrest, Option.bind_some]
    by_cases hnil : bs.drop (64 - s.count) = []
    · have hall : bs.take (64 - s.count) = bs := by
        have happend := List.take_append_drop (64 - s.count) bs
        rwa [hnil, List.append_nil] at happend
      rw [hall] at hflushed
      rw [if_pos hnil]
      exact ⟨_, n + 1, rfl, hflushed, by simp [transformBlock]⟩
    · obtain ⟨n', hafter, hlt⟩ := hflushed.taken (bs.drop (64 - s.count)) rfl
      rw [List.append_assoc, List.take_append_drop] at hafter
      rw [if_neg hnil]
      exact ⟨_, n', rfl, hafter, hlt⟩

/-- A chunk that ends inside a block begun before it is never done with. -/
theorem After.update_none (h : After s m n) (hbegun : s.count ≠ 0)
    (hshort : s.count + bs.length < 64) (fuel : Nat) : sha1Update fuel s bs = none := by
  have hcount : s.count < 64 := by omega
  cases fuel with
  | zero => rfl
  | succ fuel =>
      obtain ⟨-, hnew, -⟩ := h.fill bs (Nat.le_of_lt hcount)
      rw [sha1Update_of_begun hbegun hcount, sha1Update_nil_eq_none (by omega) (by omega)]
      rfl

theorem After.zeroTo (h : After s m n) (bound : Nat) (hto : s.count ≤ bound) :
    After (zeroTo bound s) (m ++ List.replicate (bound - s.count) 0) n ∧ (zeroTo bound s).count = bound := by
  induction s using Sha.zeroTo.induct bound generalizing m with
  | case1 s hlt ih =>
      have hpushed : (Sha.push s 0).count = s.count + 1 := rfl
      obtain ⟨hafter, hnew⟩ := ih (h.push 0) (by omega)
      have hstep : bound - s.count = bound - (s.count + 1) + 1 := by omega
      rw [hpushed] at hafter
      rw [Sha.zeroTo, if_pos hlt, hstep, List.replicate_succ]
      exact ⟨by simpa using hafter, hnew⟩
  | case2 s hlt =>
      have hsame : bound - s.count = 0 := by omega
      rw [Sha.zeroTo, if_neg hlt, hsame]
      exact ⟨by simpa using h, by omega⟩

/-- Whenever the call returns, the chunk is taken in. -/
theorem After.of_update {s' : Sha1} {fuel : Nat} (h : After s m n) (hcount : s.count < 64)
    (hupdate : sha1Update fuel s bs = some s') : ∃ n', After s' (m ++ bs) n' ∧ s'.count < 64 := by
  by_cases hreach : s.count = 0 ∨ 64 ≤ s.count + bs.length
  · obtain ⟨t, n', hreturn, hafter, hlt⟩ := h.update hcount hreach fuel
    obtain rfl : s' = t := by
      rw [sha1Update_succ (sha1Update_succ hupdate)] at hreturn
      exact Option.some.inj hreturn
    exact ⟨n', hafter, hlt⟩
  · obtain ⟨hbegun, hshort⟩ := not_or.mp hreach
    rw [h.update_none hbegun (by omega)] at hupdate
    exact absurd hupdate (by simp)

end Steps

/-- The length in bits as two words, where the buffer is empty. -/
theorem bitLength_of_whole {s : Sha1} {n : Nat} (hcount : s.count = 0)
    (hblocks : s.nblocks = BitVec.ofNat 32 n) (hn : n < 2 ^ 32) :
    (bitLength s).1.toNat = 512 * n / 2 ^ 32 ∧ (bitLength s).2.toNat = 512 * n % 2 ^ 32 := by
  have hwords : bitLength s = ((s.nblocks >>> 26) <<< 3 ||| (s.nblocks <<< 6) >>> 29,
      s.nblocks <<< 6 <<< 3) := by
    have hirrefl : ¬ s.nblocks <<< 6 < s.nblocks <<< 6 := BitVec.lt_irrefl _
    simp only [bitLength, hcount, BitVec.add_zero, if_neg hirrefl]
  rw [hwords]
  have ht : s.nblocks.toNat = n := by
    rw [hblocks, BitVec.toNat_ofNat, Nat.mod_eq_of_lt hn]
  have hlow : (s.nblocks <<< 6).toNat = n * 64 % 2 ^ 32 := by
    rw [BitVec.toNat_shiftLeft, ht, Nat.shiftLeft_eq]
  have hhigh : (s.nblocks >>> 26).toNat = n / 2 ^ 26 := by
    rw [BitVec.toNat_ushiftRight, ht, Nat.shiftRight_eq_div_pow]
  constructor
  · have hbits : (n * 64 % 2 ^ 32) >>> 29 < 2 ^ 3 := by
      rw [Nat.shiftRight_eq_div_pow]
      omega
    have hfit : (n / 2 ^ 26) <<< 3 < 2 ^ 32 := by
      rw [Nat.shiftLeft_eq]
      omega
    rw [BitVec.toNat_or, BitVec.toNat_shiftLeft, hhigh, BitVec.toNat_ushiftRight, hlow,
      Nat.mod_eq_of_lt hfit, ← Nat.shiftLeft_add_eq_or_of_lt hbits, Nat.shiftLeft_eq,
      Nat.shiftRight_eq_div_pow]
    omega
  · rw [BitVec.toNat_shiftLeft, hlow, Nat.shiftLeft_eq]
    omega

theorem storeWord_apply (buf : Mem) (at₀ i : Nat) (x : Word) (hi : i < 4) :
    storeWord buf at₀ x (at₀ + i) = BitVec.ofNat 8 (x.toNat >>> (8 * (3 - i))) := by
  rw [storeWord, write, if_pos (Nat.le_add_right _ _), Nat.add_sub_cancel_left]
  obtain rfl | rfl | rfl | rfl : i = 0 ∨ i = 1 ∨ i = 2 ∨ i = 3 := by omega
  all_goals
    apply BitVec.eq_of_toNat_eq
    simp [BitVec.toNat_setWidth, BitVec.toNat_ushiftRight]

theorem storeWord_apart (buf : Mem) {at₀ j : Nat} (x : Word) (hj : j < at₀ ∨ at₀ + 4 ≤ j) :
    storeWord buf at₀ x j = buf j :=
  write_changesOnly buf at₀ _ j hj

theorem read_putWords (s : Sha1) : read (putWords s) 0 20 = digest (chain s) := by
  have hput : ∀ (m : Mem) p (x : Word), putU32Be m p x.toNat = write m p (wordBytes x) :=
    fun _ _ _ => rfl
  have hread : ∀ (m : Mem) p x, read (write m p (wordBytes x)) 0 (p + 4) =
      read m 0 p ++ wordBytes x := by
    intro m p x
    have happend := read_write_append m 0 p (wordBytes x)
    rwa [Nat.zero_add] at happend
  simp only [putWords, hput]
  rw [hread _ 16, hread _ 12, hread _ 8, hread _ 4, hread _ 0]
  rfl

theorem read_lastBlock (s : Sha1) {buf : Mem} {block : List Byte}
    (hdata : ∀ j < 64, buf j = block.getD j 0) :
    read (putWords (transform { s with buf := buf } buf)) 0 20 =
      digest (compress (chain s) block) := by
  rw [read_putWords, chain_transform hdata]
  rfl

section Final

variable {s : Sha1} {m : List Byte} {n : Nat}

theorem sha1Final_eq_none (hbegun : s.count ≠ 0) (hcount : s.count < 64) (fuel : Nat) :
    sha1Final fuel s = none := by
  rw [sha1Final, sha1Update_nil_eq_none hbegun hcount]
  rfl

theorem lengthBytes_getD (bits : Nat) {i : Nat} (hi : i < 8) :
    (lengthBytes bits).getD i 0 = BitVec.ofNat 8 (bits >>> (8 * (7 - i))) := by
  simp [lengthBytes, hi]

theorem padding_of_whole (hlen : m.length = 64 * n) : padding m.length =
    0x80 :: (List.replicate 55 0 ++ lengthBytes (512 * n)) := by
  have hmod : (119 - m.length % 64) % 64 = 55 := by omega
  have hbits : 8 * m.length = 512 * n := by omega
  rw [padding, hmod, hbits]

/-- The last block in the buffer: the bits of the length behind the padding. -/
theorem After.lastBlock (h : After s (m ++ (0x80 :: List.replicate 55 0)) n) (hcount : s.count = 56)
    (hn : n < 2 ^ 32) {msb lsb : Word} (hmsb : msb.toNat = 512 * n / 2 ^ 32)
    (hlsb : lsb.toNat = 512 * n % 2 ^ 32) :
    ∀ j < 64, storeWord (storeWord s.buf 56 msb) 60 lsb j = (padding m.length).getD j 0 := by
  have hm : m.length = 64 * n := by
    have hlen := h.length
    simp only [List.length_append, List.length_cons, List.length_replicate] at hlen
    omega
  rw [padding_of_whole hm]
  intro j hj
  by_cases h56 : j < 56
  · rw [storeWord_apart _ _ (by omega), storeWord_apart _ _ (by omega), h.buf j (by omega),
      List.getD_append_right _ _ _ _ (by omega), hm, Nat.add_sub_cancel_left, ← List.cons_append,
      List.getD_append _ _ _ _ (by simp; omega)]
  · obtain ⟨i, rfl⟩ := Nat.exists_eq_add_of_le (Nat.le_of_not_lt h56)
    have hi : i < 8 := by omega
    rw [← List.cons_append, List.getD_append_right _ _ _ _ (by simp)]
    simp only [List.length_cons, List.length_replicate, Nat.add_sub_cancel_left, Nat.reduceAdd]
    rw [lengthBytes_getD _ hi]
    apply BitVec.eq_of_toNat_eq
    by_cases h4 : i < 4
    · rw [storeWord_apart _ _ (by omega), storeWord_apply _ _ _ _ h4, hmsb]
      interval_cases i <;>
        simp only [BitVec.toNat_ofNat, Nat.shiftRight_eq_div_pow] <;> omega
    · have hsplit : 56 + i = 60 + (i - 4) := by omega
      rw [hsplit, storeWord_apply _ _ _ _ (by omega), hlsb]
      interval_cases i <;>
        simp only [BitVec.toNat_ofNat, Nat.shiftRight_eq_div_pow] <;> omega

/-- On whole blocks `sha1_final` gives the digest. -/
theorem After.final (h : After s m n) (hcount : s.count = 0) (hn : n < 2 ^ 32) (fuel : Nat) :
    ∃ p, sha1Final (fuel + 1) s = some p ∧ read p 0 20 = sha1 m := by
  have hm : m.length = 64 * n := by
    have hlen := h.length
    omega
  have hidle : sha1Update (fuel + 1) s [] = some s := by
    rw [sha1Update_of_empty hcount, Sha.wholeBlocks]
    rfl
  obtain ⟨hpadded, hfilled⟩ := (h.push 0x80).zeroTo 56 (by simp [Sha.push, hcount])
  have hpushed : (Sha.push s 0x80).count = 1 := by simp [Sha.push, hcount]
  rw [hpushed, List.append_assoc, List.singleton_append] at hpadded
  obtain ⟨hmsb, hlsb⟩ := bitLength_of_whole hcount h.nblocks hn
  have hdata := hpadded.lastBlock hfilled hn hmsb hlsb
  have hblock : (padding m.length).length = 64 := by
    simp [padding_of_whole hm, lengthBytes]
  have hchain : absorb compress 64 ((m ++ padding m.length).length / 64) initial
      (m ++ padding m.length) = compress (absorb compress 64 n initial m) (padding m.length) := by
    have hcount' : (m ++ padding m.length).length / 64 = n + 1 := by
      rw [List.length_append, hblock]
      omega
    rw [hcount', absorb_block compress 64 hm hblock]
  have hkept : Sha.chain (Sha.zeroTo 56 (Sha.push s 0x80)) = absorb compress 64 n initial m := by
    rw [hpadded.chain, absorb_append compress 64 (by omega)]
  rw [sha1Final, hidle, Option.bind_some, if_pos (by omega), Option.map_some]
  refine ⟨_, rfl, ?_⟩
  rw [sha1, hchain, ← hkept]
  exact read_lastBlock _ hdata

end Final

/-- No chunk ends inside a block that an earlier one has begun, and the last block is whole. -/
def EndsBlocks (start : Nat) : List Buffer → Prop
  | [] => start % 64 = 0
  | c :: chunks => (start % 64 = 0 ∨ 64 ≤ start % 64 + c.bytes.length) ∧
      EndsBlocks (start + c.bytes.length) chunks

/-- The calls return, and the buffer begins with the digest of the message. -/
def ComputesSha1 (s : Sha1) (chunks : List Buffer) : Prop :=
  ∃ fuel p, sha1Digest fuel s chunks = some p ∧ read p 0 20 = sha1 (message chunks)

section Runs

variable {s : Sha1} {m : List Byte} {n : Nat} {chunks : List Buffer}

theorem After.count_eq (h : After s m n) (hcount : s.count < 64) : s.count = m.length % 64 := by
  have hlen := h.length
  omega

theorem After.updates (h : After s m n) (hcount : s.count < 64)
    (hends : EndsBlocks m.length chunks) (fuel : Nat) :
    ∃ s' n', sha1Updates (fuel + 2) s chunks = some s' ∧ After s' (m ++ message chunks) n' ∧
      s'.count = 0 := by
  induction chunks generalizing s m n with
  | nil =>
      refine ⟨s, n, rfl, ?_, ?_⟩
      · simpa [message] using h
      · rw [h.count_eq hcount]
        exact hends
  | cons c chunks ih =>
      obtain ⟨hreach, hrest⟩ := hends
      rw [← h.count_eq hcount] at hreach
      obtain ⟨s', n', hupdate, hafter, hlt⟩ := h.update hcount hreach fuel
      obtain ⟨s'', n'', hupdates, hlast, hzero⟩ := ih hafter hlt (by simpa using hrest)
      refine ⟨s'', n'', ?_, ?_, hzero⟩
      · rw [sha1Updates, List.foldlM_cons, hupdate]
        exact hupdates
      · simpa [message] using hlast

/-- Otherwise one of the calls does not return. -/
theorem After.updates_none (h : After s m n) (hcount : s.count < 64)
    (hends : ¬ EndsBlocks m.length chunks) (fuel : Nat) :
    (sha1Updates fuel s chunks).bind (sha1Final fuel) = none := by
  induction chunks generalizing s m n with
  | nil =>
      rw [EndsBlocks, ← h.count_eq hcount] at hends
      exact sha1Final_eq_none hends hcount fuel
  | cons c chunks ih =>
      rw [EndsBlocks, ← h.count_eq hcount, not_and_or] at hends
      rw [sha1Updates, List.foldlM_cons]
      cases hupdate : sha1Update fuel s c.bytes with
      | none => rfl
      | some s' =>
          obtain ⟨n', hafter, hlt⟩ := h.of_update hcount hupdate
          rcases hends with hreach | hrest
          · obtain ⟨hbegun, hshort⟩ := not_or.mp hreach
            rw [h.update_none hbegun (by omega)] at hupdate
            exact absurd hupdate (by simp)
          · exact ih hafter hlt (by simpa using hrest)

theorem not_computesSha1_of_not_endsBlocks (s : Sha1) (hends : ¬ EndsBlocks 0 chunks) :
    ¬ ComputesSha1 s chunks := by
  rintro ⟨fuel, p, hreturn, -⟩
  rw [sha1Digest, (after_sha1Init s).updates_none (by simp [sha1Init]) hends] at hreturn
  exact absurd hreturn (by simp)

end Runs

/-- The digest is computed if and only if no chunk ends inside a block that an earlier one has
begun and the message is made of whole blocks. -/
theorem sha1_digest_iff_endsBlocks (s : Sha1) (chunks : List Buffer)
    (htotal : (message chunks).length < 2 ^ 38) :
    (ComputesSha1 s chunks ↔ EndsBlocks 0 chunks) ∧
      ∀ fuel c, sha1Hash fuel s c = (sha1Digest fuel s [c]).map fun p => read p 0 20 := by
  constructor
  · constructor
    · intro hcomputes
      by_contra hends
      exact not_computesSha1_of_not_endsBlocks s hends hcomputes
    · intro hends
      obtain ⟨s', n, hupdates, hafter, hzero⟩ :=
        (after_sha1Init s).updates (by simp [sha1Init]) hends 0
      have hn : n < 2 ^ 32 := by
        have hlen := hafter.length
        rw [List.nil_append] at hlen
        omega
      obtain ⟨p, hfinal, hdigest⟩ := hafter.final hzero hn 1
      refine ⟨2, p, ?_, hdigest⟩
      rw [sha1Digest, hupdates]
      exact hfinal
  · intro fuel c
    rw [sha1Hash, sha1Digest, sha1Updates, List.foldlM_cons]
    cases sha1Update fuel (sha1Init s) c.bytes with
    | none => rfl
    | some s' => rfl

/-- A context that nothing was written to. -/
def blank : Sha1 := ⟨0, 0, 0, 0, 0, 0, fun _ => 0, 0⟩

/-- A message of one block, in two chunks of which the second ends the block. -/
theorem sha1_digest_of_one_block :
    EndsBlocks 0 [⟨List.replicate 60 0, by simp⟩, ⟨List.replicate 4 0, by simp⟩] ∧
      ComputesSha1 blank [⟨List.replicate 60 0, by simp⟩, ⟨List.replicate 4 0, by simp⟩] := by
  have hends : EndsBlocks 0 [⟨List.replicate 60 0, by simp⟩, ⟨List.replicate 4 0, by simp⟩] := by
    simp [EndsBlocks]
  exact ⟨hends, (sha1_digest_iff_endsBlocks blank _ (by simp [message])).1.mpr hends⟩

/-- The three bytes of "abc". -/
def abc : Buffer := ⟨[0x61, 0x62, 0x63], by simp⟩

/-- `sha1_final` does not return for a message of three bytes. -/
theorem not_computesSha1_abc : (message [abc]).length < 2 ^ 38 ∧ ¬ ComputesSha1 blank [abc] := by
  refine ⟨by simp [message, abc], not_computesSha1_of_not_endsBlocks blank ?_⟩
  simp [EndsBlocks, abc]

end OpenAAA.Sha
