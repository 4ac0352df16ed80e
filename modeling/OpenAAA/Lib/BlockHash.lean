import Mathlib.Tactic

/-!
Hashing block by block. A compression function takes a chaining value and a
block; a message is taken in by the blocks it is made of. What matters to an
implementation that gets the message in pieces is how the blocks already taken
in relate to the bytes still to come.
-/

namespace OpenAAA.BlockHash

variable {σ β : Type*}

/-- The chaining value after the first `n` blocks of the message. -/
def absorb (compress : σ → List β → σ) (size : Nat) : Nat → σ → List β → σ
  | 0, h, _ => h
  | n + 1, h, m => absorb compress size n (compress h (m.take size)) (m.drop size)

variable (compress : σ → List β → σ) (size : Nat)

@[simp]
theorem absorb_zero (h : σ) (m : List β) : absorb compress size 0 h m = h := rfl

/-- The last block may be taken in apart. -/
theorem absorb_succ (n : Nat) (h : σ) (m : List β) : absorb compress size (n + 1) h m =
    compress (absorb compress size n h m) ((m.drop (size * n)).take size) := by
  induction n generalizing h m with
  | zero => simp [absorb]
  | succ n ih =>
      rw [absorb, ih]
      simp only [absorb, List.drop_drop]
      rw [Nat.mul_succ, Nat.add_comm]

/-- What follows the blocks does not matter. -/
theorem absorb_append {n : Nat} {m : List β} (hlen : size * n ≤ m.length) (h : σ) (rest : List β) :
    absorb compress size n h (m ++ rest) = absorb compress size n h m := by
  induction n generalizing h m with
  | zero => rfl
  | succ n ih =>
      rw [Nat.mul_succ] at hlen
      have hsize : size ≤ m.length := by omega
      rw [absorb, absorb, List.take_append_of_le_length hsize, List.drop_append_of_le_length hsize,
        ih (by rw [List.length_drop]; omega)]

/-- A block put behind whole blocks. -/
theorem absorb_block {n : Nat} {m block : List β} (hlen : m.length = size * n)
    (hblock : block.length = size) (h : σ) : absorb compress size (n + 1) h (m ++ block) =
      compress (absorb compress size n h m) block := by
  rw [absorb_succ, absorb_append compress size (Nat.le_of_eq hlen.symm), ← hlen, List.drop_left,
    List.take_of_length_le (Nat.le_of_eq hblock)]

/-- A map that takes one compression function to another takes the chaining values along. -/
theorem absorb_map {τ : Type*} (φ : σ → τ) {compress' : τ → List β → τ}
    (hφ : ∀ h block, φ (compress h block) = compress' (φ h) block) (n : Nat) (h : σ) (m : List β) :
    φ (absorb compress size n h m) = absorb compress' size n (φ h) m := by
  induction n generalizing h m with
  | zero => rfl
  | succ n ih => rw [absorb, absorb, ih, hφ]

/-- The chaining value `h` has the first `n` blocks of the message in it, and `held` is what is
behind them. -/
structure Absorbed (h₀ h : σ) (held m : List β) (n : Nat) : Prop where
  chain : h = absorb compress size n h₀ m
  length : m.length = size * n + held.length
  rest : held = m.drop (size * n)

variable {compress size} {h₀ h : σ} {held m : List β} {n : Nat}

theorem Absorbed.nil (h₀ : σ) : Absorbed compress size h₀ h₀ [] [] 0 := ⟨rfl, rfl, by simp⟩

/-- Further bytes are held. -/
theorem Absorbed.append (a : Absorbed compress size h₀ h held m n) (bs : List β) :
    Absorbed compress size h₀ h (held ++ bs) (m ++ bs) n := by
  have hlen := a.length
  refine ⟨?_, ?_, ?_⟩
  · rw [absorb_append compress size (by omega)]
    exact a.chain
  · rw [List.length_append, List.length_append, hlen, Nat.add_assoc]
  · rw [List.drop_append_of_le_length (by omega), ← a.rest]

/-- A block is taken in. -/
theorem Absorbed.block (a : Absorbed compress size h₀ h held m n) (hfull : held.length = size) :
    Absorbed compress size h₀ (compress h held) [] m (n + 1) := by
  have hlen := a.length
  have hblocks : size * (n + 1) = m.length := by
    rw [Nat.mul_succ, hlen, hfull]
  refine ⟨?_, ?_, ?_⟩
  · rw [absorb_succ, ← a.rest, List.take_of_length_le (Nat.le_of_eq hfull), ← a.chain]
  · rw [hblocks, List.length_nil, Nat.add_zero]
  · rw [hblocks, List.drop_length]

end OpenAAA.BlockHash
