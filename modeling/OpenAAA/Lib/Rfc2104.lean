import OpenAAA.Lib.Memory

/-!
Keyed hashing after RFC 2104, and what it takes from a hash: that a context which was
given a message in pieces has the digest of the message in the end. The three calls of
such a hash may fail to return, and the digest is left in the context itself.
-/

namespace OpenAAA.Rfc2104

open Memory

/-- The key filled up with zeros to a block, or its digest if it is longer than a block. -/
def keyBlock (H : List Byte → List Byte) (size : Nat) (key : List Byte) : List Byte :=
  let k := if size < key.length then H key else key
  k ++ List.replicate (size - k.length) 0

/-- The inner pad has the bytes `0x36`, the outer one `0x5c`. -/
def hmac (H : List Byte → List Byte) (size : Nat) (key m : List Byte) : List Byte :=
  let k := keyBlock H size key
  H (k.map (· ^^^ 0x5c#8) ++ H (k.map (· ^^^ 0x36#8) ++ m))

/-- The calls of a hash that takes its message in pieces. `buf` has the bytes that the pointer
which `final` returns leads to. -/
structure Streaming (σ : Type) where
  init : σ → σ
  update : σ → List Byte → Option σ
  final : σ → Option σ
  buf : σ → Mem

/-- One `update` for each piece. -/
def Streaming.updates {σ : Type} (h : Streaming σ) (s : σ) (pieces : List (List Byte)) : Option σ :=
  pieces.foldlM h.update s

/-- Whatever a context had in it, and into whichever pieces of less than `limit` bytes the
message is split, all calls return and the digest has `size` bytes. -/
structure Streaming.Hashes {σ : Type} (h : Streaming σ) (H : List Byte → List Byte)
    (size limit : Nat) : Prop where
  length : ∀ m, (H m).length = size
  digest : ∀ (s : σ) (pieces : List (List Byte)), (∀ p ∈ pieces, p.length < limit) →
    ∃ s' s'', h.updates (h.init s) pieces = some s' ∧ h.final s' = some s'' ∧
      read (h.buf s'') 0 size = H pieces.flatten

namespace Streaming

variable {σ : Type} {h : Streaming σ} {H : List Byte → List Byte} {size limit : Nat}

@[simp]
theorem updates_nil (s : σ) : h.updates s [] = some s := rfl

theorem updates_cons (s : σ) (p : List Byte) (pieces : List (List Byte)) :
    h.updates s (p :: pieces) = (h.update s p).bind fun s => h.updates s pieces :=
  List.foldlM_cons

@[simp]
theorem updates_singleton (s : σ) (p : List Byte) : h.updates s [p] = h.update s p := by
  rw [updates_cons]
  exact Option.bind_fun_some _

/-- A context that a first piece was put in takes any further pieces. -/
theorem Hashes.begun (hh : h.Hashes H size limit) (s : σ) {p : List Byte} (hp : p.length < limit) :
    ∃ s₁, h.update (h.init s) p = some s₁ ∧
      ∀ pieces : List (List Byte), (∀ q ∈ pieces, q.length < limit) →
        ∃ s' s'', h.updates s₁ pieces = some s' ∧ h.final s' = some s'' ∧
          read (h.buf s'') 0 size = H (p ++ pieces.flatten) := by
  obtain ⟨s₁, -, hfirst, -⟩ := hh.digest s [p] (by simpa using hp)
  rw [updates_singleton] at hfirst
  refine ⟨s₁, hfirst, ?_⟩
  intro pieces hpieces
  obtain ⟨s', s'', hupdates, hfinal, hdigest⟩ :=
    hh.digest s (p :: pieces) (by simpa using ⟨hp, hpieces⟩)
  rw [updates_cons, hfirst] at hupdates
  exact ⟨s', s'', hupdates, hfinal, by simpa using hdigest⟩

end Streaming

end OpenAAA.Rfc2104
