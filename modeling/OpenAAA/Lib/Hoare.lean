import Mathlib.Tactic

/-!
Triples for programs that carry a state and may stop with a fault: from every
state with the precondition, the program returns with the postcondition or stops
with an admitted fault. The rules follow the constructors of a program, so a
proof of a triple has the shape of the program.
-/

namespace OpenAAA.Hoare

variable {σ ε α β : Type}

def Triple (E : ε → Prop) (P : σ → Prop) (x : StateT σ (Except ε) α) (Q : α → σ → Prop) : Prop :=
  ∀ s, P s → match x s with
    | .ok (a, s') => Q a s'
    | .error e => E e

variable {E : ε → Prop} {P P' : σ → Prop} {Q Q' : α → σ → Prop} {R : β → σ → Prop}
  {x : StateT σ (Except ε) α}

theorem Triple.returned (h : Triple E P x Q) {s s' : σ} {a : α} (hs : P s)
    (hx : x s = .ok (a, s')) : Q a s' := by
  have hpost := h s hs
  rw [hx] at hpost
  exact hpost

theorem Triple.stopped (h : Triple E P x Q) {s : σ} {e : ε} (hs : P s) (hx : x s = .error e) :
    E e := by
  have hpost := h s hs
  rw [hx] at hpost
  exact hpost

theorem Triple.conseq (h : Triple E P x Q) (hP : ∀ s, P' s → P s) (hQ : ∀ a s, Q a s → Q' a s) :
    Triple E P' x Q' := by
  intro s hs
  have hpost := h s (hP s hs)
  cases hx : x s with
  | error e =>
      rw [hx] at hpost
      exact hpost
  | ok r =>
      rw [hx] at hpost
      exact hQ _ _ hpost

theorem Triple.weaken (h : Triple E P x Q) (hQ : ∀ a s, Q a s → Q' a s) : Triple E P x Q' :=
  h.conseq (fun _ hs => hs) hQ

theorem Triple.strengthen (h : Triple E P x Q) (hP : ∀ s, P' s → P s) : Triple E P' x Q :=
  h.conseq hP (fun _ _ hq => hq)

/-- Facts about the start are used in the proof of a triple. -/
theorem Triple.assume {φ : Prop} (h : φ → Triple E P x Q) (hP : ∀ s, P' s → φ ∧ P s) :
    Triple E P' x Q :=
  fun s hs => h (hP s hs).1 s (hP s hs).2

theorem Triple.pure {a : α} (h : ∀ s, P s → Q a s) : Triple E P (pure a) Q :=
  fun s hs => h s hs

theorem Triple.throw {e : ε} (h : E e) : Triple E P (throw e : StateT σ (Except ε) α) Q :=
  fun _ _ => h

/-- Nothing is said. -/
theorem Triple.any (x : StateT σ (Except ε) α) :
    Triple (fun _ => True) P x fun _ _ => True := by
  intro s _
  cases x s with
  | ok r => trivial
  | error e => trivial

theorem Triple.bind {f : α → StateT σ (Except ε) β} (hx : Triple E P x Q)
    (hf : ∀ a, Triple E (Q a) (f a) R) : Triple E P (x >>= f) R := by
  intro s hs
  change match (x s >>= fun r => f r.1 r.2) with
    | .ok (b, s') => R b s'
    | .error e => E e
  have hmid := hx s hs
  cases hrun : x s with
  | error e =>
      rw [hrun] at hmid
      exact hmid
  | ok r =>
      rw [hrun] at hmid
      exact hf r.1 r.2 hmid

theorem Triple.get : Triple E P (get : StateT σ (Except ε) σ) (fun a s => P s ∧ a = s) :=
  fun _ hs => ⟨hs, rfl⟩

theorem Triple.modify {f : σ → σ} (h : ∀ s, P s → P' (f s)) :
    Triple E P (modify f : StateT σ (Except ε) PUnit) (fun _ => P') :=
  fun s hs => h s hs

theorem Triple.ite {c : Prop} [Decidable c] {y : StateT σ (Except ε) α}
    (hx : c → Triple E P x Q) (hy : ¬ c → Triple E P y Q) : Triple E P (if c then x else y) Q := by
  split
  · next hc => exact hx hc
  · next hc => exact hy hc

/-- Two facts about one program, the faults of which the first accounts for. -/
theorem Triple.both {P₂ : σ → Prop} {Q₂ : α → σ → Prop} (h : Triple E P x Q)
    (h₂ : Triple (fun _ => True) P₂ x Q₂) :
    Triple E (fun s => P s ∧ P₂ s) x fun a s => Q a s ∧ Q₂ a s := by
  intro s hs
  have hpost := h s hs.1
  have hpost₂ := h₂ s hs.2
  cases hx : x s with
  | error e =>
      rw [hx] at hpost
      exact hpost
  | ok r =>
      rw [hx] at hpost hpost₂
      exact ⟨hpost, hpost₂⟩

theorem Triple.allow {E' : ε → Prop} (h : Triple E P x Q) (hE : ∀ e, E e → E' e) :
    Triple E' P x Q := by
  intro s hs
  have hpost := h s hs
  cases hx : x s with
  | error e =>
      rw [hx] at hpost
      exact hE e hpost
  | ok r =>
      rw [hx] at hpost
      exact hpost

/-- The first part of a program is run from one state, and the rest from where it leads. -/
theorem Triple.bindAt {f : α → StateT σ (Except ε) β} {s : σ}
    (hok : ∀ a s', x s = .ok (a, s') → Triple E (· = s') (f a) R)
    (herror : ∀ e, x s = .error e → E e) : Triple E (· = s) (x >>= f) R := by
  rintro s' rfl
  change match (x s' >>= fun r => f r.1 r.2) with
    | .ok (b, s') => R b s'
    | .error e => E e
  cases hx : x s' with
  | error e => exact herror e hx
  | ok r => exact hok r.1 r.2 hx r.2 rfl

/-- A triple, for the state it starts from. -/
theorem Triple.at (h : ∀ s, P s → Triple E (· = s) x Q) : Triple E P x Q :=
  fun s hs => h s hs s rfl

end OpenAAA.Hoare
