import Mathlib.Init

/-!
Runs of a deterministic step function over a list of events: what holds in every
state of a run, what every step of a run meets, and the rule that turns a step
invariant into an exact condition on runs.
-/

namespace OpenAAA.Runs

variable {σ ε : Type*} (step : σ → ε → σ)

/-- The state after a run. -/
def run (s : σ) (events : List ε) : σ := events.foldl step s

@[simp]
theorem run_nil (s : σ) : run step s [] = s := rfl

@[simp]
theorem run_cons (s : σ) (e : ε) (events : List ε) :
    run step s (e :: events) = run step (step s e) events := rfl

theorem run_append (s : σ) (before after : List ε) :
    run step s (before ++ after) = run step (run step s before) after :=
  List.foldl_append

/-- `P` holds in every state of the run, the first and the last included. -/
def Throughout (P : σ → Prop) : σ → List ε → Prop
  | s, [] => P s
  | s, e :: events => P s ∧ Throughout P (step s e) events

/-- Every step of the run meets `C` in the state before it. -/
def EachStep (C : σ → ε → Prop) : σ → List ε → Prop
  | _, [] => True
  | s, e :: events => C s e ∧ EachStep C (step s e) events

variable {step}

theorem Throughout.last {P : σ → Prop} {events : List ε} {s : σ}
    (h : Throughout step P s events) : P (run step s events) := by
  induction events generalizing s with
  | nil => exact h
  | cons e events ih => exact ih h.2

theorem Throughout.first {P : σ → Prop} {events : List ε} {s : σ}
    (h : Throughout step P s events) : P s := by
  cases events with
  | nil => exact h
  | cons e events => exact h.1

theorem EachStep.imp {C D : σ → ε → Prop} {events : List ε} {s : σ}
    (h : EachStep step C s events) (hCD : ∀ s e, C s e → D s e) : EachStep step D s events := by
  induction events generalizing s with
  | nil => trivial
  | cons e events ih => exact ⟨hCD s e h.1, ih h.2⟩

/-- A condition on the events alone. -/
theorem eachStep_const {C : ε → Prop} {events : List ε} {s : σ} :
    EachStep step (fun _ e => C e) s events ↔ ∀ e ∈ events, C e := by
  induction events generalizing s with
  | nil => simp [EachStep]
  | cons e events ih => simp [EachStep, ih]

/-- Where an invariant gives `P`, a legal step that meets `C` keeps the invariant and one
that does not breaks `P`, a legal run keeps `P` if and only if all its steps meet `C`. -/
theorem throughout_iff_eachStep {I P : σ → Prop} {Legal C : σ → ε → Prop}
    (hP : ∀ s, I s → P s)
    (hkeeps : ∀ s e, I s → Legal s e → C s e → I (step s e))
    (hbreaks : ∀ s e, I s → Legal s e → ¬ C s e → ¬ P (step s e)) {events : List ε} {s : σ}
    (hs : I s) (hlegal : EachStep step Legal s events) :
    Throughout step P s events ↔ EachStep step C s events := by
  induction events generalizing s with
  | nil => exact ⟨fun _ => trivial, fun _ => hP s hs⟩
  | cons e events ih =>
      obtain ⟨he, hrest⟩ := hlegal
      by_cases hC : C s e
      · have htail := ih (hkeeps s e hs he hC) hrest
        exact ⟨fun h => ⟨hC, htail.mp h.2⟩, fun h => ⟨hP s hs, htail.mpr h.2⟩⟩
      · exact ⟨fun h => absurd h.2.first (hbreaks s e hs he hC), fun h => absurd h.1 hC⟩

/-- What an invariant gives holds throughout a legal run whose steps keep it. -/
theorem throughout_of_invariant {I P : σ → Prop} {Legal : σ → ε → Prop} (hP : ∀ s, I s → P s)
    (hkeeps : ∀ s e, I s → Legal s e → I (step s e)) {events : List ε} {s : σ} (hs : I s)
    (hlegal : EachStep step Legal s events) : Throughout step P s events := by
  induction events generalizing s with
  | nil => exact hP s hs
  | cons e events ih => exact ⟨hP s hs, ih (hkeeps s e hs hlegal.1) hlegal.2⟩

/-- What every legal step does from a state with the invariant, every step of a run does whose
steps keep it. -/
theorem eachStep_of_invariant {I : σ → Prop} {Legal C D : σ → ε → Prop}
    (hkeeps : ∀ s e, I s → Legal s e → C s e → I (step s e))
    (hstep : ∀ s e, I s → Legal s e → D s e) {events : List ε} {s : σ}
    (hs : I s) (hlegal : EachStep step Legal s events) (hC : EachStep step C s events) :
    EachStep step D s events := by
  induction events generalizing s with
  | nil => trivial
  | cons e events ih =>
      exact ⟨hstep s e hs hlegal.1, ih (hkeeps s e hs hlegal.1 hC.1) hlegal.2 hC.2⟩

end OpenAAA.Runs
