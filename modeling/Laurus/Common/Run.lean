import Mathlib.Data.List.Basic

/-!
# Runs of a labelled transition system

`Step σ ι` is a labelled relation on states; a `Run` is a chain of its
steps, the labels kept in order. `guarded` restricts the steps to those a
guard admits. The invariant rule is the one induction over runs the
development makes: what every step preserves, every run preserves.
-/

namespace Laurus

/-- A labelled transition relation. -/
abbrev Step (σ ι : Type*) := σ → ι → σ → Prop

variable {σ ι : Type*}

/-- The steps of `step` that the guard admits. -/
def Step.guarded (guard : σ → ι → Prop) (step : Step σ ι) : Step σ ι :=
  fun s i t => guard s i ∧ step s i t

/-- A chain of steps, its labels in order. -/
inductive Run (step : Step σ ι) : σ → List ι → σ → Prop
  /-- No step. -/
  | nil (s : σ) : Run step s [] s
  /-- One step, then a run. -/
  | cons {s t u : σ} {i : ι} {is : List ι} : step s i t → Run step t is u → Run step s (i :: is) u

namespace Run

variable {step step' : Step σ ι} {s t u : σ} {is js : List ι} {i : ι}

/-- **The invariant rule.** -/
theorem invariant (Inv : σ → Prop) (hstep : ∀ {s i t}, Inv s → step s i t → Inv t)
    (h : Run step s is t) (hs : Inv s) : Inv t := by
  induction h with
  | nil s => exact hs
  | cons hst _ ih => exact ih (hstep hs hst)

theorem single (h : step s i t) : Run step s [i] t := Run.cons h (Run.nil t)

/-- The calls of a list pass the guard one after another. -/
def Admitted (guard : σ → ι → Prop) (run : σ → ι → σ) : List ι → σ → Prop
  | [], _ => True
  | i :: is, s => guard s i ∧ Admitted guard run is (run s i)

instance Admitted.decidable {guard : σ → ι → Prop} [∀ s i, Decidable (guard s i)]
    {run : σ → ι → σ} : ∀ is s, Decidable (Admitted guard run is s)
  | [], _ => isTrue trivial
  | i :: is, s =>
    have : Decidable (Admitted guard run is (run s i)) := Admitted.decidable is (run s i)
    inferInstanceAs (Decidable (guard s i ∧ Admitted guard run is (run s i)))

theorem of_admitted {guard : σ → ι → Prop} {run : σ → ι → σ} {s : σ} {is : List ι}
    (h : Admitted guard run is s) :
    Run (Step.guarded guard fun s i t => run s i = t) s is (is.foldl run s) := by
  induction is generalizing s with
  | nil => exact Run.nil s
  | cons i is ih => exact Run.cons ⟨h.1, rfl⟩ (ih h.2)

end Run

/-! ## Objects that answer calls -/

variable {α β γ τ : Type*}

/-- What a list of calls answers, and the state after the last. -/
def answers (call : σ → α → β × σ) : σ → List α → List β × σ
  | s, [] => ([], s)
  | s, a :: as =>
    ((call s a).1 :: (answers call (call s a).2 as).1, (answers call (call s a).2 as).2)

/-- **The simulation rule**: where each call answers as in `R` states, unless
the answer there is one that `ok` leaves out, a list of calls does. -/
theorem answers_simulate {call : σ → α → β × σ} {call' : τ → α → γ × τ} {R : σ → τ → Prop}
    {A : β → γ → Prop} {ok : γ → Prop} (hstep : ∀ s t a, R s t → ok (call' t a).1 →
      A (call s a).1 (call' t a).1 ∧ R (call s a).2 (call' t a).2) {s : σ} {t : τ} (h : R s t)
    {as : List α} (hok : ∀ b ∈ (answers call' t as).1, ok b) :
    List.Forall₂ A (answers call s as).1 (answers call' t as).1 ∧
      R (answers call s as).2 (answers call' t as).2 := by
  induction as generalizing s t with
  | nil => exact ⟨List.Forall₂.nil, h⟩
  | cons a as ih =>
      rw [answers, List.forall_mem_cons] at hok
      obtain ⟨hanswer, hnext⟩ := hstep s t a h hok.1
      obtain ⟨hanswers, hlast⟩ := ih hnext hok.2
      exact ⟨List.Forall₂.cons hanswer hanswers, hlast⟩

end Laurus
