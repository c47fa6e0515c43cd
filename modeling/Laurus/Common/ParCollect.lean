import Mathlib.Data.List.Basic
import Mathlib.Logic.Function.Basic

/-!
# Collecting the results of tasks that run in any order

Tasks `0 … n - 1` run in the order of a schedule; each puts its value into
the slot of its number, and the first error is kept. Whatever the schedule,
what is collected is what running the tasks one after another gives
(`par_collect_eq_ok_iff`).
-/

namespace Laurus

variable {ε α : Type} {run : ℕ → Except ε α} {schedule : List ℕ} {values : List α} {i n : ℕ}

/-- One task of a parallel collection. -/
def par_task (run : ℕ → Except ε α) (st : (ℕ → Option α) × Option ε) (i : ℕ) :
    (ℕ → Option α) × Option ε :=
  match run i with
  | .ok a => (Function.update st.1 i (some a), st.2)
  | .error e => (st.1, st.2.or (some e))

/-- A parallel collection of `n` results. -/
def par_collect (run : ℕ → Except ε α) (n : ℕ) (schedule : List ℕ) : Except ε (List α) :=
  let st := schedule.foldl (par_task run) (fun _ => none, none)
  match st.2 with
  | some e => .error e
  | none => .ok ((List.range n).filterMap st.1)

theorem par_task_slots (st : (ℕ → Option α) × Option ε) (i j : ℕ) :
    (par_task run st i).1 j = if j = i then (run i).toOption.or (st.1 i) else st.1 j := by
  rw [par_task]
  rcases run i with e | a
  · by_cases hji : j = i
    · rw [if_pos hji, hji]
      rfl
    · rw [if_neg hji]
  · by_cases hji : j = i
    · rw [if_pos hji, hji]
      exact Function.update_self i (some a) st.1
    grind

theorem foldl_par_task_slots (st : (ℕ → Option α) × Option ε) (i : ℕ)
    (hst : st.1 i = none ∨ st.1 i = (run i).toOption) :
    (schedule.foldl (par_task run) st).1 i =
      if i ∈ schedule then (run i).toOption else st.1 i := by
  induction schedule generalizing st with
  | nil => simp
  | cons j schedule ih =>
      have hslot : (par_task run st j).1 i = _ := par_task_slots st j i
      grind

theorem foldl_par_task_saved (st : (ℕ → Option α) × Option ε) :
    (schedule.foldl (par_task run) st).2 = none ↔
      st.2 = none ∧ ∀ i ∈ schedule, ∃ a, run i = .ok a := by
  induction schedule generalizing st with
  | nil => simp
  | cons j schedule ih =>
      have hone : (par_task run st j).2 = none ↔ st.2 = none ∧ ∃ a, run j = .ok a := by
        rw [par_task]
        grind
      rw [List.foldl_cons, ih, hone, List.forall_mem_cons, and_assoc]

theorem mapM_eq_ok_iff {β : Type} {run : β → Except ε α} {tasks : List β} :
    tasks.mapM run = .ok values ↔
      (∀ i ∈ tasks, ∃ a, run i = .ok a) ∧
        tasks.filterMap (fun i => (run i).toOption) = values := by
  induction tasks generalizing values with
  | nil => simp [pure, Except.pure]
  | cons i tasks ih =>
      rw [List.mapM_cons, List.forall_mem_cons]
      rcases hi : run i with e | a
      · simp [bind, Except.bind]
      rcases hrest : tasks.mapM run with e | rest
      · have hnot := @ih (tasks.filterMap fun i => (run i).toOption)
        rw [hrest] at hnot
        have hfail : ¬ ∀ i ∈ tasks, ∃ a, run i = .ok a := fun h => by
          cases hnot.2 ⟨h, rfl⟩
        simp [bind, Except.bind, hfail]
      · obtain ⟨hall, hvalues⟩ := ih.1 hrest
        have hone : (run i).toOption = some a := by rw [hi]; rfl
        have hcons : (i :: tasks).filterMap (fun i => (run i).toOption) = a :: rest := by
          rw [List.filterMap_cons, hone, hvalues]
        rw [hcons]
        simpa [bind, Except.bind, pure, Except.pure] using fun _ => hall

theorem mapM_eq_ok_map {β : Type} {run : β → Except ε α} {tasks : List β} {f : β → α}
    (h : ∀ i ∈ tasks, run i = .ok (f i)) : tasks.mapM run = .ok (tasks.map f) := by
  refine mapM_eq_ok_iff.2 ⟨fun i hi => ⟨f i, h i hi⟩, ?_⟩
  rw [List.filterMap_congr (g := fun i => some (f i)) fun i hi => by rw [h i hi]; rfl]
  exact congrFun List.filterMap_eq_map' tasks

/-- **What is collected does not depend on the schedule**: it is what the tasks
give one after another. -/
theorem par_collect_eq_ok_iff (h : schedule.Perm (List.range n)) :
    par_collect run n schedule = .ok values ↔ (List.range n).mapM run = .ok values := by
  have hslots : ∀ i ∈ List.range n,
      (schedule.foldl (par_task run) (fun _ => none, none)).1 i = (run i).toOption := by
    intro i hi
    rw [foldl_par_task_slots (fun _ => none, none) i (Or.inl rfl), if_pos (h.mem_iff.2 hi)]
  grind [foldl_par_task_saved, mapM_eq_ok_iff, par_collect, List.filterMap_congr]

end Laurus
