import Mathlib.Data.Finset.Sort
import Mathlib.Data.List.Basic
import Mathlib.Data.Option.Basic
import Mathlib.Order.Interval.Finset.Nat

/-!
# Ordered cursors over a finite set of numbers

A cursor stands on the least element of what remains, `next` drops it and
`skip t` drops what lies below `t`; a sentinel `top` stands for the end.
`View` says that a machine with such operations is one: a ghost function
gives what remains, and another, `low`, how far back a skip may reach.
`View.run_spec` is the one induction over call sequences.
-/

namespace Laurus

/-! ## The least element, or the end -/

/-- The least element of `R`, or `top`. -/
def first (top : ℕ) (R : Finset ℕ) : ℕ := if h : R.Nonempty then R.min' h else top

section First

variable {top d : ℕ} {R S : Finset ℕ}

theorem first_empty : first top ∅ = top := by simp [first]

theorem first_mem (h : R.Nonempty) : first top R ∈ R := by
  rw [first, dif_pos h]
  exact R.min'_mem h

theorem first_le (hd : d ∈ R) : first top R ≤ d := by
  rw [first, dif_pos ⟨d, hd⟩]
  exact R.min'_le d hd

theorem first_eq (hd : d ∈ R) (h : ∀ x ∈ R, d ≤ x) : first top R = d :=
  le_antisymm (first_le hd) (h _ (first_mem ⟨d, hd⟩))

theorem first_lt_top (h : R.Nonempty) (hR : ∀ x ∈ R, x < top) : first top R < top :=
  hR _ (first_mem h)

theorem first_le_top (hR : ∀ x ∈ R, x < top) : first top R ≤ top := by
  rcases R.eq_empty_or_nonempty with rfl | h
  · rw [first_empty]
  · exact (first_lt_top h hR).le

theorem first_eq_top_iff (hR : ∀ x ∈ R, x < top) : first top R = top ↔ R = ∅ := by
  refine ⟨fun h => ?_, fun h => by rw [h, first_empty]⟩
  by_contra hne
  have := first_lt_top (Finset.nonempty_iff_ne_empty.2 hne) hR
  omega

theorem le_first (hp : d ≤ top) (h : ∀ x ∈ R, d ≤ x) : d ≤ first top R := by
  grind [Finset.eq_empty_or_nonempty, first_empty, first_mem]

theorem filter_le_eq_self (h : d ≤ first top R) : (R.filter fun x => d ≤ x) = R :=
  Finset.filter_true_of_mem fun _ hx => le_trans h (first_le hx)

theorem sort_eq_first_cons (h : R.Nonempty) : R.sort (· ≤ ·) =
    first top R :: (R.filter fun x => first top R < x).sort (· ≤ ·) := by
  have hmem : first top R ∈ R := first_mem h
  have hinsert : insert (first top R) (R.filter fun x => first top R < x) = R := by
    ext x
    constructor
    · grind
    · intro hx
      have hle : first top R ≤ x := first_le hx
      grind
  grind [Finset.sort_insert]

end First

/-! ## Machines that are ordered cursors -/

/-- The machine `head`, `ended`, `next`, `skip` enumerates `rem` in ascending
order, below `top`; a skip may reach back to `low`. -/
structure View {σ : Type} (top : ℕ) (head : σ → ℕ) (ended : σ → Bool)
    (next : σ → Option (Bool × σ)) (skip : σ → ℕ → Option (Bool × σ)) where
  /-- The states the machine reaches. -/
  Inv : σ → Prop
  /-- What remains, the element under the cursor included. -/
  rem : σ → Finset ℕ
  /-- How far back a skip may reach. -/
  low : σ → ℕ
  lt_top : ∀ {s d}, Inv s → d ∈ rem s → d < top
  low_le : ∀ {s d}, Inv s → d ∈ rem s → low s ≤ d
  head_eq : ∀ {s}, Inv s → head s = first top (rem s)
  ended_iff : ∀ {s}, Inv s → (ended s = true ↔ rem s = ∅)
  next_spec : ∀ {s}, Inv s → ∃ b s', next s = some (b, s') ∧ Inv s' ∧
    rem s' = (rem s).filter (fun d => head s < d) ∧ (b = true ↔ (rem s').Nonempty) ∧
    ((rem s).Nonempty → low s' ≤ max (low s) (head s + 1)) ∧ (rem s = ∅ → low s' ≤ low s)
  skip_spec : ∀ {s t}, Inv s → low s ≤ t → ∃ b s', skip s t = some (b, s') ∧ Inv s' ∧
    rem s' = (rem s).filter (fun d => t ≤ d) ∧ (b = true ↔ (rem s').Nonempty) ∧
    low s' ≤ max (low s) t

/-! ## Call sequences -/

/-- One call on a cursor. -/
inductive CursorCall
  | next
  | skip (t : ℕ)
  deriving DecidableEq, Repr

/-- The members of `D` from `p` on. -/
def upFrom (D : Finset ℕ) (p : ℕ) : Finset ℕ := D.filter fun d => p ≤ d

theorem mem_upFrom {D : Finset ℕ} {p d : ℕ} : d ∈ upFrom D p ↔ d ∈ D ∧ p ≤ d := by
  rw [upFrom, Finset.mem_filter]

/-- The calls that only go forward, from the position `p` to the position
`q`: a `next` moves past the element under the cursor, a `skip` names a
target no earlier than the position. -/
inductive Onward (top : ℕ) (D : Finset ℕ) : ℕ → List CursorCall → ℕ → Prop
  | nil (p : ℕ) : Onward top D p [] p
  | next {p q : ℕ} {calls : List CursorCall} : (upFrom D p).Nonempty →
      Onward top D (first top (upFrom D p) + 1) calls q → Onward top D p (.next :: calls) q
  | next_ended {p q : ℕ} {calls : List CursorCall} : upFrom D p = ∅ →
      Onward top D p calls q → Onward top D p (.next :: calls) q
  | skip {p q t : ℕ} {calls : List CursorCall} : p ≤ t →
      Onward top D t calls q → Onward top D p (.skip t :: calls) q

section Run

variable {σ : Type} {top : ℕ} {head : σ → ℕ} {ended : σ → Bool}
variable {next : σ → Option (Bool × σ)} {skip : σ → ℕ → Option (Bool × σ)}

/-- The state after a sequence of calls. -/
def runCalls (next : σ → Option (Bool × σ)) (skip : σ → ℕ → Option (Bool × σ)) :
    σ → List CursorCall → Option σ
  | s, [] => some s
  | s, .next :: calls => (next s).bind fun r => runCalls next skip r.2 calls
  | s, .skip t :: calls => (skip s t).bind fun r => runCalls next skip r.2 calls

namespace View

variable (V : View top head ended next skip) {D : Finset ℕ} {s : σ} {d p q : ℕ}

theorem head_mem (hs : V.Inv s) (h : head s ≠ top) : head s ∈ V.rem s := by
  grind [head_eq, first_mem, Finset.nonempty_iff_ne_empty, first_empty]

theorem head_le (hs : V.Inv s) (hd : d ∈ V.rem s) : head s ≤ d := by
  rw [V.head_eq hs]
  exact first_le hd

theorem head_le_top (hs : V.Inv s) : head s ≤ top := by
  rw [V.head_eq hs]
  exact first_le_top fun _ => V.lt_top hs

theorem low_le_head (hs : V.Inv s) (h : head s ≠ top) : V.low s ≤ head s :=
  V.low_le hs (V.head_mem hs h)

/-- **Every forward call sequence leaves what lies from its position on.** -/
theorem run_spec {calls : List CursorCall} (hf : Onward top D p calls q) :
    ∀ {s : σ}, V.Inv s → V.rem s = upFrom D p → V.low s ≤ p →
      ∃ s', runCalls next skip s calls = some s' ∧ V.Inv s' ∧ V.rem s' = upFrom D q ∧
        V.low s' ≤ q := by
  induction hf with
  | nil p => intro s hs hrem hlow; exact ⟨s, rfl, hs, hrem, hlow⟩
  | @next p q calls hne _ ih =>
      intro s hs hrem hlow
      obtain ⟨b, s', hnext, hs', hrem', -, hlow', -⟩ := V.next_spec hs
      have hhead := V.head_eq hs
      rw [hrem] at hhead hrem' hlow'
      have hp : p ≤ head s := by
        rw [hhead]
        exact (mem_upFrom.1 (first_mem hne)).2
      have hrem'' : V.rem s' = upFrom D (first top (upFrom D p) + 1) := by
        grind [mem_upFrom]
      grind [runCalls]
  | @next_ended p q calls hempty _ ih =>
      intro s hs hrem hlow
      obtain ⟨b, s', hnext, hs', hrem', -, -, hlow'⟩ := V.next_spec hs
      have hrem0 : V.rem s = ∅ := hrem.trans hempty
      rw [hrem0, Finset.filter_empty] at hrem'
      obtain ⟨s'', hrun, h⟩ := ih hs' (hrem'.trans hempty.symm) (le_trans (hlow' hrem0) hlow)
      exact ⟨s'', by rw [runCalls, hnext]; exact hrun, h⟩
  | @skip p q t calls hpt _ ih =>
      intro s hs hrem hlow
      obtain ⟨b, s', hskip, hs', hrem', -, hlow'⟩ := V.skip_spec (t := t) hs (by omega)
      have hrem'' : V.rem s' = upFrom D t := by
        grind [mem_upFrom]
      grind [runCalls]

end View

end Run

/-!
## A cursor that advances one element at a time

What a cursor over an ascending list is for: it stands on an element or at
the end, `next` moves it one element on, and `skip_to` moves it on until it
stands on an element from the target on. What is left after a skip is what
the list has from the target on (`left_seek`).
-/

structure LinearCursor (α : Type) where
  docs : List α
  position : ℕ
  started : Bool

namespace LinearCursor

variable {α : Type} [LinearOrder α] {c : LinearCursor α} {target : α}

/-- On an element, not at the end. -/
def on (c : LinearCursor α) : Bool := decide (c.position < c.docs.length)

/-- The element at the cursor and those after it. -/
def left (c : LinearCursor α) : List α := c.docs.drop c.position

/-- One element on, and no further than the end. -/
def advance (c : LinearCursor α) : LinearCursor α :=
  { c with position := min (c.position + 1) c.docs.length }

/-- The first call stays on the first element. -/
def next (c : LinearCursor α) : Bool × LinearCursor α :=
  if c.started then (c.advance.on, c.advance) else (c.on, { c with started := true })

/-- One element on at a time, until one from the target on. -/
def seek (target : α) (c : LinearCursor α) : LinearCursor α :=
  if h : c.position < c.docs.length then
    if target ≤ c.docs[c.position] then c else seek target c.advance
  else c
termination_by c.docs.length - c.position
decreasing_by
  simp only [advance]
  omega

def skip_to (c : LinearCursor α) (target : α) : Bool × LinearCursor α :=
  ((seek target { c with started := true }).on, seek target { c with started := true })

/-- One call on a cursor over numbers. -/
def call (c : LinearCursor ℕ) : CursorCall → Bool × LinearCursor ℕ
  | .next => c.next
  | .skip t => c.skip_to t

/-- The cursor after the calls. -/
def run (c : LinearCursor ℕ) (calls : List CursorCall) : LinearCursor ℕ :=
  calls.foldl (fun c call => (c.call call).2) c

theorem docs_seek (target : α) (c : LinearCursor α) : (seek target c).docs = c.docs := by
  fun_induction seek target c with
  | case1 => rfl
  | case2 c _ _ ih => rw [ih, advance]
  | case3 => rfl

theorem started_seek (target : α) (c : LinearCursor α) :
    (seek target c).started = c.started := by
  fun_induction seek target c with
  | case1 => rfl
  | case2 c _ _ ih => rw [ih, advance]
  | case3 => rfl

theorem position_le_seek (target : α) (c : LinearCursor α) :
    c.position ≤ (seek target c).position := by
  fun_induction seek target c with
  | case1 c => exact Nat.le_refl c.position
  | case2 c hlt _ ih =>
      have hone : c.advance.position = min (c.position + 1) c.docs.length := rfl
      omega
  | case3 c => exact Nat.le_refl c.position

theorem position_seek_le (target : α) (h : c.position ≤ c.docs.length) :
    (seek target c).position ≤ c.docs.length := by
  fun_induction seek target c with
  | case1 => exact h
  | case2 c _ _ ih => exact ih (Nat.min_le_right _ _)
  | case3 => exact h

/-- **What a skip leaves** is what was left from the target on. -/
theorem left_seek (hasc : c.docs.Pairwise (· < ·)) :
    (seek target c).left = c.left.filter (target ≤ ·) := by
  fun_induction seek target c with
  | case1 c hlt hle =>
      rw [left, eq_comm, List.filter_eq_self]
      have hdrop := List.Pairwise.sublist (List.drop_sublist c.position c.docs) hasc
      grind [List.drop_eq_getElem_cons, List.pairwise_cons]
  | case2 c hlt hle ih =>
      grind [left, advance, List.drop_eq_getElem_cons]
  | case3 c hlt => rw [left, List.drop_of_length_le (by omega), List.filter_nil]

theorem call_fst (c : LinearCursor ℕ) (t : CursorCall) : (c.call t).1 = (c.call t).2.on := by
  rcases t with _ | t
  · rw [call, next]
    split <;> rfl
  · rfl

theorem position_le_call (c : LinearCursor ℕ) (h : c.position ≤ c.docs.length) (t : CursorCall) :
    c.position ≤ (c.call t).2.position := by
  rcases t with _ | t
  · rw [call, next, advance]
    grind
  · exact position_le_seek t { c with started := true }

end LinearCursor

end Laurus
