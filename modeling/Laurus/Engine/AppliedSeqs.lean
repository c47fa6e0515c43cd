import Mathlib.Data.List.Induction
import Mathlib.Data.List.Sort
import Mathlib.Order.Bounds.Basic
import Mathlib.Tactic.Ring

/-!
# The watermark

Below the watermark every number is finished or covered, above it the next is
neither, and what is kept above it is what finished early (`Tracks`). The
calls keep this (`Tracks.step`), so after any of them the watermark is the
greatest number up to which all is done (`watermark_tracks`).
-/

namespace Laurus

/-!
## The applied sequence numbers (`engine/applied_seqs.rs`)

Sequence numbers are below `2 ^ 64`, and the one after a number wraps around,
as it does where overflow is not checked. What `finish` asserts in a debug
build is `finish_assertion`.
-/

namespace AppliedSeqs

/-- `State`. The set is in ascending order. -/
structure State where
  watermark : ℕ
  finished_above : List ℕ
  progress : ℕ
  deriving DecidableEq, Repr

/-- `seq + 1`. -/
def succ (seq : ℕ) : ℕ := (seq + 1) % 2 ^ 64

/-- The loop of `absorb_contiguous`. -/
def absorb (watermark : ℕ) : List ℕ → ℕ × List ℕ
  | [] => (watermark, [])
  | next :: finished_above =>
    if succ watermark < next then (watermark, next :: finished_above)
    else absorb (max watermark next) finished_above

/-- `absorb_contiguous`. -/
def absorb_contiguous (s : State) : State :=
  let (watermark, finished_above) := absorb s.watermark s.finished_above
  { s with watermark, finished_above }

/-- `BTreeSet::insert`. -/
def insert (seq : ℕ) : List ℕ → List ℕ
  | [] => [seq]
  | next :: rest =>
    if seq < next then seq :: next :: rest
    else if seq = next then next :: rest
    else next :: insert seq rest

/-- The assertion of `finish`. -/
def finish_assertion (s : State) (seq : ℕ) : Bool :=
  decide (s.watermark < seq) && !s.finished_above.contains seq

/-- `finish`. -/
def finish (s : State) (seq : ℕ) : State :=
  if seq = succ s.watermark then
    let s := absorb_contiguous { s with watermark := seq }
    { s with progress := s.progress + 1 }
  else if s.watermark < seq then
    { s with finished_above := insert seq s.finished_above, progress := s.progress + 1 }
  else s

/-- `raise_to`. -/
def raise_to (s : State) (seq : ℕ) : State :=
  if s.watermark < seq then
    let s := absorb_contiguous { s with watermark := seq }
    { s with progress := s.progress + 1 }
  else s

/-- A call. -/
inductive Call
  | finish (seq : ℕ)
  | raise_to (seq : ℕ)
  deriving DecidableEq, Repr

/-- The number of a call. -/
def Call.seq : Call → ℕ
  | finish seq => seq
  | raise_to seq => seq

/-- What a call does. -/
def step (s : State) : Call → State
  | .finish seq => finish s seq
  | .raise_to seq => raise_to s seq

/-- A state that starts from a base. -/
def start (base : ℕ) : State := { watermark := base, finished_above := [], progress := 0 }

/-- The state after some calls. -/
def run (base : ℕ) (calls : List Call) : State := calls.foldl step (start base)

end AppliedSeqs

namespace AppliedSeqs

variable {s : State} {base n seq w : ℕ} {calls : List Call} {c : Call} {l : List ℕ}

/-- A number that finished, or that a raise covers. -/
def Done (calls : List Call) (n : ℕ) : Prop :=
  .finish n ∈ calls ∨ ∃ seq, n ≤ seq ∧ .raise_to seq ∈ calls

/-- What a state knows of the calls it has seen. -/
structure Tracks (base : ℕ) (calls : List Call) (s : State) : Prop where
  base_le : base ≤ s.watermark
  lt_max : s.watermark < 2 ^ 64 - 1
  above : ∀ n ∈ s.finished_above, s.watermark + 1 < n
  sorted : s.finished_above.Pairwise (· < ·)
  done_iff : ∀ n, base < n → (Done calls n ↔ n ≤ s.watermark ∨ n ∈ s.finished_above)

/-! ## The set -/

theorem mem_insert : n ∈ insert seq l ↔ n = seq ∨ n ∈ l := by
  induction l with
  | nil => rw [insert, List.mem_singleton, or_iff_left List.not_mem_nil]
  | cons next rest ih =>
      rw [insert]
      grind

theorem pairwise_insert (h : l.Pairwise (· < ·)) : (insert seq l).Pairwise (· < ·) := by
  induction l with
  | nil => exact List.pairwise_singleton _ seq
  | cons next rest ih =>
      grind [List.pairwise_cons, insert, mem_insert]

theorem insert_of_mem (h : l.Pairwise (· < ·)) (hmem : seq ∈ l) : insert seq l = l := by
  induction l with
  | nil => exact absurd hmem List.not_mem_nil
  | cons next rest ih =>
      grind [List.pairwise_cons, insert]

/-! ## Absorbing -/

theorem succ_eq (h : w < 2 ^ 64 - 1) : succ w = w + 1 := by
  rw [succ]
  omega

/-- **What absorbing leaves**: the same numbers are known, and none of those
kept continues the watermark. -/
theorem absorb_spec (hw : w < 2 ^ 64 - 1) (hl : ∀ n ∈ l, n < 2 ^ 64 - 1)
    (hsorted : l.Pairwise (· < ·)) :
    w ≤ (absorb w l).1 ∧ (absorb w l).1 < 2 ^ 64 - 1 ∧ (absorb w l).2.Sublist l ∧
      (∀ n ∈ (absorb w l).2, (absorb w l).1 + 1 < n) ∧
      ∀ n, n ≤ (absorb w l).1 ∨ n ∈ (absorb w l).2 ↔ n ≤ w ∨ n ∈ l := by
  induction l generalizing w with
  | nil => exact ⟨le_rfl, hw, List.Sublist.refl _, fun n hn => absurd hn List.not_mem_nil,
      fun n => Iff.rfl⟩
  | cons next rest ih =>
      obtain ⟨hnext, hrest⟩ := List.pairwise_cons.1 hsorted
      rw [List.forall_mem_cons] at hl
      rw [absorb, succ_eq hw]
      split
      · grind
      · rename_i hjoins
        obtain ⟨hle, hlt, hsub, habove, hsame⟩ := ih (max_lt hw hl.1) hl.2 hrest
        refine ⟨(le_max_left _ _).trans hle, hlt, hsub.cons next, habove, fun n => ?_⟩
        -- the number absorbed is the one after the watermark, or was known
        have hmax : n ≤ max w next ↔ n ≤ w ∨ n = next := by omega
        rw [hsame, List.mem_cons, hmax, or_assoc]

/-- **Moving the watermark on** keeps a state that knows just what is done. -/
theorem Tracks.absorb_contiguous (h : Tracks base calls s) {seq : ℕ} (calls' : List Call)
    (hw : s.watermark ≤ seq) (hseq : seq < 2 ^ 64 - 1)
    (hl : ∀ n ∈ s.finished_above, n < 2 ^ 64 - 1) (hdone : ∀ n, base < n → (Done calls' n ↔ Done calls n ∨ n ≤ seq)) :
    Tracks base calls' (absorb_contiguous { s with watermark := seq }) := by
  obtain ⟨hle, hlt, hsub, habove, hsame⟩ := absorb_spec hseq hl h.sorted
  exact {
    base_le := (h.base_le.trans hw).trans hle
    lt_max := hlt
    above := habove
    sorted := h.sorted.sublist hsub
    done_iff := by
      intro n hn
      have hknown : n ≤ s.watermark → n ≤ seq := fun hle => hle.trans hw
      refine (hdone n hn).trans (Iff.trans ?_ (hsame n).symm)
      rw [h.done_iff n hn]
      tauto }

/-! ## The calls -/

theorem done_append : Done (calls ++ [c]) n ↔ Done calls n ∨ Done [c] n := by
  simp only [Done, List.mem_append, and_or_left, exists_or]
  exact or_or_or_comm

theorem done_finish : Done [.finish seq] n ↔ n = seq := by
  simp [Done]

theorem done_raise_to : Done [.raise_to seq] n ↔ n ≤ seq := by
  simp [Done]

theorem Tracks.kept_lt (h : Tracks base calls s) (hcalls : ∀ c ∈ calls, c.seq < 2 ^ 64 - 1) :
    ∀ n ∈ s.finished_above, n < 2 ^ 64 - 1 := by
  intro n hn
  have habove := h.above n hn
  have hbase := h.base_le
  rcases (h.done_iff n (by omega)).2 (Or.inr hn) with hfinish | ⟨seq, hle, hraise⟩
  · exact hcalls _ hfinish
  · exact lt_of_le_of_lt hle (hcalls _ hraise)

/-- **A call keeps the state tracking.** -/
theorem Tracks.step (h : Tracks base calls s) (hcalls : ∀ c ∈ calls, c.seq < 2 ^ 64 - 1)
    (hc : c.seq < 2 ^ 64 - 1) : Tracks base (calls ++ [c]) (step s c) := by
  have hkept := h.kept_lt hcalls
  have hbase := h.base_le
  have hsucc := succ_eq h.lt_max
  rcases c with seq | seq
  · rw [AppliedSeqs.step, finish, hsucc]
    split
    · -- the next number
      have hw : s.watermark ≤ seq := by omega
      obtain ⟨h₁, h₂, h₃, h₄, h₅⟩ := h.absorb_contiguous (calls ++ [.finish seq]) hw hc hkept
        fun n hn => by
          have hup : n ≤ seq ↔ n ≤ s.watermark ∨ n = seq := by omega
          rw [done_append, done_finish, h.done_iff n hn, hup]
          tauto
      exact ⟨h₁, h₂, h₃, h₄, h₅⟩
    · rename_i hnext
      split
      · -- one above a gap waits
        refine ⟨hbase, h.lt_max, fun n hn => ?_, pairwise_insert h.sorted, fun n hn => ?_⟩
        · show s.watermark + 1 < n
          rcases mem_insert.1 hn with rfl | hn
          · omega
          · exact h.above n hn
        · rw [done_append, done_finish, h.done_iff n hn, mem_insert]
          tauto
      · refine ⟨hbase, h.lt_max, h.above, h.sorted, fun n hn => ?_⟩
        have hknown : n = seq → n ≤ s.watermark := by omega
        rw [done_append, done_finish, h.done_iff n hn]
        tauto
  · rw [AppliedSeqs.step, raise_to]
    split
    · rename_i hup
      obtain ⟨h₁, h₂, h₃, h₄, h₅⟩ := h.absorb_contiguous (calls ++ [.raise_to seq]) hup.le hc hkept
        fun n hn => by rw [done_append, done_raise_to]
      exact ⟨h₁, h₂, h₃, h₄, h₅⟩
    · refine ⟨hbase, h.lt_max, h.above, h.sorted, fun n hn => ?_⟩
      have hknown : n ≤ seq → n ≤ s.watermark := by omega
      rw [done_append, done_raise_to, h.done_iff n hn]
      tauto

/-- **Any calls keep the state tracking.** -/
theorem tracks_run (hbase : base < 2 ^ 64 - 1) (hcalls : ∀ c ∈ calls, c.seq < 2 ^ 64 - 1) :
    Tracks base calls (run base calls) := by
  induction calls using List.reverseRecOn with
  | nil =>
      refine ⟨le_rfl, hbase, fun n hn => absurd hn List.not_mem_nil, List.Pairwise.nil,
        fun n hn => ?_⟩
      simp [Done, run, start]
      omega
  | append_singleton calls c ih =>
      rw [List.forall_mem_append] at hcalls
      rw [run, List.foldl_append]
      exact (ih hcalls.1).step hcalls.1 (hcalls.2 c (List.mem_singleton_self c))

theorem Tracks.isGreatest (h : Tracks base calls s) :
    IsGreatest {w | base ≤ w ∧ ∀ n, base < n → n ≤ w → Done calls n} s.watermark := by
  refine ⟨⟨h.base_le, fun n hn hle => (h.done_iff n hn).2 (Or.inl hle)⟩, ?_⟩
  rintro w ⟨hbase, hdone⟩
  by_contra hlt
  have hle := h.base_le
  rcases (h.done_iff (s.watermark + 1) (by omega)).1 (hdone _ (by omega) (by omega)) with hw | hmem
  · omega
  · exact absurd (h.above _ hmem) (lt_irrefl _)

/-! ## Progress -/

/-- A call changes what is done above the base. -/
def Changes (base : ℕ) (calls : List Call) (c : Call) : Prop :=
  ∃ n, base < n ∧ Done (calls ++ [c]) n ∧ ¬ Done calls n

/-- The number after the watermark is not done, nor is one above that does
not wait. -/
theorem Tracks.not_done (h : Tracks base calls s) (hn : s.watermark < n)
    (hwaits : n ∉ s.finished_above) : ¬ Done calls n := by
  intro hdone
  have hbase := h.base_le
  grind [done_iff]

theorem Tracks.succ_not_mem (h : Tracks base calls s) : s.watermark + 1 ∉ s.finished_above :=
  fun hmem => absurd (h.above _ hmem) (lt_irrefl _)

theorem Tracks.not_changes (h : Tracks base calls s)
    (hc : ∀ n, Done [c] n → n ≤ s.watermark) : ¬ Changes base calls c := by
  rintro ⟨n, hbase, hdone, hnot⟩
  grind [done_append, done_iff]

/-- **The counter grows** with each call that changes what is done, and a call
that repeats what is known leaves the state, but for a `finish` of a number
that waits. -/
theorem Tracks.progress (h : Tracks base calls s) (c : Call) :
    (Changes base calls c → s.progress < (AppliedSeqs.step s c).progress) ∧
      (¬ Changes base calls c → (∀ seq ∈ s.finished_above, c ≠ .finish seq) →
        AppliedSeqs.step s c = s) := by
  have hbase := h.base_le
  have hsucc := succ_eq h.lt_max
  rcases c with seq | seq
  · rw [AppliedSeqs.step, finish, hsucc]
    split
    · rename_i hnext
      refine ⟨fun _ => Nat.lt_succ_self _, fun hnot => absurd ?_ hnot⟩
      exact ⟨seq, by omega, done_append.2 (Or.inr (done_finish.2 rfl)),
        hnext ▸ h.not_done (Nat.lt_succ_self _) h.succ_not_mem⟩
    · split
      · rename_i hgap
        refine ⟨fun _ => Nat.lt_succ_self _, fun hnot hwaits => absurd ?_ hnot⟩
        exact ⟨seq, by omega, done_append.2 (Or.inr (done_finish.2 rfl)),
          h.not_done hgap fun hmem => hwaits seq hmem rfl⟩
      grind [not_changes, done_finish]
  · rw [AppliedSeqs.step, raise_to]
    split
    · rename_i hup
      refine ⟨fun _ => Nat.lt_succ_self _, fun hnot => absurd ?_ hnot⟩
      exact ⟨s.watermark + 1, by omega, done_append.2 (Or.inr (done_raise_to.2 hup)),
        h.not_done (Nat.lt_succ_self _) h.succ_not_mem⟩
    grind [not_changes, done_raise_to]

/-- A number that waits and finishes again only counts, which the assertion
rules out. -/
theorem Tracks.finish_again (h : Tracks base calls s) (hmem : seq ∈ s.finished_above) :
    finish s seq = { s with progress := s.progress + 1 } ∧ finish_assertion s seq = false := by
  have habove := h.above seq hmem
  constructor
  · rw [finish, succ_eq h.lt_max, if_neg (by omega), if_pos (by omega),
      insert_of_mem h.sorted hmem]
  · simp [finish_assertion, hmem]

/-- **The watermark, after any calls**: the greatest number up to which every
one from the base on finished or is covered. What waits is above the next
number. The counter grows with each call that changes what is done, and stays
with one that repeats what is known, but for a `finish` of a number that
waits, which only counts. -/
theorem watermark_tracks (hbase : base < 2 ^ 64 - 1) (hcalls : ∀ c ∈ calls, c.seq < 2 ^ 64 - 1)
    (c : Call) :
    IsGreatest {w | base ≤ w ∧ ∀ n, base < n → n ≤ w → Done calls n} (run base calls).watermark ∧
      (∀ n ∈ (run base calls).finished_above, (run base calls).watermark + 1 < n) ∧
      (Changes base calls c → (run base calls).progress < (run base (calls ++ [c])).progress) ∧
      (¬ Changes base calls c → (∀ seq ∈ (run base calls).finished_above, c ≠ .finish seq) →
        (run base (calls ++ [c])).progress = (run base calls).progress) ∧
      ∀ seq ∈ (run base calls).finished_above,
        finish_assertion (run base calls) seq = false ∧
        run base (calls ++ [.finish seq]) =
          { run base calls with progress := (run base calls).progress + 1 } := by
  have h := tracks_run hbase hcalls
  have hlast : ∀ c, run base (calls ++ [c]) = AppliedSeqs.step (run base calls) c := by
    intro c
    rw [run, List.foldl_append]
    rfl
  obtain ⟨hgrows, hstays⟩ := h.progress c
  refine ⟨h.isGreatest, h.above, ?_, fun hnot hwaits => ?_, fun seq hmem => ?_⟩
  · rw [hlast]
    exact hgrows
  · rw [hlast, hstays hnot hwaits]
  · rw [hlast]
    exact ⟨(h.finish_again hmem).2, (h.finish_again hmem).1⟩

theorem watermark_tracks_gap :
    IsGreatest {w | 0 ≤ w ∧ ∀ n, 0 < n → n ≤ w → Done [.finish 3, .raise_to 1, .finish 2] n} 3 :=
  (@watermark_tracks 0 [.finish 3, .raise_to 1, .finish 2] (by decide) (by decide)
    (.raise_to 4)).1

/-- A number that waits counts again when it finishes again, and a raise to
the last number of all leaves behind what waited. -/
theorem watermark_tracks_counterexample :
    (¬ Changes 0 [.finish 3] (.finish 3) ∧
      (run 0 [.finish 3]).progress < (run 0 ([.finish 3] ++ [.finish 3])).progress) ∧
    ¬ ∀ n ∈ (run 0 [.finish 5, .raise_to (2 ^ 64 - 1)]).finished_above,
      (run 0 [.finish 5, .raise_to (2 ^ 64 - 1)]).watermark + 1 < n := by
  refine ⟨⟨?_, by decide⟩, by decide⟩
  rintro ⟨n, -, hdone, hnot⟩
  rcases done_append.1 hdone with h | h
  · exact hnot h
  · exact hnot h

end AppliedSeqs

end Laurus
