import Mathlib

/-!
# A list in pieces

`chunks n l` cuts `l` into pieces of `n`, with what is left in the last. Over
ascending keys the pieces are found by their last keys: the first piece that
does not end before a key of the list is the one with it.
-/

namespace Laurus

variable {α κ : Type*}

/-- The pieces, as far as `fuel` goes. -/
def chunks_from (n : ℕ) : ℕ → List α → List (List α)
  | 0, _ => []
  | _ + 1, [] => []
  | fuel + 1, a :: l => (a :: l).take n :: chunks_from n fuel ((a :: l).drop n)

/-- `chunks`. -/
def chunks (n : ℕ) (l : List α) : List (List α) := chunks_from n l.length l

theorem chunks_nil (n : ℕ) : chunks n ([] : List α) = [] := rfl

theorem mem_chunks_from {n : ℕ} (hn : 0 < n) : ∀ {fuel : ℕ} {l : List α} {chunk : List α},
    chunk ∈ chunks_from n fuel l → chunk ≠ [] ∧ ∀ a ∈ chunk, a ∈ l := by
  intro fuel
  induction fuel with
  | zero => exact fun h => absurd h List.not_mem_nil
  | succ fuel ih =>
      rintro (_ | ⟨a, l⟩) chunk h
      · exact absurd h List.not_mem_nil
      rcases List.mem_cons.1 h with rfl | h
      · refine ⟨fun hnil => ?_, fun b hb => List.mem_of_mem_take hb⟩
        have hlen := congrArg List.length hnil
        grind
      grind

theorem mem_chunks {n : ℕ} (hn : 0 < n) {l : List α} {chunk : List α} (h : chunk ∈ chunks n l) :
    chunk ≠ [] ∧ ∀ a ∈ chunk, a ∈ l := mem_chunks_from hn h

section Keys

variable [LinearOrder κ] {key : α → κ}

theorem le_last_key {chunk : List α} (h : chunk.Pairwise fun a b => key a < key b) {a : α}
    (ha : a ∈ chunk) : ∃ last, chunk.getLast? = some last ∧ key a ≤ key last := by
  have hne := List.ne_nil_of_mem ha
  rw [← List.dropLast_append_getLast hne] at h ha
  grind [List.mem_singleton_self]

/-- **The first piece that does not end before an element has it.** -/
theorem find_chunks_from {n : ℕ} (hn : 0 < n) {a : α} {p : List α → Bool}
    (hp : ∀ chunk last, chunk.getLast? = some last → p chunk = decide (key a ≤ key last)) :
    ∀ {fuel : ℕ} {l : List α}, l.Pairwise (fun a b => key a < key b) → l.length ≤ fuel → a ∈ l →
      ∃ chunk, (chunks_from n fuel l).find? p = some chunk ∧ a ∈ chunk := by
  intro fuel
  induction fuel with
  | zero =>
      grind
  | succ fuel ih =>
      rintro (_ | ⟨b, l⟩) hsorted hlen ha
      · exact absurd ha List.not_mem_nil
      rw [chunks_from]
      have hsplit := List.take_append_drop n (b :: l)
      obtain ⟨htake, hdrop, hcross⟩ := List.pairwise_append.1 (hsplit.symm ▸ hsorted)
      rw [← hsplit] at ha
      rcases List.mem_append.1 ha with ha | ha
      · obtain ⟨last, hlast, hle⟩ := le_last_key htake ha
        grind
      · -- the piece ends before the element
        have hne : (b :: l).take n ≠ [] := by grind
        have hlt := hcross _ (List.getLast_mem hne) a ha
        rw [List.find?_cons_of_neg ?_]
        · refine ih hdrop ?_ ha
          rw [List.length_drop]
          omega
        grind

theorem find_chunks {n : ℕ} (hn : 0 < n) {a : α} {l : List α} {p : List α → Bool}
    (hp : ∀ chunk last, chunk.getLast? = some last → p chunk = decide (key a ≤ key last))
    (h : l.Pairwise fun a b => key a < key b) (ha : a ∈ l) :
    ∃ chunk, (chunks n l).find? p = some chunk ∧ a ∈ chunk :=
  find_chunks_from hn hp h (Nat.le_refl _) ha

/-- **The last keys of the pieces ascend.** -/
theorem pairwise_chunks_from {n : ℕ} (hn : 0 < n) : ∀ {fuel : ℕ} {l : List α},
    l.Pairwise (fun a b => key a < key b) →
    (chunks_from n fuel l).Pairwise fun chunk chunk' =>
      ∀ a ∈ chunk, ∀ b ∈ chunk', key a < key b := by
  intro fuel
  induction fuel with
  | zero => exact fun _ => List.Pairwise.nil
  | succ fuel ih =>
      rintro (_ | ⟨b, l⟩) hsorted
      · exact List.Pairwise.nil
      have hsplit := List.take_append_drop n (b :: l)
      obtain ⟨-, hdrop, hcross⟩ := List.pairwise_append.1 (hsplit.symm ▸ hsorted)
      refine List.pairwise_cons.2 ⟨fun chunk' hchunk a ha c hc => ?_, ih hdrop⟩
      exact hcross a ha c ((mem_chunks_from hn hchunk).2 c hc)

theorem pairwise_chunks {n : ℕ} (hn : 0 < n) {l : List α}
    (h : l.Pairwise fun a b => key a < key b) :
    (chunks n l).Pairwise fun chunk chunk' => ∀ a ∈ chunk, ∀ b ∈ chunk', key a < key b :=
  pairwise_chunks_from hn h

end Keys

end Laurus
