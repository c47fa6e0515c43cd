import Laurus.Matcher.Helpers.Dispatch
import Laurus.Matcher.Model.Matcher

/-!
# What a tree of matchers means

A tree denotes a set: a posting list its documents, `AllMatcher` the numbers
below its bound, and the combinators the operations of sets. The matcher of
the tree is a cursor over that set, whatever forward calls it is given.
-/

namespace Laurus

namespace MatcherTree

mutual

/-- The documents of a tree. -/
def denote : MatcherTree → Finset ℕ
  | all max_doc => Finset.range max_doc.toNat
  | posting doc_ids => (doc_ids.1.map UInt32.toNat).toFinset
  | disjunction matchers => Matcher.anyOf (denotes matchers)
  | conjunction matchers => Matcher.allOf (denotes matchers)
  | conjunction_not positive negatives => positive.denote \ Matcher.anyOf (denotes negatives)
  | not negative max_doc => Finset.range max_doc.toNat \ negative.denote

/-- The documents of each tree. -/
def denotes : List MatcherTree → List (Finset ℕ)
  | [] => []
  | tree :: trees => tree.denote :: denotes trees

end

variable {depth : ℕ} {tree : MatcherTree} {trees : List MatcherTree}

theorem depth_le_depths (h : tree ∈ trees) : tree.depth ≤ depths trees := by
  induction trees with
  | nil => cases h
  | cons other trees ih =>
      rw [depths]
      grind

theorem build_all (h : ∀ tree ∈ trees, ∃ m, tree.build depth = some m ∧
    Matcher.At depth tree.denote m) :
    ∃ ms, trees.mapM (build depth) = some ms ∧
      List.Forall₂ (Matcher.At depth) (denotes trees) ms := by
  induction trees with
  | nil => exact ⟨[], rfl, .nil⟩
  | cons tree trees ih =>
      obtain ⟨m, hm, hat⟩ := h tree List.mem_cons_self
      obtain ⟨ms, hms, hall⟩ := ih fun t ht => h t (List.mem_cons_of_mem _ ht)
      exact ⟨m :: ms, by simp [hm, hms], .cons hat hall⟩

/-- **The constructors make a cursor at the start of what the tree denotes.** -/
theorem build_spec : ∀ (depth : ℕ) (tree : MatcherTree), tree.depth ≤ depth →
    ∃ m, tree.build depth = some m ∧ Matcher.At depth tree.denote m := by
  intro depth
  induction depth with
  | zero =>
      intro tree h
      cases tree <;> simp [MatcherTree.depth] at h
  | succ depth ih =>
      intro tree hdepth
      have hchildren : ∀ trees, depths trees ≤ depth → ∃ ms,
          trees.mapM (build depth) = some ms ∧
            List.Forall₂ (Matcher.At depth) (denotes trees) ms :=
        fun trees h => build_all fun t ht => ih t ((depth_le_depths ht).trans h)
      have hmax : ∀ max_doc : UInt64, max_doc.toNat ≤ END := by
        intro max_doc
        have := max_doc.toNat_lt
        rw [END]
        omega
      cases tree with
      | all max_doc => exact ⟨_, rfl, Matcher.at_all (hmax max_doc)⟩
      | posting doc_ids => exact ⟨_, rfl, Matcher.at_posting doc_ids.2⟩
      | disjunction trees =>
          rw [MatcherTree.depth] at hdepth
          obtain ⟨ms, hms, hall⟩ := hchildren trees (by omega)
          exact ⟨.disjunction (DisjunctionMatcher.new (Matcher.ops depth) ms),
            by simp [build, hms], Matcher.at_disjunction hall⟩
      | conjunction trees =>
          rw [MatcherTree.depth] at hdepth
          obtain ⟨ms, hms, hall⟩ := hchildren trees (by omega)
          obtain ⟨m, hnew, hat⟩ := Matcher.at_conjunction hall
          exact ⟨.conjunction m, by simp [build, hms, hnew], hat⟩
      | conjunction_not positive negatives =>
          rw [MatcherTree.depth] at hdepth
          obtain ⟨p, hp, hpos⟩ := ih positive (by omega)
          obtain ⟨ms, hms, hall⟩ := hchildren negatives (by omega)
          obtain ⟨m, hnew, hat⟩ := Matcher.at_conjunction_not hpos hall
          exact ⟨.conjunction_not m, by simp [build, hp, hms, hnew], hat⟩
      | not negative max_doc =>
          rw [MatcherTree.depth] at hdepth
          obtain ⟨n, hn, hneg⟩ := ih negative (by omega)
          obtain ⟨m, hnew, hat⟩ := Matcher.at_not hneg (hmax max_doc)
          exact ⟨.not m, by simp [build, hn, hnew], hat⟩

end MatcherTree

/-! ## The semantics -/

/-- **A tree's matcher visits what the tree denotes.** Whatever `next` and
forward `skip_to` calls came before, the matcher stands on the first document
from its position on, a drain lists those documents in ascending order, and
each call says truly whether it found one. -/
theorem matcher_tree_semantics (tree : MatcherTree) (depth : ℕ) (calls : List CursorCall) {p : ℕ}
    (hdepth : tree.depth ≤ depth) (hforward : Onward END tree.denote 0 calls p) :
    let ops := Matcher.ops depth
    ∃ m m', tree.build depth = some m ∧ runCalls ops.next ops.skip_to m calls = some m' ∧
      ops.doc_id m' = first END (upFrom tree.denote p) ∧
      (ops.is_exhausted m' = true ↔ ops.doc_id m' = END) ∧
      drain_matcher ops (2 ^ 64) m' = some ((upFrom tree.denote p).sort (· ≤ ·)) ∧
      (∃ found m'', ops.next m' = some (found, m'') ∧
        (found = true ↔ ∃ d ∈ tree.denote, p ≤ d ∧ ops.doc_id m' < d)) ∧
      ∀ target, p ≤ target → ∃ found m'', ops.skip_to m' target = some (found, m'') ∧
        (found = true ↔ ∃ d ∈ tree.denote, target ≤ d) := by
  intro ops
  let V := Matcher.treeView depth
  obtain ⟨m, hbuild, hinv, hrem, hlow⟩ := MatcherTree.build_spec depth tree hdepth
  have hstart : V.rem m = upFrom tree.denote 0 :=
    hrem.trans (Finset.filter_true_of_mem fun d _ => Nat.zero_le d).symm
  obtain ⟨m', hrun, hinv', hrem', hlow'⟩ := V.run_spec hforward hinv hstart hlow.le
  have hhead : ops.doc_id m' = first END (upFrom tree.denote p) := by
    rw [← hrem']
    exact V.head_eq hinv'
  have hended : ops.is_exhausted m' = true ↔ ops.doc_id m' = END := by
    rw [hhead, ← hrem', first_eq_top_iff fun _ => V.lt_top hinv']
    exact V.ended_iff hinv'
  refine ⟨m, m', hbuild, hrun, hhead, hended, ?_, ?_, fun target htarget => ?_⟩
  · rw [← hrem']
    exact drain_matcher_spec V (2 ^ 64) m' hinv' (card_rem_lt V hinv')
  · obtain ⟨found, m'', hnext, -, hafter, hfound, -⟩ := V.next_spec hinv'
    refine ⟨found, m'', hnext, hfound.trans ?_⟩
    rw [hafter, hrem']
    simp only [Finset.Nonempty, Finset.mem_filter, mem_upFrom, and_assoc]
    rfl
  · obtain ⟨found, m'', hskip, -, hafter, hfound, -⟩ :=
      V.skip_spec hinv' (hlow'.trans htarget)
    refine ⟨found, m'', hskip, hfound.trans ?_⟩
    rw [hafter, hrem']
    simp only [Finset.Nonempty, Finset.mem_filter, mem_upFrom]
    constructor
    · rintro ⟨d, ⟨hd, -⟩, hle⟩
      exact ⟨d, hd, hle⟩
    · rintro ⟨d, hd, hle⟩
      exact ⟨d, ⟨hd, htarget.trans hle⟩, hle⟩

/-- The documents 1, 5 and 9, or those below 8 without 2 and 3. -/
def MatcherTree.sample : MatcherTree :=
  .disjunction [.posting ⟨[1, 5, 9], by decide⟩,
    .conjunction_not (.all 8) [.posting ⟨[2, 3], by decide⟩]]

/-- After `next`, `skip_to(2)` and `next` the sample stands on 5. -/
theorem matcher_tree_semantics_sample :
    ∃ m m', MatcherTree.sample.build 3 = some m ∧
      runCalls (Matcher.ops 3).next (Matcher.ops 3).skip_to m [.next, .skip 2, .next] = some m' ∧
      (Matcher.ops 3).doc_id m' = 5 := by
  have hforward : Onward END MatcherTree.sample.denote 0 [.next, .skip 2, .next] 5 :=
    .next (by decide) (.skip (t := 2) (by decide) (.next (by decide) (.nil 5)))
  obtain ⟨m, m', hbuild, hrun, hdoc, -⟩ :=
    matcher_tree_semantics MatcherTree.sample 3 [.next, .skip 2, .next] (by decide) hforward
  exact ⟨m, m', hbuild, hrun, hdoc.trans (by decide)⟩

end Laurus
