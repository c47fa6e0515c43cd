import Laurus.Matcher.Model.PostingIter
import Laurus.Posting.Helpers.Checks

/-!
# Skipping by the table loses no document

`RuledOut` is what the descent maintains: every posting from the cursor
up to a bound is below the target. A window whose last document is below
the target rules its postings out, and the windows the descent passes
over unseen lie behind the cursor (`ruledOut_descend`). So the scan
starts no later than the first match, and a skip leaves exactly the
documents from the target on (`live_skip_to`).
-/

namespace Laurus

namespace PostingIter

variable {doc_ids : List UInt32} {cursor q q' : ℕ} {target : UInt32}

/-- The postings from the cursor up to `q` are below the target. -/
def RuledOut (doc_ids : List UInt32) (cursor : ℕ) (target : UInt32) (q : ℕ) : Prop :=
  ∀ i d, cursor ≤ i → i < q → doc_ids[i]? = some d → d < target

theorem RuledOut.mono (h : RuledOut doc_ids cursor target q') (hq : q ≤ q') :
    RuledOut doc_ids cursor target q := fun i d hi hlt hd => h i d hi (by omega) hd

theorem ruledOut_cursor (hq : q ≤ cursor) : RuledOut doc_ids cursor target q :=
  fun i d hi hlt _ => by omega

theorem RuledOut.max (h : RuledOut doc_ids cursor target q) :
    RuledOut doc_ids cursor target (max q cursor) := by
  intro i d hi hlt hd
  exact h i d hi (by omega) hd

/-- A window whose last document is below the target is ruled out, with all
before it. -/
theorem ruledOut_of_entry (hasc : doc_ids.Pairwise (· < ·)) {level : List UInt32} {k j : ℕ}
    {d : UInt32} (hlevel : (build_skip_levels doc_ids)[k]? = some level)
    (hd : level[j]? = some d) (hlt : d < target) :
    RuledOut doc_ids cursor target ((j + 1) * SKIP_INTERVAL ^ (k + 1)) := by
  obtain ⟨hfit, hlast⟩ := build_skip_levels_get hlevel hd
  intro i d' _ hi hd'
  grind [List.pairwise_iff_getElem]

theorem ruledOut_partition_point (hasc : doc_ids.Pairwise (· < ·)) {level : List UInt32}
    {k lo : ℕ} (width : ℕ) (hlevel : (build_skip_levels doc_ids)[k]? = some level)
    (hlo : RuledOut doc_ids cursor target (lo * SKIP_INTERVAL ^ (k + 1))) :
    RuledOut doc_ids cursor target
      ((lo + partition_point ((level.drop lo).take width) target) * SKIP_INTERVAL ^ (k + 1)) := by
  set pp := partition_point ((level.drop lo).take width) target with hpp
  rcases Nat.eq_zero_or_pos pp with h0 | hpos
  · rw [h0, Nat.add_zero]
    exact hlo
  · -- the entry just before the partition point is below the target
    have hbefore : pp - 1 < pp := by omega
    have hlt := List.not_of_lt_findIdx hbefore
    have hle : pp ≤ ((level.drop lo).take width).length := List.findIdx_le_length
    have hentry : level[lo + (pp - 1)]? = some ((level.drop lo).take width)[pp - 1] := by simp
    have hmul : lo + pp = lo + (pp - 1) + 1 := by omega
    rw [hmul]
    exact ruledOut_of_entry hasc hlevel hentry (by simpa using hlt)

/-- **The descent rules out what it passes**, level by level. -/
theorem ruledOut_descend (hasc : doc_ids.Pairwise (· < ·)) (k : ℕ) :
    ∀ {bucket_index lower : ℕ}, k ≤ (build_skip_levels doc_ids).length →
      RuledOut doc_ids cursor target lower →
      RuledOut doc_ids cursor target (bucket_index * SKIP_INTERVAL ^ (k + 1)) →
      RuledOut doc_ids cursor target
        (descend cursor target ((build_skip_levels doc_ids).take k).reverse
          (SKIP_INTERVAL ^ (k + 1)) bucket_index lower) := by
  induction k with
  | zero => grind [descend]
  | succ k ih =>
      intro bucket_index lower hk hlower hbucket
      obtain ⟨lvl, hlvl⟩ : ∃ lvl, (build_skip_levels doc_ids)[k]? = some lvl :=
        ⟨_, List.getElem?_eq_getElem (by omega)⟩
      have hlevels : ((build_skip_levels doc_ids).take (k + 1)).reverse =
          lvl :: ((build_skip_levels doc_ids).take k).reverse := by
        rw [List.take_add_one, hlvl]
        simp
      have hstep : SKIP_INTERVAL ^ (k + 1 + 1) / SKIP_INTERVAL = SKIP_INTERVAL ^ (k + 1) := by
        exact Nat.mul_div_cancel _ (by decide)
      rw [hlevels, descend, hstep]
      set lo := max (cursor / SKIP_INTERVAL ^ (k + 1)) (bucket_index * SKIP_INTERVAL) with hlodef
      have hlo : RuledOut doc_ids cursor target (lo * SKIP_INTERVAL ^ (k + 1)) := by
        rcases le_total (cursor / SKIP_INTERVAL ^ (k + 1)) (bucket_index * SKIP_INTERVAL) with h | h
        · grind
        · rw [hlodef, max_eq_left h]
          exact ruledOut_cursor (Nat.div_mul_le_self _ _)
      simp only
      split
      · rename_i hhi
        refine ih (by omega) hlower.max (hlo.mono (Nat.mul_le_mul_right _ ?_))
        omega
      · have hpp := ruledOut_partition_point hasc
          (min (bucket_index * SKIP_INTERVAL + SKIP_INTERVAL) lvl.length - lo) hlvl hlo
        exact ih (by omega) hpp hpp

/-- **The table never skips a match.** -/
theorem ruledOut_skip_via_levels (it : PostingIter) (hasc : it.doc_ids.Pairwise (· < ·))
    (htable : it.skip_levels = build_skip_levels it.doc_ids) (hpos : it.position < it.doc_ids.length) :
    RuledOut it.doc_ids it.position target (it.skip_via_levels target) ∧
      it.position ≤ it.skip_via_levels target ∧
      it.skip_via_levels target ≤ it.doc_ids.length := by
  rw [skip_via_levels]
  simp only [if_neg (Nat.not_le.2 hpos), htable]
  split
  · exact ⟨ruledOut_cursor le_rfl, le_rfl, hpos.le⟩
  · rename_i top_lvl lower_levels hrev
    set L := build_skip_levels it.doc_ids with hL
    have hLeq : L = lower_levels.reverse ++ [top_lvl] := by
      rw [← List.reverse_reverse L, hrev, List.reverse_cons]
    have hlen : L.length = lower_levels.length + 1 := by simp [hLeq]
    have htop : L[lower_levels.length]? = some top_lvl := by
      rw [hLeq, List.getElem?_append_right (by simp)]
      simp
    have htake : (L.take lower_levels.length).reverse = lower_levels := by grind
    have hfit : SKIP_INTERVAL ^ (lower_levels.length + 1) < 2 ^ 64 := by
      have hmap := htop
      rw [hL, build_skip_levels, List.getElem?_map, Option.map_eq_some_iff] at hmap
      obtain ⟨s, hs, -⟩ := hmap
      exact (skip_level_shape_get hs).2.1
    have hmin : min (SKIP_INTERVAL ^ (lower_levels.length + 1)) (2 ^ 64 - 1) =
        SKIP_INTERVAL ^ (lower_levels.length + 1) := by omega
    simp only [hmin]
    split
    · exact ⟨ruledOut_cursor le_rfl, le_rfl, hpos.le⟩
    · have hlo : RuledOut it.doc_ids it.position target
          (it.position / SKIP_INTERVAL ^ (lower_levels.length + 1) *
            SKIP_INTERVAL ^ (lower_levels.length + 1)) :=
        ruledOut_cursor (Nat.div_mul_le_self _ _)
      have hbucket := ruledOut_partition_point hasc top_lvl.length htop hlo
      rw [List.take_of_length_le (by simp)] at hbucket
      have hdesc := ruledOut_descend hasc lower_levels.length
        (by rw [← hL]; omega) hbucket hbucket
      rw [← hL, htake] at hdesc
      refine ⟨(hdesc.max).mono (Nat.min_le_left _ _), ?_, Nat.min_le_right _ _⟩
      exact le_min (le_max_right _ _) hpos.le

/-! ## The scan, and the skip -/

/-- The documents from the position on. -/
def live (it : PostingIter) : List UInt32 := it.doc_ids.drop it.position

theorem scan_spec {docs : List UInt32} (hasc : docs.Pairwise (· < ·)) : ∀ p,
    p ≤ scan target docs p ∧
      docs.drop (scan target docs p - p) = docs.filter fun d => target ≤ d := by
  induction docs with
  | nil => intro p; simp [scan]
  | cons d docs ih =>
      intro p
      rw [List.pairwise_cons] at hasc
      rw [scan]
      split
      · grind [List.filter_eq_self]
      · rename_i hle
        obtain ⟨hp, hdrop⟩ := ih hasc.2 (p + 1)
        refine ⟨by omega, ?_⟩
        rw [show scan target docs (p + 1) - p = scan target docs (p + 1) - (p + 1) + 1 by omega,
          List.drop_succ_cons, hdrop, List.filter_cons_of_neg (by simpa using hle)]

theorem filter_drop_of_ruledOut (h : RuledOut doc_ids cursor target q) (hq : cursor ≤ q) :
    (doc_ids.drop q).filter (fun d => target ≤ d) =
      (doc_ids.drop cursor).filter fun d => target ≤ d := by
  have hsplit : doc_ids.drop cursor =
      (doc_ids.drop cursor).take (q - cursor) ++ doc_ids.drop q := by
    conv_lhs => rw [← List.take_append_drop (q - cursor) (doc_ids.drop cursor)]
    rw [List.drop_drop, show cursor + (q - cursor) = q by omega]
  have hnone : ((doc_ids.drop cursor).take (q - cursor)).filter (fun d => target ≤ d) = [] := by
    rw [List.filter_eq_nil_iff]
    intro d hd
    obtain ⟨i, hi⟩ := List.mem_iff_getElem?.1 hd
    rw [List.getElem?_take] at hi
    split at hi
    · rw [List.getElem?_drop] at hi
      have := h (cursor + i) d (by omega) (by omega) hi
      simpa using this
    · cases hi
  grind

/-- **A skip leaves the documents from the target on**, and says whether
there are any. -/
theorem live_skip_to {it : PostingIter} (hasc : it.doc_ids.Pairwise (· < ·))
    (htable : it.skip_levels = build_skip_levels it.doc_ids)
    (hpos : it.position < it.doc_ids.length) (target : ℕ) :
    (it.skip_to target).2.doc_ids = it.doc_ids ∧
      (it.skip_to target).2.skip_levels = it.skip_levels ∧
      (it.skip_to target).2.started = true ∧
      (it.skip_to target).2.live = it.live.filter (fun d => target ≤ d.toNat) ∧
      (it.skip_to target).1 = decide ((it.skip_to target).2.position < it.doc_ids.length) := by
  rw [skip_to]
  simp only [if_neg (show ¬ it.doc_ids.length = 0 by omega)]
  by_cases h32 : 2 ^ 32 ≤ target
  · -- no document of a segment is that large
    simp only [if_pos h32, live, List.drop_length, true_and]
    refine ⟨?_, by simp⟩
    symm
    rw [List.filter_eq_nil_iff]
    intro d _
    have := d.toNat_lt
    simp only [decide_eq_true_eq]
    omega
  · simp only [if_neg h32]
    have htoNat : (UInt32.ofNat target).toNat = target := by
      rw [UInt32.toNat_ofNat']; omega
    set start := ({ it with started := true } : PostingIter).skip_via_levels (UInt32.ofNat target)
    have hruled : RuledOut it.doc_ids it.position (UInt32.ofNat target) start ∧
        it.position ≤ start ∧ start ≤ it.doc_ids.length :=
      ruledOut_skip_via_levels { it with started := true } hasc htable hpos
    have hsub : (it.doc_ids.drop start).Pairwise (· < ·) :=
      List.Pairwise.sublist (List.drop_sublist _ _) hasc
    obtain ⟨hscan, hdrop⟩ := scan_spec hsub start
    refine ⟨trivial, trivial, trivial, ?_, trivial⟩
    rw [List.drop_drop, show start + (scan (UInt32.ofNat target) (it.doc_ids.drop start) start -
      start) = scan (UInt32.ofNat target) (it.doc_ids.drop start) start by omega] at hdrop
    simp only [live]
    rw [hdrop, filter_drop_of_ruledOut hruled.1 hruled.2.1]
    refine List.filter_congr fun d _ => ?_
    rw [decide_eq_decide, UInt32.le_iff_toNat_le, htoNat]

end PostingIter

end Laurus
