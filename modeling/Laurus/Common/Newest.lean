import Mathlib.Data.List.Nodup
import Mathlib.Data.List.Sort

/-!
# The newest of several holders

Holders have distinct ages, and the newest one that has a key answers for it.
One newer holder answers first; holders between which no other stands may be
replaced by one of the newest one's age that answers as they do.
-/

namespace Laurus

variable {σ β : Type*} (age : σ → ℕ) (get : σ → Option β)

/-- The holders, the newest first. -/
def newest_first (holders : List σ) : List σ :=
  holders.insertionSort fun a b => age b ≤ age a

/-- The answer of the newest one that has any. -/
def newest_answer (holders : List σ) : Option β := (newest_first age holders).findSome? get

variable {age get} {holders sources kept : List σ} {s x : σ} {v : β}

theorem mem_newest_first : s ∈ newest_first age holders ↔ s ∈ holders :=
  List.mem_insertionSort _

theorem newest_first_sorted : (newest_first age holders).Pairwise fun a b => age b ≤ age a := by
  exact List.pairwise_insertionSort _ _

theorem newest_eq_none : newest_answer age get holders = none ↔ ∀ s ∈ holders, get s = none := by
  unfold newest_answer
  rw [List.findSome?_eq_none_iff]
  exact forall_congr' fun s => by rw [mem_newest_first]

theorem exists_newest (hs : s ∈ holders) (hget : get s = some v) :
    ∃ w, newest_answer age get holders = some w := by
  rw [← Option.isSome_iff_exists, ← Option.ne_none_iff_isSome]
  grind [newest_eq_none]

theorem of_newest_eq_some (h : newest_answer age get holders = some v) :
    ∃ s ∈ holders, get s = some v ∧ ∀ t ∈ holders, (get t).isSome → age t ≤ age s := by
  obtain ⟨before, s, after, hsplit, hget, hnone⟩ := List.findSome?_eq_some_iff.1 h
  have hs : s ∈ newest_first age holders := by grind
  refine ⟨s, mem_newest_first.1 hs, hget, fun t ht hsome => ?_⟩
  have hin : t ∈ before ++ s :: after := hsplit ▸ mem_newest_first.2 ht
  have hsorted : (before ++ s :: after).Pairwise fun a b => age b ≤ age a :=
    hsplit ▸ newest_first_sorted
  rcases List.mem_append.1 hin with hbefore | hrest
  · grind
  · rcases List.mem_cons.1 hrest with rfl | hafter
    · exact Nat.le_refl _
    · exact (List.pairwise_cons.1 (List.pairwise_append.1 hsorted).2.1).1 t hafter

/-- **The newest holder, of distinct ages.** -/
theorem newest_eq_some (hages : (holders.map age).Nodup) : newest_answer age get holders = some v ↔
    ∃ s ∈ holders, get s = some v ∧ ∀ t ∈ holders, (get t).isSome → age t ≤ age s := by
  refine ⟨of_newest_eq_some, fun ⟨s, hs, hget, hmax⟩ => ?_⟩
  obtain ⟨w, hw⟩ := exists_newest hs hget
  obtain ⟨t, ht, htget, htmax⟩ := of_newest_eq_some hw
  have hage : age s = age t :=
    Nat.le_antisymm (htmax s hs (by rw [hget]; rfl)) (hmax t ht (by rw [htget]; rfl))
  grind [List.inj_on_of_nodup_map]

theorem newest_answer_append (hages : (holders.map age).Nodup)
    (hnew : ∀ s ∈ holders, age s < age x) :
    newest_answer age get (holders ++ [x]) = (get x).or (newest_answer age get holders) := by
  have hall : ((holders ++ [x]).map age).Nodup := by grind
  match hx : get x with
  | some v =>
    refine (newest_eq_some hall).2 ⟨x, List.mem_append_right _ (List.mem_singleton_self x), hx, ?_⟩
    grind
  | none =>
    match hrest : newest_answer age get holders with
    | none =>
      grind [newest_eq_none]
    | some w =>
      grind [newest_eq_some]

/-- A holder in the place of `sources`: every other one is older than all of
them or newer than all of them, and it is as new as the newest of them. -/
structure Replaces (age : σ → ℕ) (holders sources kept : List σ) (x : σ) : Prop where
  mem : ∀ s, s ∈ holders ↔ s ∈ sources ∨ s ∈ kept
  apart : ∀ t ∈ kept, (∀ s ∈ sources, age t < age s) ∨ ∀ s ∈ sources, age s < age t
  age_mem : ∃ s ∈ sources, age s = age x
  age_max : ∀ s ∈ sources, age s ≤ age x
  ages : (kept.map age).Nodup

namespace Replaces

theorem ages_append (h : Replaces age holders sources kept x) :
    ((kept ++ [x]).map age).Nodup := by
  obtain ⟨s, hs, hage⟩ := h.age_mem
  grind [ages, apart]

/-- **Where it answers as they do, every answer stays.** -/
theorem newest_eq (h : Replaces age holders sources kept x)
    (hages : (holders.map age).Nodup) (hanswer : get x = newest_answer age get sources) :
    newest_answer age get (kept ++ [x]) = newest_answer age get holders := by
  match hbefore : newest_answer age get holders with
  | none =>
    have hnone := newest_eq_none.1 hbefore
    refine newest_eq_none.2 fun s hs => ?_
    rcases List.mem_append.1 hs with hkept | hlast
    · exact hnone s ((h.mem s).2 (Or.inr hkept))
    · rw [List.mem_singleton.1 hlast, hanswer]
      exact newest_eq_none.2 fun t ht => hnone t ((h.mem t).2 (Or.inl ht))
  | some v =>
    obtain ⟨s, hs, hget, hmax⟩ := of_newest_eq_some hbefore
    rcases (h.mem s).1 hs with hsource | hkept
    · -- the newest is a source: the new holder answers as it does
      have hx : get x = some v := by
        rw [hanswer]
        obtain ⟨w, hw⟩ := exists_newest hsource hget
        obtain ⟨t, ht, htget, htmax⟩ := of_newest_eq_some hw
        have hage : age s = age t := Nat.le_antisymm (htmax s hsource (by rw [hget]; rfl))
          (hmax t ((h.mem t).2 (Or.inl ht)) (by rw [htget]; rfl))
        have hsame : s = t := List.inj_on_of_nodup_map hages hs ((h.mem t).2 (Or.inl ht)) hage
        rw [hw, ← htget, ← hsame, hget]
      refine (newest_eq_some h.ages_append).2
        ⟨x, List.mem_append_right _ (List.mem_singleton_self x), hx, fun t ht hsome => ?_⟩
      rcases List.mem_append.1 ht with hkept | hlast
      · exact (hmax t ((h.mem t).2 (Or.inr hkept)) hsome).trans (h.age_max s hsource)
      · rw [List.mem_singleton.1 hlast]
    · refine (newest_eq_some h.ages_append).2
        ⟨s, List.mem_append_left _ hkept, hget, fun t ht hsome => ?_⟩
      rcases List.mem_append.1 ht with hother | hlast
      · exact hmax t ((h.mem t).2 (Or.inr hother)) hsome
      · -- a source that has the key is older than `s`, and so are all
        rw [List.mem_singleton.1 hlast] at hsome ⊢
        rw [hanswer] at hsome
        obtain ⟨w, hw⟩ := Option.isSome_iff_exists.1 hsome
        obtain ⟨a, ha, haget, _⟩ := of_newest_eq_some hw
        have hle : age a ≤ age s := hmax a ((h.mem a).2 (Or.inl ha)) (by rw [haget]; rfl)
        rcases h.apart s hkept with holder | hnewer
        · grind
        · obtain ⟨b, hb, hage⟩ := h.age_mem
          exact hage ▸ (hnewer b hb).le

end Replaces

end Laurus
