import Mathlib.Algebra.Order.Group.Multiset
import Mathlib.Algebra.Order.Sub.Basic
import Mathlib.Algebra.Order.Sub.Unbundled.Basic
import Mathlib.Data.List.Induction
import Mathlib.Data.List.Perm.Subperm
import Mathlib.Data.List.Sort
import Mathlib.Data.Multiset.OrderedMonoid
import Mathlib.Data.Multiset.Sort
import Mathlib.Order.Defs.LinearOrder

/-!
# The first members of a list under an order

`FirstK le k all first` says that `first` is the first `k` members of `all`
in the order `le`, which need only be one on the members (`OrderedOn`). There
is one such list, and a bounded list to which the members are offered one
after another is it. It may be found of a part of the members, as long as
each of the others comes after `k` of the part.
-/

namespace Laurus

section FirstK

variable {α : Type} {le : α → α → Prop} {k : ℕ} {all first part : List α} {a b : α}

/-- On the members of `all`, `le` is a linear order. -/
structure OrderedOn (le : α → α → Prop) (all : List α) : Prop where
  total : ∀ a ∈ all, ∀ b ∈ all, le a b ∨ le b a
  trans : ∀ a ∈ all, ∀ b ∈ all, ∀ c ∈ all, le a b → le b c → le a c
  antisymm : ∀ a ∈ all, ∀ b ∈ all, le a b → le b a → a = b

namespace OrderedOn

theorem mono (h : OrderedOn le all) (hsub : ∀ a ∈ part, a ∈ all) : OrderedOn le part where
  total a ha b hb := h.total a (hsub a ha) b (hsub b hb)
  trans a ha b hb c hc := h.trans a (hsub a ha) b (hsub b hb) c (hsub c hc)
  antisymm a ha b hb := h.antisymm a (hsub a ha) b (hsub b hb)

theorem of_not_le (h : OrderedOn le all) (ha : a ∈ all) (hb : b ∈ all) (hnot : ¬ le a b) :
    le b a := (h.total a ha b hb).resolve_left hnot

end OrderedOn

/-- The first `k` members of `all`, in order. -/
structure FirstK (le : α → α → Prop) (k : ℕ) (all first : List α) : Prop where
  sorted : first.Pairwise le
  nodup : first.Nodup
  sub : ∀ a ∈ first, a ∈ all
  room : first.length ≤ k
  rest : ∀ a ∈ all, a ∉ first → k ≤ first.length ∧ ∀ b ∈ first, le b a

theorem FirstK.self (hsorted : all.Pairwise le) (hnodup : all.Nodup) (hroom : all.length ≤ k) :
    FirstK le k all all where
  sorted := hsorted
  nodup := hnodup
  sub := fun _ h => h
  room := hroom
  rest := fun _ ha hnot => absurd ha hnot

theorem eq_of_pairwise_on {xs ys : List α} (h : OrderedOn le all) (hx : xs.Pairwise le)
    (hy : ys.Pairwise le) (hperm : xs.Perm ys) (hsub : ∀ a ∈ xs, a ∈ all) : xs = ys := by
  induction xs generalizing ys with
  | nil => exact (List.nil_perm.1 hperm).symm
  | cons x xs ih =>
      obtain ⟨hx1, hxs⟩ := List.pairwise_cons.1 hx
      rcases ys with _ | ⟨y, ys⟩
      · exact absurd hperm.length_eq (by simp)
      obtain ⟨hy1, hys⟩ := List.pairwise_cons.1 hy
      rw [List.forall_mem_cons] at hsub
      have heq : x = y := by
        by_contra hne
        have hxy := (List.mem_cons.1 (hperm.mem_iff.1 List.mem_cons_self)).resolve_left hne
        have hyx := (List.mem_cons.1 (hperm.mem_iff.2 List.mem_cons_self)).resolve_left
          (Ne.symm hne)
        grind [OrderedOn.antisymm]
      grind [List.perm_cons]

/-- **There is one list of the first members.** -/
theorem FirstK.unique {first' : List α} (hord : OrderedOn le all) (h : FirstK le k all first)
    (h' : FirstK le k all first') : first = first' := by
  have hinto : ∀ {l l' : List α}, FirstK le k all l → FirstK le k all l' →
      ∀ a ∈ l, a ∈ l' := by
    intro l l' hl hl' a ha
    by_contra hnot
    obtain ⟨hfull, hbefore⟩ := hl'.rest a (hl.sub a ha) hnot
    -- `l'` lies in `l`, and `a` is one more
    have hsub : l' ⊆ l := by
      intro b hb
      by_contra hbl
      have hab := (hl.rest b (hl'.sub b hb) hbl).2 a ha
      exact hnot (hord.antisymm a (hl.sub a ha) b (hl'.sub b hb) hab (hbefore b hb) ▸ hb)
    have hlen := ((List.nodup_cons.2 ⟨hnot, hl'.nodup⟩).subperm
      (List.cons_subset.2 ⟨ha, hsub⟩)).length_le
    have hroom := hl.room
    rw [List.length_cons] at hlen
    omega
  exact eq_of_pairwise_on hord h.sorted h'.sorted
    ((List.perm_ext_iff_of_nodup h.nodup h'.nodup).2 fun a => ⟨hinto h h' a, hinto h' h a⟩) h.sub

theorem FirstK.notMem_of_before {better : List α} (hord : OrderedOn le all)
    (h : FirstK le k all first) (ha : a ∈ all) (hnodup : better.Nodup) (hlen : k ≤ better.length)
    (hbefore : ∀ b ∈ better, b ∈ all ∧ le b a ∧ b ≠ a) : a ∉ first := by
  intro hmem
  have hin : ∀ b ∈ better, b ∈ first := by
    intro b hb
    obtain ⟨hball, hle, hne⟩ := hbefore b hb
    by_contra hnot
    exact hne (hord.antisymm b hball a ha hle ((h.rest b hball hnot).2 a hmem))
  have hanew : a ∉ better := fun hb => (hbefore a hb).2.2 rfl
  have hcount := ((List.nodup_cons.2 ⟨hanew, hnodup⟩).subperm
    (List.cons_subset.2 ⟨hmem, hin⟩)).length_le
  have hroom := h.room
  rw [List.length_cons] at hcount
  omega

theorem FirstK.take_of_sorted {sorted : List α} (hperm : sorted.Perm all)
    (hsorted : sorted.Pairwise le) (hnodup : all.Nodup) (k : ℕ) :
    FirstK le k all (sorted.take k) := by
  have htake := List.take_append_drop k sorted
  refine ⟨hsorted.sublist (List.take_sublist _ _),
    (hperm.nodup_iff.2 hnodup).sublist (List.take_sublist _ _),
    fun a ha => hperm.mem_iff.1 (List.mem_of_mem_take ha), by simp, fun a ha hnot => ?_⟩
  constructor
  · grind
  · grind

/-! ## The whole order -/

section Insert

variable [DecidableRel le]

theorem pairwise_orderedInsert_on (hord : OrderedOn le all) (hsorted : first.Pairwise le)
    (hsub : ∀ b ∈ first, b ∈ all) (ha : a ∈ all) : (first.orderedInsert le a).Pairwise le := by
  induction first with
  | nil => exact List.pairwise_singleton _ a
  | cons b first ih =>
      obtain ⟨hb, hrest⟩ := List.pairwise_cons.1 hsorted
      rw [List.forall_mem_cons] at hsub
      rw [List.orderedInsert]
      split
      · grind [List.pairwise_cons, OrderedOn.trans]
      grind [List.pairwise_cons, List.perm_orderedInsert, OrderedOn.of_not_le]

theorem pairwise_insertionSort_on (hord : OrderedOn le all) (hsub : ∀ b ∈ part, b ∈ all) :
    (part.insertionSort le).Pairwise le := by
  induction part with
  | nil => exact List.Pairwise.nil
  | cons b part ih =>
      rw [List.forall_mem_cons] at hsub
      grind [pairwise_orderedInsert_on, List.perm_insertionSort]

/-- **The first members are the start of the sorted list.** -/
theorem firstK_take_insertionSort (hord : OrderedOn le all) (hnodup : all.Nodup) (k : ℕ) :
    FirstK le k all ((all.insertionSort le).take k) :=
  FirstK.take_of_sorted (List.perm_insertionSort le all)
    (pairwise_insertionSort_on hord fun _ h => h) hnodup k

end Insert

/-! ## A bounded list -/

section Push

variable (le) [DecidableRel le]

/-- An offer to a list of at most `k`, which is in order: it goes in where
there is room, or in the place of the last when it comes before. -/
def offer (k : ℕ) (first : List α) (a : α) : List α :=
  if first.length < k then first.orderedInsert le a
  else
    match first.getLast? with
    | some worst => if le worst a then first else first.dropLast.orderedInsert le a
    | none => first

theorem offer_cases (k : ℕ) (first : List α) (a : α) :
    (first.length < k ∧ offer le k first a = first.orderedInsert le a) ∨
    (k ≤ first.length ∧ (∀ worst ∈ first.getLast?, le worst a) ∧ offer le k first a = first) ∨
    (k ≤ first.length ∧ ∃ init worst, first = init ++ [worst] ∧ ¬ le worst a ∧
      offer le k first a = init.orderedInsert le a) := by
  by_cases hroom : first.length < k
  · exact Or.inl ⟨hroom, by rw [offer, if_pos hroom]⟩
  · right
    rw [offer, if_neg hroom]
    rcases List.eq_nil_or_concat first with rfl | ⟨init, worst, rfl⟩
    · grind
    grind

variable {le}

/-- **An offer keeps the first members.** -/
theorem FirstK.offer (hord : OrderedOn le (all ++ [a])) (hnew : a ∉ all)
    (h : FirstK le k all first) : FirstK le k (all ++ [a]) (offer le k first a) := by
  have hin : ∀ b ∈ all, b ∈ all ++ [a] := fun b hb => List.mem_append_left _ hb
  have ha : a ∈ all ++ [a] := List.mem_append_right _ (List.mem_singleton_self a)
  have hfresh : a ∉ first := fun hmem => hnew (h.sub a hmem)
  rcases offer_cases le k first a with ⟨hroom, heq⟩ | ⟨hfull, hworst, heq⟩ |
    ⟨hfull, init, worst, rfl, hworst, heq⟩
  · have hperm := List.perm_orderedInsert le a first
    rw [heq]
    refine ⟨pairwise_orderedInsert_on hord h.sorted (fun b hb => hin b (h.sub b hb)) ha,
      hperm.nodup_iff.2 (List.nodup_cons.2 ⟨hfresh, h.nodup⟩), fun b hb => ?_, ?_,
      fun b hb hnot => ?_⟩
    · grind [sub]
    · rw [hperm.length_eq, List.length_cons]
      omega
    · -- with room left, nothing was left out
      rw [hperm.mem_iff, List.mem_cons, not_or] at hnot
      rcases List.mem_append.1 hb with hb | hb
      · have := (h.rest b hb hnot.2).1
        omega
      grind
  · rw [heq]
    refine ⟨h.sorted, h.nodup, fun b hb => hin b (h.sub b hb), h.room, fun b hb hnot => ?_⟩
    rcases List.mem_append.1 hb with hb | hb
    · exact h.rest b hb hnot
    · obtain rfl := List.mem_singleton.1 hb
      refine ⟨hfull, fun c hc => ?_⟩
      rcases List.eq_nil_or_concat first with rfl | ⟨init, worst, rfl⟩
      · cases hc
      · rw [List.concat_eq_append] at hc hworst
        have hw := hworst worst (by simp)
        have hsorted := h.sorted
        have hsub := h.sub
        rw [List.concat_eq_append] at hsorted hsub
        rcases List.mem_append.1 hc with hci | hcw
        · have hlast : worst ∈ init ++ [worst] := by simp
          grind [OrderedOn.trans]
        grind
  · have hperm := List.perm_orderedInsert le a init
    have hlast : worst ∈ init ++ [worst] := by simp
    have hwall := hin worst (h.sub worst hlast)
    have haw : le a worst := hord.of_not_le hwall ha hworst
    obtain ⟨hsorted, -, hbefore⟩ := List.pairwise_append.1 h.sorted
    have hnodup := h.nodup
    rw [List.nodup_append'] at hnodup
    have hroom := h.room
    rw [List.length_append, List.length_singleton] at hfull hroom
    have hinit : ∀ b ∈ init, b ∈ all := fun b hb => h.sub b (List.mem_append_left _ hb)
    rw [heq]
    refine ⟨pairwise_orderedInsert_on hord hsorted (fun b hb => hin b (hinit b hb)) ha,
      hperm.nodup_iff.2 (List.nodup_cons.2
        ⟨fun hmem => hfresh (List.mem_append_left _ hmem), hnodup.1⟩), fun b hb => ?_, ?_,
      fun b hb hnot => ?_⟩
    · grind
    · rw [hperm.length_eq, List.length_cons]
      omega
    · rw [hperm.mem_iff, List.mem_cons, not_or] at hnot
      refine ⟨by rw [hperm.length_eq, List.length_cons]; omega, fun c hc => ?_⟩
      -- what is left out comes after the worst there was
      have hwb : le worst b := by
        rcases List.mem_append.1 hb with hb | hb
        · by_cases hbw : b = worst
          · grind [OrderedOn.total]
          · refine (h.rest b hb fun hmem => ?_).2 worst hlast
            grind
        grind
      rcases List.mem_cons.1 (hperm.mem_iff.1 hc) with rfl | hc
      · exact hord.trans c ha worst hwall b hb haw hwb
      grind [OrderedOn.trans]

/-- **The members offered one after another leave the first ones.** -/
theorem firstK_foldl_offer (hord : OrderedOn le all) (hnodup : all.Nodup) (k : ℕ) :
    FirstK le k all (all.foldl (Laurus.offer le k) []) := by
  induction all using List.reverseRecOn with
  | nil => exact .self List.Pairwise.nil List.nodup_nil (Nat.zero_le k)
  | append_singleton all a ih =>
      rw [List.nodup_append'] at hnodup
      obtain ⟨hall, -, hdisjoint⟩ := hnodup
      rw [List.foldl_append]
      exact (ih (hord.mono fun b hb => List.mem_append_left _ hb) hall).offer hord
        fun ha => hdisjoint ha (List.mem_singleton_self a)

end Push

/-! ## The first members of a part -/

/-- **A part has the first members of all**, when each of the others comes
after `k` members of the part. -/
theorem FirstK.of_part
    (htrans : ∀ a ∈ all, ∀ b ∈ all, ∀ c ∈ all, le a b → le b c → le a c)
    (h : FirstK le k part first) (hsub : ∀ a ∈ part, a ∈ all)
    (hcovered : ∀ a ∈ all, a ∉ part → ∃ better : List α, better.Nodup ∧ k ≤ better.length ∧
      ∀ b ∈ better, b ∈ part ∧ le b a) : FirstK le k all first := by
  refine ⟨h.sorted, h.nodup, fun a ha => hsub a (h.sub a ha), h.room, fun a ha hnot => ?_⟩
  by_cases hpart : a ∈ part
  · exact h.rest a hpart hnot
  obtain ⟨better, hbnodup, hlen, hbetter⟩ := hcovered a ha hpart
  -- a member of `first` after `a` would be one more than `better`
  have hle : ∀ c ∈ first, le c a := by
    intro c hc
    by_contra hca
    have hcall := hsub c (h.sub c hc)
    have hall : ∀ b ∈ better, b ∈ first := by
      intro b hb
      by_contra hbf
      have hcb := (h.rest b (hbetter b hb).1 hbf).2 c hc
      grind
    have hcnew : c ∉ better := fun hcb => hca (hbetter c hcb).2
    have := ((List.nodup_cons.2 ⟨hcnew, hbnodup⟩).subperm
      (List.cons_subset.2 ⟨hc, hall⟩)).length_le
    have hroom := h.room
    rw [List.length_cons] at this
    omega
  refine ⟨?_, hle⟩
  by_contra hshort
  have hall : better ⊆ first := by
    intro b hb
    by_contra hbf
    exact hshort (h.rest b (hbetter b hb).1 hbf).1
  have := (hbnodup.subperm hall).length_le
  omega

end FirstK

section TopK

/-!
## The greatest of a multiset

`IsTop k S T` says that `T` is made of `k` members of `S`, or of all where
there are fewer, and that what is left is not above any of them. It fixes `T`
(`IsTop.eq_take`), and it is kept by the three things that a bounded heap does
with a new value.
-/

variable {α : Type*} [LinearOrder α]

/-- `T` is the `k` greatest of `S`. -/
structure IsTop (k : ℕ) (S T : Multiset α) : Prop where
  le : T ≤ S
  card : T.card = min k S.card
  above : ∀ t ∈ T, ∀ s ∈ S - T, s ≤ t

namespace IsTop

variable {k : ℕ} {S T : Multiset α} {a m : α}

theorem zero (k : ℕ) : IsTop k (0 : Multiset α) 0 where
  le := le_refl 0
  card := by simp
  above := fun t ht => absurd ht (Multiset.notMem_zero t)

theorem eq_of_room (h : IsTop k S T) (hroom : T.card < k) : T = S := by
  refine Multiset.eq_of_le_of_card_le h.le ?_
  have hcard := h.card
  omega

theorem insert_room (h : IsTop k S T) (hroom : T.card < k) : IsTop k (a ::ₘ S) (a ::ₘ T) where
  le := Multiset.cons_le_cons a h.le
  card := by
    have hcard := h.card
    rw [Multiset.card_cons, Multiset.card_cons]
    omega
  above := fun t _ s hs => by
    rw [h.eq_of_room hroom, tsub_self (a ::ₘ S)] at hs
    exact absurd hs (Multiset.notMem_zero s)

theorem insert_low (h : IsTop k S T) (hfull : T.card = k) (ha : ∀ t ∈ T, a ≤ t) :
    IsTop k (a ::ₘ S) T where
  le := h.le.trans (Multiset.le_cons_self S a)
  card := by
    have hcard := Multiset.card_le_card h.le
    rw [Multiset.card_cons]
    omega
  above := fun t ht s hs => by
    rw [Multiset.cons_sub_of_le a h.le] at hs
    grind [above]

theorem add_low (h : IsTop k S T) (hfull : T.card = k) {L : Multiset α}
    (hL : ∀ a ∈ L, ∀ t ∈ T, a ≤ t) : IsTop k (L + S) T := by
  induction L using Multiset.induction with
  | empty => rwa [Multiset.zero_add]
  | cons a L ih =>
      rw [Multiset.cons_add]
      grind [insert_low]

theorem insert_replace (h : IsTop k S T) (hfull : T.card = k) (hm : m ∈ T)
    (hleast : ∀ t ∈ T, m ≤ t) (hlt : m < a) : IsTop k (a ::ₘ S) (a ::ₘ T.erase m) where
  le := Multiset.cons_le_cons a ((Multiset.erase_le m T).trans h.le)
  card := by
    have hcard := Multiset.card_le_card h.le
    grind [Multiset.card_pos_iff_exists_mem, Multiset.card_cons, Multiset.card_erase_of_mem,
      Nat.pred_eq_sub_one]
  above := fun t ht s hs => by
    -- what is left is what was left before, and the least
    have hrest : a ::ₘ S - a ::ₘ T.erase m = m ::ₘ (S - T) := by
      have hsplit : S = T.erase m + (m ::ₘ (S - T)) := by
        rw [Multiset.add_cons, ← Multiset.cons_add, Multiset.cons_erase hm,
          add_tsub_cancel_of_le h.le]
      conv_lhs => rw [hsplit]
      rw [← Multiset.cons_add, add_tsub_cancel_left]
    rw [hrest] at hs
    have hbelow : ∀ u ∈ T, s ≤ u := by
      grind [above]
    grind [Multiset.mem_of_mem_erase]

/-- **The `k` greatest are the first `k` in descending order.** -/
theorem eq_take (h : IsTop k S T) : T = ((S.sort (· ≥ ·)).take k : List α) := by
  have hsorted : (T.sort (· ≥ ·) ++ (S - T).sort (· ≥ ·)).Pairwise (· ≥ ·) := by
    grind [Multiset.pairwise_sort, above, Multiset.mem_sort]
  have hperm : (T.sort (· ≥ ·) ++ (S - T).sort (· ≥ ·)).Perm (S.sort (· ≥ ·)) := by
    rw [← Multiset.coe_eq_coe, ← Multiset.coe_add, Multiset.sort_eq, Multiset.sort_eq,
      Multiset.sort_eq, add_tsub_cancel_of_le h.le]
  have heq : T.sort (· ≥ ·) ++ (S - T).sort (· ≥ ·) = S.sort (· ≥ ·) :=
    hperm.eq_of_pairwise' hsorted (Multiset.pairwise_sort _ _)
  rw [← heq]
  rcases Nat.lt_or_ge T.card k with hroom | hfull
  · grind [eq_of_room, List.take_of_length_le, Multiset.sort_eq, Multiset.length_sort]
  · have hlen : (T.sort (· ≥ ·)).length = k := by
      rw [Multiset.length_sort]
      have hcard := h.card
      omega
    rw [List.take_left' hlen, Multiset.sort_eq]

end IsTop

end TopK

end Laurus
