import Mathlib.Data.List.Perm.Subperm

/-!
# Patterns as rows of pieces

A piece of a pattern stands for some texts, which may depend on what is before and after.
A text fits a row of pieces when it is cut into one text for each. A piece is a letter or
anything else; two rows with different letters have different texts, where what is not
a letter cannot tell a letter from another (`Found.exists_not_fits`).
-/

namespace Laurus

variable {α : Type}

/-- What a piece may stand for: a text, between what is before it and after it. -/
abbrev Piece (α : Type) := List α → List α → List α → Prop

/-- A letter, or a piece of another kind. -/
inductive PatternItem (α : Type)
  | letter (a : α)
  | other (piece : Piece α)

namespace PatternItem

/-- What an item stands for. -/
def Stands : PatternItem α → Piece α
  | letter a => fun _ text _ => text = [a]
  | other piece => piece

/-- One letter of a kind. -/
def one_of (p : α → Prop) : Piece α := fun _ text _ => ∃ a, p a ∧ text = [a]

/-- Any number of letters of a kind. -/
def run_of (p : α → Prop) : Piece α := fun _ text _ => ∀ a ∈ text, p a

/-- Nothing, at the start. -/
def at_start : Piece α := fun before text _ => before = [] ∧ text = []

/-- Nothing, at the end. -/
def at_end : Piece α := fun _ text after => after = [] ∧ text = []

/-- The letters of a row. -/
def letters : List (PatternItem α) → List α
  | [] => []
  | letter a :: items => a :: letters items
  | other _ :: items => letters items

@[simp] theorem letters_letter (a : α) (items : List (PatternItem α)) :
    letters (letter a :: items) = a :: letters items := rfl
@[simp] theorem letters_other (piece : Piece α) (items : List (PatternItem α)) :
    letters (other piece :: items) = letters items := rfl

end PatternItem

/-- A text fits a row of items, between what is before it and after it. -/
inductive FitsPieces : List (PatternItem α) → List α → List α → List α → Prop
  | nil {before after : List α} : FitsPieces [] before [] after
  | cons {item : PatternItem α} {items : List (PatternItem α)} {before text rest after : List α} :
      item.Stands before text (rest ++ after) → FitsPieces items (before ++ text) rest after →
      FitsPieces (item :: items) before (text ++ rest) after

/-- A text somewhere in which a row of items fits. -/
def Found (items : List (PatternItem α)) (text : List α) : Prop :=
  ∃ before mid after, text = before ++ (mid ++ after) ∧ FitsPieces items before mid after

/-- A piece that cannot tell letters from others that are alike. -/
def Blind (alike : α → α → Prop) (piece : Piece α) : Prop :=
  ∀ ⦃before text after before' text' after'⦄, List.Forall₂ alike before before' →
    List.Forall₂ alike text text' → List.Forall₂ alike after after' →
    piece before text after → piece before' text' after'

/-- The pieces of a row that are not letters are blind. -/
def BlindRow (alike : α → α → Prop) (items : List (PatternItem α)) : Prop :=
  ∀ piece, PatternItem.other piece ∈ items → Blind alike piece

variable {items : List (PatternItem α)} {before text after : List α} {alike : α → α → Prop}

namespace FitsPieces

theorem nil_iff : FitsPieces [] before text after ↔ text = [] := by
  constructor
  · rintro ⟨⟩
    rfl
  · rintro rfl
    exact nil

theorem cons_iff {item : PatternItem α} : FitsPieces (item :: items) before text after ↔
    ∃ front rest, text = front ++ rest ∧ item.Stands before front (rest ++ after) ∧
      FitsPieces items (before ++ front) rest after := by
  constructor
  · rintro ⟨⟩
    grind
  · rintro ⟨front, rest, rfl, hstands, hfits⟩
    exact cons hstands hfits

theorem letter_iff {a : α} : FitsPieces (.letter a :: items) before text after ↔
    ∃ rest, text = a :: rest ∧ FitsPieces items (before ++ [a]) rest after := by
  rw [cons_iff]
  constructor
  · rintro ⟨front, rest, rfl, hfront, hfits⟩
    obtain rfl : front = [a] := hfront
    exact ⟨rest, rfl, hfits⟩
  · rintro ⟨rest, rfl, hfits⟩
    exact ⟨[a], rest, rfl, rfl, hfits⟩

/-- A row that ends with the end fits what the rest of it fits, up to the end. -/
theorem concat_at_end_iff : FitsPieces (items ++ [.other PatternItem.at_end]) before text after ↔
    after = [] ∧ FitsPieces items before text after := by
  induction items generalizing before text with
  | nil =>
      rw [List.nil_append, cons_iff, nil_iff]
      constructor
      · rintro ⟨front, rest, rfl, ⟨hafter, rfl⟩, hrest⟩
        grind [nil_iff]
      · rintro ⟨rfl, rfl⟩
        exact ⟨[], [], rfl, ⟨rfl, rfl⟩, nil⟩
  | cons item items ih =>
      grind [cons_iff]

theorem count_letters_le [DecidableEq α] (h : FitsPieces items before text after) (a : α) :
    (PatternItem.letters items).count a ≤ text.count a := by
  induction h with
  | nil => exact Nat.le_refl _
  | @cons item items before text rest after hstands _ ih =>
      rw [List.count_append]
      rcases item with b | piece
      · obtain rfl : text = [b] := hstands
        rw [PatternItem.letters_letter, List.count_cons, List.count_singleton]
        omega
      · rw [PatternItem.letters_other]
        omega

/-- **The letters that no letter of the row stands for can be exchanged.** -/
theorem exchange [DecidableEq α] (h : FitsPieces items before text after)
    (hblind : BlindRow alike items) {f : α → α} {a : α} (hf : ∀ b, alike b (f b))
    (hrefl : ∀ b, alike b b) (ha : ∀ b, f b ≠ a) {before' after' : List α}
    (hbefore : List.Forall₂ alike before before') (hafter : List.Forall₂ alike after after') :
    ∃ text', FitsPieces items before' text' after' ∧ List.Forall₂ alike text text' ∧
      text'.count a = (PatternItem.letters items).count a := by
  induction h generalizing before' with
  | nil => exact ⟨[], nil, .nil, rfl⟩
  | @cons item items before text rest after hstands _ ih =>
      have hblinds : BlindRow alike items := fun piece hpiece =>
        hblind piece (List.mem_cons_of_mem _ hpiece)
      rcases item with b | piece
      · obtain rfl : text = [b] := hstands
        obtain ⟨rest', hfits, halike, hcount⟩ := ih hblinds
          (List.rel_append hbefore (.cons (hrefl b) .nil)) hafter
        refine ⟨b :: rest', letter_iff.2 ⟨rest', rfl, hfits⟩, .cons (hrefl b) halike, ?_⟩
        rw [PatternItem.letters_letter, List.count_cons, List.count_cons, hcount]
      · have htext : List.Forall₂ alike text (text.map f) := by
          rw [List.forall₂_map_right_iff]
          exact List.forall₂_same.2 fun b _ => hf b
        obtain ⟨rest', hfits, halike, hcount⟩ := ih hblinds
          (List.rel_append hbefore htext) hafter
        refine ⟨text.map f ++ rest', cons ?_ hfits, List.rel_append htext halike, ?_⟩
        · exact hblind piece List.mem_cons_self hbefore htext
            (List.rel_append halike hafter) hstands
        · have hnone : (text.map f).count a = 0 := by
            refine List.count_eq_zero.2 fun hmem => ?_
            grind
          rw [List.count_append, hnone, hcount, PatternItem.letters_other, Nat.zero_add]

end FitsPieces

namespace Found

theorem between_ends_iff :
    Found (.other PatternItem.at_start :: (items ++ [.other PatternItem.at_end])) text ↔
      FitsPieces items [] text [] := by
  constructor
  · rintro ⟨before, mid, after, rfl, hfits⟩
    obtain ⟨front, rest, rfl, ⟨rfl, rfl⟩, hfits⟩ := FitsPieces.cons_iff.1 hfits
    obtain ⟨rfl, hfits⟩ := FitsPieces.concat_at_end_iff.1 hfits
    grind
  · intro hfits
    refine ⟨[], text, [], by rw [List.nil_append, List.append_nil], ?_⟩
    exact FitsPieces.cons_iff.2 ⟨[], text, rfl, ⟨rfl, rfl⟩, FitsPieces.concat_at_end_iff.2 ⟨rfl, hfits⟩⟩

/-- **Where a row has fewer of some letter than another, and is blind for it, it is found
in a text that the other does not fit.** -/
theorem exists_not_fits [DecidableEq α] (h : Found items text) (hblind : BlindRow alike items)
    {f : α → α} {a : α} (hf : ∀ b, alike b (f b)) (hrefl : ∀ b, alike b b) (ha : ∀ b, f b ≠ a)
    {others : List (PatternItem α)}
    (hless : (PatternItem.letters items).count a < (PatternItem.letters others).count a) :
    ∃ text', Found items text' ∧ ¬ FitsPieces others [] text' [] := by
  obtain ⟨before, mid, after, rfl, hfits⟩ := h
  have hmap : ∀ l : List α, List.Forall₂ alike l (l.map f) := fun l => by
    rw [List.forall₂_map_right_iff]
    exact List.forall₂_same.2 fun b _ => hf b
  have hnone : ∀ l : List α, (l.map f).count a = 0 := fun l => by
    refine List.count_eq_zero.2 fun hmem => ?_
    grind
  obtain ⟨mid', hfits', _, hcount⟩ :=
    hfits.exchange hblind hf hrefl ha (hmap before) (hmap after)
  refine ⟨before.map f ++ (mid' ++ after.map f), ⟨_, _, _, rfl, hfits'⟩, fun hother => ?_⟩
  have hle := hother.count_letters_le a
  grind

end Found

/-- Of two lists, where the first has fewer letters of a kind, it has fewer of one. -/
theorem exists_count_lt [DecidableEq α] {p : α → Bool} {l m : List α}
    (h : (l.filter p).length < (m.filter p).length) :
    ∃ a, p a = true ∧ l.count a < m.count a := by
  by_contra hall
  have hle : ∀ a ∈ m.filter p, (m.filter p).count a ≤ (l.filter p).count a := by
    grind [List.count_filter]
  exact absurd (List.subperm_ext_iff.2 hle).length_le (Nat.not_le.2 h)

end Laurus
