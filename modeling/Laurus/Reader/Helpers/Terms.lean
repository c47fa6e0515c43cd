import Laurus.Reader.Model.Segment
import Mathlib.Algebra.Order.BigOperators.Group.List
import Mathlib.Data.List.Basic

/-!
# The terms of a field, in order and each once

The keys that start with a prefix stand together in a sorted dictionary
(`isPrefix_of_between`), so a cursor that starts at the prefix and stops at
the first other key goes through all of them (`mem_left_new`). The merge
takes the least of the heads off every cursor that has it
(`advance_heads_spec`), so it lists the terms of all (`drain_spec`).
-/

namespace Laurus

/-! ## Keys of a prefix -/

/-- **What stands between a prefix and what continues it continues it.** -/
theorem isPrefix_of_between {start : List Char} :
    ∀ {key more : List Char}, ¬ key < start → key < start ++ more → start <+: key := by
  induction start with
  | nil => exact fun _ _ => List.nil_prefix
  | cons c start ih =>
      intro key more hge hlt
      match key with
      | [] => exact absurd (List.nil_lt_cons c start) hge
      | c' :: key =>
          rw [List.cons_append, List.cons_lt_cons_iff] at hlt
          rw [List.cons_lt_cons_iff, not_or, not_and] at hge
          grind

namespace InvertedIndexTermsEnum

variable {e : InvertedIndexTermsEnum} {field_key key term : String} {t : TermStats}

theorem strip_field_key_append : strip_field_key field_key (field_key ++ term) = some term := by
  unfold strip_field_key
  simp

theorem strip_field_key_eq_some (h : strip_field_key field_key key = some term) :
    key = field_key ++ term := by
  unfold strip_field_key at h
  split at h
  · rename_i hstart
    obtain ⟨rest, hrest⟩ := List.isPrefixOf_iff_prefix.1 hstart
    obtain rfl := Option.some.inj h
    rw [← String.toList_inj, String.toList_append, String.toList_ofList, ← hrest, List.drop_left]
  · cases h

/-! ## One cursor -/

/-- What some keys give, up to the first without the field's key. -/
def stats_of (field_key : String) (counts : String → ℕ × ℕ) : List String → List TermStats
  | [] => []
  | key :: keys =>
    match strip_field_key field_key key with
    | none => []
    | some term => ⟨term, (counts key).1, (counts key).2⟩ :: stats_of field_key counts keys

variable {counts : String → ℕ × ℕ} {keys : List String}

theorem mem_stats_of (h : t ∈ stats_of field_key counts keys) : field_key ++ t.term ∈ keys := by
  induction keys with
  | nil => cases h
  | cons key keys ih =>
      grind [stats_of, strip_field_key_eq_some]

theorem append_lt_append_iff {a b : String} : field_key ++ a < field_key ++ b ↔ a < b := by
  rw [String.lt_iff, String.lt_iff, String.toList_append, String.toList_append]
  generalize field_key.toList = start
  induction start with
  | nil => exact Iff.rfl
  | cons c start ih => rwa [List.cons_append, List.cons_append, List.cons_lt_cons_self]

theorem append_not_lt : ¬ field_key ++ term < field_key := by
  rw [String.lt_iff, String.toList_append]
  generalize field_key.toList = start
  induction start with
  | nil => exact List.not_lt_nil _
  | cons c start ih => rwa [List.cons_append, List.cons_lt_cons_self]

theorem stats_of_ascending (h : keys.Pairwise (· < ·)) :
    (stats_of field_key counts keys).Pairwise fun a b => a.term < b.term := by
  induction keys with
  | nil => exact List.Pairwise.nil
  | cons key keys ih =>
      obtain ⟨hfirst, hrest⟩ := List.pairwise_cons.1 h
      unfold stats_of
      split
      · exact List.Pairwise.nil
      · rename_i term hterm
        refine List.pairwise_cons.2 ⟨fun t ht => ?_, ih hrest⟩
        have := hfirst _ (mem_stats_of ht)
        rwa [strip_field_key_eq_some hterm, append_lt_append_iff] at this

/-- **From the first key that is not below it on, all keys with the prefix
are given**: there is none behind the first without. -/
theorem stats_of_complete (h : keys.Pairwise (· < ·)) (hge : ∀ key ∈ keys, ¬ key < field_key)
    (hmem : field_key ++ term ∈ keys) :
    ∃ t ∈ stats_of field_key counts keys, t.term = term := by
  induction keys with
  | nil => cases hmem
  | cons key keys ih =>
      obtain ⟨hfirst, hrest⟩ := List.pairwise_cons.1 h
      unfold stats_of
      rcases List.mem_cons.1 hmem with rfl | hmem
      · rw [strip_field_key_append]
        exact ⟨_, List.mem_cons_self, rfl⟩
      grind [List.mem_cons_self, String.lt_iff, String.toList_append, isPrefix_of_between,
        strip_field_key]

/-- What a cursor has left. -/
def left (e : InvertedIndexTermsEnum) : List TermStats :=
  stats_of e.field_key e.counts (e.dict.sorted_terms.drop e.position)

/-- The cursor one key on. -/
def moved (e : InvertedIndexTermsEnum) : InvertedIndexTermsEnum :=
  { e with position := e.position + 1 }

/-- **A step gives the first that is left.** -/
theorem next_eq (e : InvertedIndexTermsEnum) :
    e.left = [] ∧ e.next = (none, e) ∨
      ∃ t, e.next = (some t, e.moved) ∧ e.left = t :: e.moved.left := by
  unfold next stats_at left BlockTermDictionary.entry_at
  rcases Nat.lt_or_ge e.position e.dict.sorted_terms.length with hlt | hge
  · rw [List.drop_eq_getElem_cons hlt, List.getElem?_eq_getElem hlt, Option.bind_eq_bind,
      Option.bind_some, stats_of]
    match strip_field_key e.field_key e.dict.sorted_terms[e.position] with
    | none => exact Or.inl ⟨rfl, rfl⟩
    | some term => exact Or.inr ⟨_, rfl, rfl⟩
  · rw [List.drop_eq_nil_of_le hge, List.getElem?_eq_none hge]
    exact Or.inl ⟨rfl, rfl⟩

theorem left_ascending (e : InvertedIndexTermsEnum) :
    e.left.Pairwise fun a b => a.term < b.term :=
  stats_of_ascending (e.dict.ascending.sublist (List.drop_sublist _ _))

theorem left_length_le (e : InvertedIndexTermsEnum) :
    e.left.length ≤ e.dict.sorted_terms.length := by
  have hlen : ∀ keys, (stats_of e.field_key e.counts keys).length ≤ keys.length := by
    intro keys
    induction keys with
    | nil => exact Nat.le_refl 0
    | cons key keys ih =>
        unfold stats_of
        grind
  refine (hlen _).trans ?_
  rw [List.length_drop]
  omega

theorem drain_eq (turns : ℕ) : ∀ {e : InvertedIndexTermsEnum}, e.left.length ≤ turns →
    drain turns e = e.left := by
  induction turns with
  | zero =>
      intro e hlen
      exact (List.eq_nil_of_length_eq_zero (by omega)).symm
  | succ turns ih =>
      grind [drain, next_eq]

theorem mem_drop_seek_index {dict : BlockTermDictionary} {target : String} :
    key ∈ dict.sorted_terms.drop (dict.seek_index target) ↔
      key ∈ dict.sorted_terms ∧ ¬ key < target := by
  unfold BlockTermDictionary.seek_index
  have hsorted := dict.ascending
  generalize dict.sorted_terms = keys at hsorted
  induction keys with
  | nil => simp
  | cons first keys ih =>
      obtain ⟨hfirst, hrest⟩ := List.pairwise_cons.1 hsorted
      grind

/-- **A new cursor has the keys of the field.** -/
theorem mem_left_new {dict : BlockTermDictionary} {field : String} :
    (∃ t ∈ (new field dict counts).left, t.term = term) ↔
      field ++ ":" ++ term ∈ dict.sorted_terms := by
  constructor
  · rintro ⟨t, ht, rfl⟩
    exact List.mem_of_mem_drop (mem_stats_of ht)
  · intro hmem
    exact stats_of_complete (dict.ascending.sublist (List.drop_sublist _ _))
      (fun key hkey => (mem_drop_seek_index.1 hkey).2)
      (mem_drop_seek_index.2 ⟨hmem, append_not_lt⟩)

end InvertedIndexTermsEnum

/-! ## The merge -/

namespace MergedTermsEnum

open InvertedIndexTermsEnum (left)

variable {e : MergedTermsEnum} {t : TermStats} {term : String}

/-- What a child has: the entry pulled from it and what its cursor has left. -/
def child_left (child : Option TermStats × InvertedIndexTermsEnum) : List TermStats :=
  child.1.toList ++ left child.2

/-- The child is in order: an entry is pulled if there is one, and the terms
are ascending. -/
structure ChildInOrder (child : Option TermStats × InvertedIndexTermsEnum) : Prop where
  pulled : child.1 = none → left child.2 = []
  ascending : (child_left child).Pairwise fun a b => a.term < b.term

/-- Some child has the term. -/
def Has (e : MergedTermsEnum) (term : String) : Prop :=
  ∃ child ∈ e.children, ∃ t ∈ child_left child, t.term = term

/-- How many entries the children have. -/
def size (e : MergedTermsEnum) : ℕ := (e.children.map fun child => (child_left child).length).sum

theorem child_of_next (c : InvertedIndexTermsEnum) :
    ChildInOrder c.next ∧ child_left c.next = left c := by
  have hascending := c.left_ascending
  rcases c.next_eq with ⟨hnil, hnext⟩ | ⟨t, hnext, hleft⟩
  · rw [hnext]
    refine ⟨⟨fun _ => hnil, ?_⟩, rfl⟩
    exact hascending
  · rw [hnext]
    refine ⟨⟨fun hnone => (nomatch hnone), ?_⟩, hleft.symm⟩
    rw [hleft] at hascending
    exact hascending

theorem add_counts_term (heads : List TermStats) (merged : TermStats) :
    (heads.foldl add_counts merged).term = merged.term := by
  induction heads generalizing merged with
  | nil => rfl
  | cons t heads ih =>
      grind [add_counts]

/-- **The merged entry is of the least term of the heads.** -/
theorem peek_merged_spec (e : MergedTermsEnum) :
    e.peek_merged = none ∧ e.heads = [] ∨
      ∃ stats, e.peek_merged = some stats ∧ (∃ t ∈ e.heads, t.term = stats.term) ∧
        ∀ t ∈ e.heads, stats.term ≤ t.term := by
  unfold peek_merged
  match hmin : (e.heads.map TermStats.term).min? with
  | none =>
      grind [List.map_eq_nil_iff]
  | some term =>
      grind [List.min?_eq_some_iff, add_counts_term]

theorem ChildInOrder.le_of_mem {child : Option TermStats × InvertedIndexTermsEnum}
    (h : ChildInOrder child) (ht : t ∈ child_left child) :
    ∃ first, child.1 = some first ∧ (t = first ∨ first.term < t.term) := by
  obtain ⟨first, c⟩ := child
  match first with
  | none =>
      have hnil : child_left (none, c) = [] := h.pulled rfl
      rw [hnil] at ht
      cases ht
  | some first =>
      refine ⟨first, rfl, ?_⟩
      rcases List.mem_cons.1 ht with rfl | ht
      · exact Or.inl rfl
      · exact Or.inr ((List.pairwise_cons.1 h.ascending).1 t ht)

theorem moved_child {child : Option TermStats × InvertedIndexTermsEnum} (h : ChildInOrder child)
    (hle : ∀ first, child.1 = some first → term ≤ first.term) :
    let moved := if child.1.map TermStats.term = some term then child.2.next else child
    ChildInOrder moved ∧ (child_left moved).length ≤ (child_left child).length ∧
      (child.1.map TermStats.term = some term →
        (child_left moved).length < (child_left child).length) ∧
      (∀ t ∈ child_left moved, term < t.term) ∧
      ∀ t, t ∈ child_left child ∧ t.term ≠ term ↔ t ∈ child_left moved := by
  intro moved
  obtain ⟨first, c⟩ := child
  by_cases hat : first.map TermStats.term = some term
  · obtain ⟨first, rfl, rfl⟩ := Option.map_eq_some_iff.1 hat
    have hmoved : moved = c.next := if_pos rfl
    obtain ⟨hin, hleft⟩ := child_of_next c
    have habove := (List.pairwise_cons.1 h.ascending).1
    rw [hmoved, hleft]
    have hlen : (child_left (some first, c)).length = (left c).length + 1 := List.length_cons
    refine ⟨hin, by omega, fun _ => by omega, habove, fun t => ⟨?_, fun ht => ?_⟩⟩
    · rintro ⟨ht, hne⟩
      rcases List.mem_cons.1 ht with rfl | ht
      · exact absurd rfl hne
      · exact ht
    · exact ⟨List.mem_cons_of_mem _ ht, (habove t ht).ne'⟩
  · have hmoved : moved = (first, c) := if_neg hat
    grind [ChildInOrder.le_of_mem]

/-- **Moving the heads of the least term on** leaves the other terms. -/
theorem advance_heads_spec (h : ∀ child ∈ e.children, ChildInOrder child)
    (hat : ∃ t ∈ e.heads, t.term = term) (hle : ∀ t ∈ e.heads, term ≤ t.term) :
    let e' := e.advance_heads_matching term
    (∀ child ∈ e'.children, ChildInOrder child) ∧ e'.size < e.size ∧
      ∀ x, e'.Has x ↔ e.Has x ∧ term < x := by
  intro e'
  have hheads : ∀ child ∈ e.children, ∀ first, child.1 = some first → term ≤ first.term :=
    fun child hchild first hfirst => hle first (List.mem_filterMap.2 ⟨child, hchild, hfirst⟩)
  have hchildren : ∀ moved ∈ e'.children, ∃ child ∈ e.children,
      (if child.1.map TermStats.term = some term then child.2.next else child) = moved :=
    fun moved hmoved => List.mem_map.1 hmoved
  refine ⟨fun moved hmoved => ?_, ?_, fun x => ⟨?_, ?_⟩⟩
  · obtain ⟨child, hchild, rfl⟩ := hchildren moved hmoved
    grind [moved_child]
  · -- no child has more, and the one with the least term has less
    obtain ⟨t, ht, rfl⟩ := hat
    obtain ⟨child, hchild, hfirst⟩ := List.mem_filterMap.1 ht
    unfold size
    show ((e.children.map _).map _).sum < _
    rw [List.map_map]
    refine List.sum_lt_sum _ _ (fun child hchild => ?_) ⟨child, hchild, ?_⟩
    · grind [moved_child]
    grind [moved_child]
  · rintro ⟨moved, hmoved, t, ht, rfl⟩
    obtain ⟨child, hchild, rfl⟩ := hchildren moved hmoved
    obtain ⟨-, -, -, habove, hsame⟩ := moved_child (h child hchild) (hheads child hchild)
    exact ⟨⟨child, hchild, t, ((hsame t).2 ht).1, rfl⟩, habove t ht⟩
  · rintro ⟨⟨child, hchild, t, ht, rfl⟩, hlt⟩
    obtain ⟨-, -, -, -, hsame⟩ := moved_child (h child hchild) (hheads child hchild)
    exact ⟨_, List.mem_map_of_mem hchild, t, (hsame t).1 ⟨ht, hlt.ne'⟩, rfl⟩

/-- **A loop over the merge sees the terms of all children**, in order and
each once. -/
theorem drain_children (turns : ℕ) : ∀ {e : MergedTermsEnum},
    (∀ child ∈ e.children, ChildInOrder child) → e.size ≤ turns →
      ((drain turns e).Pairwise fun a b => a.term < b.term) ∧
        ∀ x, (∃ t ∈ drain turns e, t.term = x) ↔ e.Has x := by
  induction turns with
  | zero =>
      intro e h hsize
      refine ⟨List.Pairwise.nil, fun x => ⟨fun ⟨t, ht, _⟩ => (nomatch ht), ?_⟩⟩
      rintro ⟨child, hchild, t, ht, -⟩
      have hpos := List.length_pos_of_mem ht
      have hle : (child_left child).length ≤ e.size :=
        List.single_le_sum (fun _ _ => Nat.zero_le _) _
          (List.mem_map_of_mem (f := fun child => (child_left child).length) hchild)
      omega
  | succ turns ih =>
      intro e h hsize
      unfold drain next
      rcases e.peek_merged_spec with ⟨hnone, hheads⟩ | ⟨stats, hpeek, hat, hle⟩
      · rw [hnone]
        refine ⟨List.Pairwise.nil, fun x => ⟨fun ⟨t, ht, _⟩ => (nomatch ht), ?_⟩⟩
        rintro ⟨child, hchild, t, ht, -⟩
        obtain ⟨first, hfirst, -⟩ := (h child hchild).le_of_mem ht
        grind [heads]
      · rw [hpeek]
        obtain ⟨hin, hless, hhas⟩ := advance_heads_spec h hat hle
        obtain ⟨hsorted, hmem⟩ := ih hin (by omega)
        refine ⟨List.pairwise_cons.2 ⟨fun t ht => ?_, hsorted⟩, fun x => ?_⟩
        · grind
        · have hle' : e.Has x → stats.term ≤ x := by
            rintro ⟨child, hchild, t, ht, rfl⟩
            obtain ⟨first, hfirst, hor⟩ := (h child hchild).le_of_mem ht
            have hfirst := hle first (List.mem_filterMap.2 ⟨child, hchild, hfirst⟩)
            grind
          have hstats : e.Has stats.term := by
            obtain ⟨t, ht, hterm⟩ := hat
            obtain ⟨child, hchild, hfirst⟩ := List.mem_filterMap.1 ht
            refine ⟨child, hchild, t, ?_, hterm⟩
            rw [child_left, hfirst]
            exact List.mem_cons_self
          grind

/-- **The merge of cursors lists the terms of all of them.** -/
theorem drain_new {cursors : List InvertedIndexTermsEnum} {turns : ℕ}
    (hturns : (cursors.map fun c => (left c).length).sum ≤ turns) :
    ((drain turns (new cursors)).Pairwise fun a b => a.term < b.term) ∧
      ∀ x, (∃ t ∈ drain turns (new cursors), t.term = x) ↔
        ∃ c ∈ cursors, ∃ t ∈ left c, t.term = x := by
  have hsize : (new cursors).size = (cursors.map fun c => (left c).length).sum := by
    unfold size new
    simp [List.map_congr_left, child_of_next]
  have hin : ∀ child ∈ (new cursors).children, ChildInOrder child := by
    intro child hchild
    obtain ⟨c, -, rfl⟩ := List.mem_map.1 hchild
    exact (child_of_next c).1
  obtain ⟨hsorted, hmem⟩ := drain_children turns hin (hsize ▸ hturns)
  refine ⟨hsorted, fun x => (hmem x).trans ⟨?_, ?_⟩⟩
  · rintro ⟨child, hchild, t, ht, hx⟩
    obtain ⟨c, hc, rfl⟩ := List.mem_map.1 hchild
    exact ⟨c, hc, t, (child_of_next c).2 ▸ ht, hx⟩
  · rintro ⟨c, hc, t, ht, hx⟩
    exact ⟨c.next, List.mem_map_of_mem hc, t, (child_of_next c).2.symm ▸ ht, hx⟩

end MergedTermsEnum

end Laurus
