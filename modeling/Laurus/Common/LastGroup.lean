import Mathlib.Data.List.Induction

/-!
# The last group that has a member

Groups may share members, and a member's group is the last one that has it.
Where that is one group for all its members (`Closed`), who is another's other
is so in turn (`closed_iff_mutual`). It stays so from group to group of a list
iff each one has, of every earlier group that no group between touches, all
members or none (`whole_iff_closed`).
-/

namespace Laurus

namespace LastGroup

variable {α : Type} [DecidableEq α] {groups : List (List α)} {a b : α} {g h : List α}

/-- The last group that has a member. -/
def last_group (groups : List (List α)) (a : α) : Option (List α) :=
  groups.reverse.find? fun g => a ∈ g

theorem last_group_concat (groups : List (List α)) (g : List α) (a : α) :
    last_group (groups ++ [g]) a = if a ∈ g then some g else last_group groups a := by
  grind [last_group]

theorem mem_of_last_group (ha : last_group groups a = some g) : a ∈ g := by
  simpa using List.find?_some ha

theorem last_group_eq_none : last_group groups a = none ↔ ∀ g ∈ groups, a ∉ g := by
  simp [last_group]

theorem last_group_eq_some : last_group groups a = some g ↔
    a ∈ g ∧ ∃ before after, groups = before ++ g :: after ∧ ∀ x ∈ after, a ∉ x := by
  constructor
  · intro ha
    induction groups using List.reverseRecOn with
    | nil => cases ha
    | append_singleton groups h ih =>
        rw [last_group_concat] at ha
        by_cases hmem : a ∈ h
        · rw [if_pos hmem] at ha
          obtain rfl := Option.some.inj ha
          grind
        grind
  · rintro ⟨hmem, before, after, rfl, hafter⟩
    induction after using List.reverseRecOn with
    | nil => rw [last_group_concat, if_pos hmem]
    | append_singleton after h ih =>
        have hsplit : before ++ g :: (after ++ [h]) = (before ++ g :: after) ++ [h] := by simp
        rw [hsplit, last_group_concat, if_neg (hafter h (by simp))]
        grind

theorem last_group_unique (ha : last_group groups a = some g) (hb : last_group groups b = some h)
    (hbg : b ∈ g) (hah : a ∈ h) : g = h := by
  induction groups using List.reverseRecOn with
  | nil => cases ha
  | append_singleton groups x ih =>
      grind [last_group_concat]

/-! ## Others -/

/-- The others of a member: who else is in its last group. -/
def Other (groups : List (List α)) (a b : α) : Prop :=
  ∃ g, last_group groups a = some g ∧ b ∈ g.erase a

/-- A last group is the last of all its members. -/
def Closed (groups : List (List α)) : Prop :=
  ∀ a g, last_group groups a = some g → ∀ b ∈ g, last_group groups b = some g

/-- **Groups are closed iff to be another's other is mutual.** -/
theorem closed_iff_mutual : Closed groups ↔ ∀ a b, Other groups a b → Other groups b a := by
  constructor
  · rintro hclosed a b ⟨g, ha, hb⟩
    by_cases hab : b = a
    · rw [hab] at hb ⊢
      exact ⟨g, ha, hb⟩
    · exact ⟨g, hclosed a g ha b (List.mem_of_mem_erase hb),
        (List.mem_erase_of_ne (Ne.symm hab)).2 (mem_of_last_group ha)⟩
  · intro hmutual a g ha b hb
    by_cases hab : b = a
    · rw [hab]
      exact ha
    · obtain ⟨h, hlast, hah⟩ := hmutual a b ⟨g, ha, (List.mem_erase_of_ne hab).2 hb⟩
      rw [hlast, last_group_unique ha hlast hb (List.mem_of_mem_erase hah)]

/-! ## From group to group -/

/-- Each group has, of every earlier group that none between touches, all members
or none. -/
def Whole (groups : List (List α)) : Prop :=
  ∀ before g between h after, groups = before ++ g :: (between ++ h :: after) →
    (∀ x ∈ between, ∀ a ∈ g, a ∉ x) → (∀ a ∈ g, a ∈ h) ∨ ∀ a ∈ g, a ∉ h

omit [DecidableEq α] in
theorem Whole.stage {stage : List (List α)} (hwhole : Whole groups) (hstage : stage <+: groups) :
    Whole stage := by
  obtain ⟨rest, rfl⟩ := hstage
  rintro before g between h after rfl hbetween
  exact hwhole before g between h (after ++ rest) (by simp) hbetween

theorem Closed.concat (hclosed : Closed groups) (hwhole : Whole (groups ++ [h])) :
    Closed (groups ++ [h]) := by
  intro a g ha b hb
  rw [last_group_concat] at ha ⊢
  by_cases hah : a ∈ h
  · grind
  · rw [if_neg hah] at ha
    obtain ⟨hag, before, between, rfl, hbetween⟩ := last_group_eq_some.1 ha
    -- No group between has a member of `g`: it would be that member's last.
    have hbetween : ∀ x ∈ between, ∀ c ∈ g, c ∉ x := by
      intro x hx c hc hcx
      have hlast := hclosed a g ha c hc
      obtain ⟨y, hy, hcy⟩ : ∃ y ∈ between, last_group (before ++ g :: between) c = some y := by
        obtain ⟨y, hy⟩ : ∃ y, last_group between c = some y := by
          rcases hnone : last_group between c with _ | y
          · exact absurd hcx (last_group_eq_none.1 hnone x hx)
          · exact ⟨y, rfl⟩
        grind [last_group_eq_some]
      grind
    rcases hwhole before g between h [] (by simp) hbetween with hall | hnone
    · exact absurd (hall a hag) hah
    · rw [if_neg (hnone b hb)]
      exact hclosed a g ha b hb

/-- **Groups stay closed from one to the next iff each is whole.** -/
theorem whole_iff_closed : Whole groups ↔ ∀ stage, stage <+: groups → Closed stage := by
  constructor
  · intro hwhole stage
    induction stage using List.reverseRecOn with
    | nil => exact fun _ a g ha => by cases ha
    | append_singleton stage h ih =>
        intro hstage
        exact (ih ((List.prefix_append stage [h]).trans hstage)).concat (hwhole.stage hstage)
  · rintro hclosed before g between h after rfl hbetween
    by_contra hsome
    push Not at hsome
    obtain ⟨⟨a, ha, hah⟩, b, hb, hbh⟩ := hsome
    have hstage := hclosed ((before ++ g :: between) ++ [h]) ⟨after, by simp⟩
    have hlast : last_group ((before ++ g :: between) ++ [h]) a = some g := by
      grind [last_group_eq_some]
    have hother := hstage a g hlast b hb
    rw [last_group_concat, if_pos hbh] at hother
    grind

end LastGroup

end Laurus
