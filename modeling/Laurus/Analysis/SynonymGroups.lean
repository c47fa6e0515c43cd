import Laurus.Analysis.Model.SynonymGraph
import Laurus.Common.LastGroup
import Mathlib.Data.Set.Defs

/-!
# Synonym groups, one by one

A term's synonyms are the others of the last group that has it. Adding a group
rebuilds the dictionary from the groups found in it, and finds those that were
added where each is the last of all its terms. That is so at every stage iff
each group has, of every earlier one that none between touches, all terms or
none (`synonym_groups_add_up_iff`).
-/

namespace Laurus

open LastGroup

namespace SynonymDictionary

/-- The synonyms of a term as a set, if it has any entry. -/
def synonym_set (dict : SynonymDictionary) (t : String) : Option (Set String) :=
  (dict.get_synonyms t).map fun synonyms => {u | u ∈ synonyms}

/-- A term lists another as its synonym. -/
def Lists (dict : SynonymDictionary) (t u : String) : Prop :=
  ∃ synonyms, dict.get_synonyms t = some synonyms ∧ u ∈ synonyms

/-- The dictionary after groups are added in order. -/
def added (groups : List (List String)) : SynonymDictionary :=
  groups.foldl add_synonym_group new

/-- **Groups add up**, at every stage: added one by one they are as loaded at once,
a group leaves the terms outside it as they are, and to be a synonym is mutual. -/
structure AddUp (groups : List (List String)) : Prop where
  same : ∀ stage, stage <+: groups → ∀ t,
    (added stage).synonym_set t = (from_synonym_groups stage).synonym_set t
  outside : ∀ stage group, stage ++ [group] <+: groups → ∀ t, t ∉ group →
    ((added stage).add_synonym_group group).synonym_set t = (added stage).synonym_set t
  both_ways : ∀ stage, stage <+: groups → ∀ t u,
    (from_synonym_groups stage).Lists t u ↔ (from_synonym_groups stage).Lists u t

variable {terms : Terms} {group : List String} {t u : String} {groups : List (List String)}
  {dict dict' : SynonymDictionary}

/-! ## The map -/

theorem lookup_foldl_insert (f : ℕ → List String) (entries : List (String × ℕ)) (terms : Terms) :
    ((∀ e ∈ entries, e.1 ≠ t) →
      (entries.foldl (fun terms e => terms.insert e.1 (f e.2)) terms).lookup t = terms.lookup t) ∧
    ((∃ e ∈ entries, e.1 = t) → ∃ e ∈ entries, e.1 = t ∧
      (entries.foldl (fun terms e => terms.insert e.1 (f e.2)) terms).lookup t =
        some (f e.2)) := by
  induction entries using List.reverseRecOn with
  | nil => simp
  | append_singleton entries e ih =>
      rw [List.foldl_concat]
      by_cases he : e.1 = t
      · grind [AList.lookup_insert]
      · rw [AList.lookup_insert_ne (Ne.symm he)]
        refine ⟨fun h => ih.1 fun e' he' => h e' (List.mem_append_left _ he'), ?_⟩
        rintro ⟨e', he', ht⟩
        rcases List.mem_append.1 he' with he' | he'
        · obtain ⟨e'', he'', hentry⟩ := ih.2 ⟨e', he', ht⟩
          grind
        grind

theorem lookup_insert_group : (t ∉ group → (insert_group terms group).lookup t = terms.lookup t) ∧
    (t ∈ group → ∃ synonyms, (insert_group terms group).lookup t = some synonyms ∧
      (t :: synonyms).Perm group) := by
  obtain ⟨hnone, hsome⟩ := @lookup_foldl_insert t (fun i => group.eraseIdx i) group.zipIdx terms
  constructor
  · intro ht
    refine hnone fun e he heq => ht ?_
    grind
  · intro ht
    obtain ⟨i, hi, rfl⟩ := List.getElem_of_mem ht
    obtain ⟨e, he, heq, hlookup⟩ := hsome ⟨(group[i], i),
      List.mem_zipIdx_iff_getElem?.2 (List.getElem?_eq_getElem hi), rfl⟩
    refine ⟨_, hlookup, ?_⟩
    obtain ⟨hlt, hget⟩ := List.getElem?_eq_some_iff.1 (List.mem_zipIdx_iff_getElem?.1 he)
    rw [← heq, ← hget]
    exact ((List.erase_getElem hlt).symm.cons _).trans
      (List.perm_cons_erase (List.getElem_mem hlt)).symm

/-! ## The FST -/

theorem lookup_zipIdx (keys : List String) (start : ℕ) :
    (t ∉ keys → (keys.zipIdx start).lookup t = none) ∧
    (t ∈ keys → ∃ i, (keys.zipIdx start).lookup t = some (start + i) ∧ keys[i]? = some t) := by
  induction keys generalizing start with
  | nil => simp
  | cons key keys ih =>
      rw [List.zipIdx_cons, List.lookup_cons]
      by_cases hkey : t = key
      · rw [beq_iff_eq.2 hkey]
        exact ⟨fun ht => absurd (hkey ▸ List.mem_cons_self) ht, fun _ => ⟨0, rfl, by simp [hkey]⟩⟩
      · rw [beq_eq_false_iff_ne.2 hkey]
        obtain ⟨hnone, hsome⟩ := ih (start + 1)
        refine ⟨fun ht => hnone fun h => ht (List.mem_cons_of_mem _ h), fun ht => ?_⟩
        obtain ⟨i, hlookup, hget⟩ := hsome ((List.mem_cons.1 ht).resolve_left hkey)
        exact ⟨i + 1, by grind, hget⟩

/-- **The FST is the map.** -/
theorem get_synonyms_of_terms (terms : Terms) (longest : ℕ) :
    (of_terms terms longest).get_synonyms t = terms.lookup t := by
  obtain ⟨hnone, hsome⟩ := @lookup_zipIdx t (terms.keys.insertionSort (· ≤ ·)) 0
  rw [List.mem_insertionSort] at hnone hsome
  by_cases ht : t ∈ terms.keys
  · obtain ⟨i, hlookup, hget⟩ := hsome ht
    obtain ⟨synonyms, hsynonyms⟩ := Option.isSome_iff_exists.1 (AList.lookup_isSome.2 ht)
    rw [get_synonyms, of_terms, hlookup, hsynonyms, Nat.zero_add]
    simp [hget, hsynonyms]
  · rw [get_synonyms, of_terms, hnone ht, AList.lookup_eq_none.2 ht]
    rfl

/-! ## What a dictionary holds -/

/-- A dictionary has for each term what its last group leaves of it. -/
def Holds (dict : SynonymDictionary) (groups : List (List String)) : Prop :=
  ∀ t, (last_group groups t = none → dict.get_synonyms t = none) ∧
    ∀ g, last_group groups t = some g →
      ∃ synonyms, dict.get_synonyms t = some synonyms ∧ (t :: synonyms).Perm g

theorem holds_from (groups : List (List String)) : Holds (from_synonym_groups groups) groups := by
  intro t
  rw [from_synonym_groups, get_synonyms_of_terms]
  generalize hlongest : groups.foldl _ 1 = longest
  clear hlongest
  induction groups using List.reverseRecOn with
  | nil => exact ⟨fun _ => rfl, fun g hg => by cases hg⟩
  | append_singleton groups group ih =>
      grind [last_group_concat, lookup_insert_group]

theorem Holds.lists_iff (h : Holds dict groups) : dict.Lists t u ↔ Other groups t u := by
  obtain ⟨hnone, hsome⟩ := h t
  constructor
  · rintro ⟨synonyms, hget, hu⟩
    rcases hlast : last_group groups t with _ | g
    · grind
    · obtain ⟨synonyms', hget', hperm⟩ := hsome g hlast
      obtain rfl := Option.some.inj (hget.symm.trans hget')
      exact ⟨g, hlast, ((List.cons_perm_iff_perm_erase.1 hperm).2).mem_iff.1 hu⟩
  · rintro ⟨g, hlast, hu⟩
    obtain ⟨synonyms, hget, hperm⟩ := hsome g hlast
    exact ⟨synonyms, hget, ((List.cons_perm_iff_perm_erase.1 hperm).2).mem_iff.2 hu⟩

/-- Where two dictionaries hold groups with the same last one, a term's synonyms
are the same. -/
theorem Holds.synonym_set_eq {groups' : List (List String)} (h : Holds dict groups)
    (h' : Holds dict' groups') (hlast : last_group groups t = last_group groups' t) :
    dict.synonym_set t = dict'.synonym_set t := by
  obtain ⟨hnone, hsome⟩ := h t
  obtain ⟨hnone', hsome'⟩ := h' t
  rw [synonym_set, synonym_set]
  rcases hg : last_group groups t with _ | g
  · rw [hnone hg, hnone' (hlast ▸ hg)]
  · obtain ⟨synonyms, hget, hperm⟩ := hsome g hg
    obtain ⟨synonyms', hget', hperm'⟩ := hsome' g (hlast ▸ hg)
    rw [hget, hget', Option.map_some, Option.map_some]
    congr 1
    ext u
    exact ((hperm.trans hperm'.symm).cons_inv).mem_iff

/-! ## The groups found -/

/-- A dictionary that was built. -/
def Built (dict : SynonymDictionary) : Prop := ∃ terms longest, dict = of_terms terms longest

theorem built_new : Built new := ⟨∅, 1, rfl⟩

theorem built_from (groups : List (List String)) : Built (from_synonym_groups groups) :=
  ⟨_, _, rfl⟩

/-- What the loop has found, after some keys. -/
structure Found (groups : List (List String)) (keys : List String)
    (st : List (List String) × List String) : Prop where
  /-- A group found is a last group of each of its terms. -/
  last : ∀ c ∈ st.1, ∀ t ∈ c, ∃ g, last_group groups t = some g ∧ c.Perm g
  processed : ∀ t, t ∈ st.2 ↔ ∃ c ∈ st.1, t ∈ c
  keys : ∀ t ∈ keys, t ∈ st.2

theorem Found.step (hclosed : Closed groups) (hholds : Holds dict groups) {keys : List String}
    {st : List (List String) × List String} {key : String} {i : ℕ} {synonyms : List String}
    (h : Found groups keys st) (hlist : dict.synonym_lists[i]? = some synonyms)
    (hget : dict.get_synonyms key = some synonyms) :
    Found groups (keys ++ [key]) (collect_group dict.synonym_lists st (key, i)) := by
  rw [collect_group]
  split
  · rename_i hkey
    refine ⟨h.last, h.processed, fun t ht => ?_⟩
    grind [keys]
  · rw [hlist]
    obtain ⟨g, hlast, hperm⟩ : ∃ g, last_group groups key = some g ∧ (key :: synonyms).Perm g := by
      rcases hg : last_group groups key with _ | g
      · rw [(hholds key).1 hg] at hget
        cases hget
      · obtain ⟨synonyms', hget', hperm⟩ := (hholds key).2 g hg
        grind
    refine ⟨fun c hc t ht => ?_, fun t => ?_, fun t ht => ?_⟩
    · rcases List.mem_append.1 hc with hc | hc
      · exact h.last c hc t ht
      · rw [List.mem_singleton.1 hc] at ht ⊢
        exact ⟨g, hclosed key g hlast t (hperm.mem_iff.1 ht), hperm⟩
    · dsimp only
      rw [List.mem_append, h.processed]
      simp
    grind [keys]

/-- **The groups found have the last groups of all terms.** -/
theorem last_group_all_groups (hbuilt : Built dict) (hclosed : Closed groups)
    (hholds : Holds dict groups) :
    (last_group groups t = none → last_group dict.all_groups t = none) ∧
      ∀ g, last_group groups t = some g →
        ∃ c, last_group dict.all_groups t = some c ∧ c.Perm g := by
  obtain ⟨terms, longest, rfl⟩ := hbuilt
  have hfound : ∀ keys, keys <+: terms.keys.insertionSort (· ≤ ·) → Found groups keys
      (keys.zipIdx.foldl (collect_group (of_terms terms longest).synonym_lists) ([], [])) := by
    intro keys
    induction keys using List.reverseRecOn with
    | nil =>
        exact fun _ => ⟨fun c hc => absurd hc List.not_mem_nil,
          fun t => ⟨fun ht => absurd ht List.not_mem_nil, fun ⟨c, hc, _⟩ =>
            absurd hc List.not_mem_nil⟩, fun t ht => absurd ht List.not_mem_nil⟩
    | append_singleton keys key ih =>
        intro hkeys
        rw [List.zipIdx_append, List.foldl_append]
        obtain ⟨rest, hrest⟩ := id hkeys
        have hget : (terms.keys.insertionSort (· ≤ ·))[keys.length]? = some key := by
          rw [← hrest]
          simp
        have hmem : key ∈ terms.keys := List.mem_insertionSort _ |>.1 (List.mem_of_getElem? hget)
        obtain ⟨synonyms, hsynonyms⟩ := Option.isSome_iff_exists.1 (AList.lookup_isSome.2 hmem)
        refine (ih ((List.prefix_append keys [key]).trans hkeys)).step hclosed hholds ?_
          ((get_synonyms_of_terms terms longest).trans hsynonyms)
        rw [of_terms, List.getElem?_map, Nat.zero_add, hget, Option.map_some, hsynonyms]
        rfl
  obtain ⟨hlast, hprocessed, hkeys⟩ := hfound _ List.prefix_rfl
  constructor
  · intro hnone
    refine last_group_eq_none.2 fun c hc ht => ?_
    obtain ⟨g, hg, -⟩ := hlast c hc t ht
    rw [hnone] at hg
    cases hg
  · intro g hg
    obtain ⟨synonyms, hget, -⟩ := (hholds t).2 g hg
    rw [get_synonyms_of_terms] at hget
    have hmem : t ∈ terms.keys := AList.lookup_isSome.1 (by rw [hget]; rfl)
    obtain ⟨c, hc, ht⟩ := (hprocessed t).1 (hkeys t ((List.mem_insertionSort _).2 hmem))
    rcases hc' : last_group (all_groups (of_terms terms longest)) t with _ | c'
    · exact absurd ht (last_group_eq_none.1 hc' c hc)
    grind [last_group_eq_some, all_groups, of_terms]

/-- **Adding a group**, where the ones before are closed. -/
theorem Holds.add (hbuilt : Built dict) (hclosed : Closed groups) (hholds : Holds dict groups)
    (group : List String) : Holds (dict.add_synonym_group group) (groups ++ [group]) := by
  intro t
  obtain ⟨hnone, hsome⟩ := holds_from (dict.all_groups ++ [group]) t
  grind [last_group_all_groups, last_group_concat, add_synonym_group]

theorem built_added (groups : List (List String)) : Built (added groups) := by
  induction groups using List.reverseRecOn with
  | nil => exact built_new
  | append_singleton groups group _ =>
      rw [added, List.foldl_concat]
      exact built_from _

/-- **Whole groups are held**, added one by one. -/
theorem holds_added (hwhole : Whole groups) : Holds (added groups) groups := by
  induction groups using List.reverseRecOn with
  | nil => exact fun t => ⟨fun _ => rfl, fun g hg => by cases hg⟩
  | append_singleton groups group ih =>
      have hstage : groups <+: groups ++ [group] := List.prefix_append _ _
      rw [added, List.foldl_concat]
      exact (ih (hwhole.stage hstage)).add (built_added groups)
        (whole_iff_closed.1 hwhole groups hstage) group

end SynonymDictionary

open SynonymDictionary

/-- **Groups add up iff each has, of every earlier group that none between touches,
all terms or none.** -/
theorem synonym_groups_add_up_iff (groups : List (List String)) :
    AddUp groups ↔ Whole groups := by
  constructor
  · intro h
    refine whole_iff_closed.2 fun stage hstage => closed_iff_mutual.2 fun t u htu => ?_
    have hholds := holds_from stage
    exact hholds.lists_iff.1 ((h.both_ways stage hstage t u).1 (hholds.lists_iff.2 htu))
  · intro hwhole
    refine ⟨fun stage hstage t => ?_, fun stage group hstage t ht => ?_, fun stage hstage t u => ?_⟩
    · exact (holds_added (hwhole.stage hstage)).synonym_set_eq (holds_from stage) rfl
    · have hbefore : stage <+: groups := (List.prefix_append stage [group]).trans hstage
      have hholds := holds_added (hwhole.stage hbefore)
      refine (hholds.add (built_added stage) (whole_iff_closed.1 hwhole stage hbefore)
        group).synonym_set_eq hholds ?_
      rw [last_group_concat, if_neg ht]
    · have hholds := holds_from stage
      have hmutual := closed_iff_mutual.1 (whole_iff_closed.1 hwhole stage hstage)
      rw [hholds.lists_iff, hholds.lists_iff]
      exact ⟨hmutual t u, hmutual u t⟩

/-- Two groups share a term: the earlier one loses it, and a third group gives it
back. -/
theorem synonym_groups_add_up_counterexample :
    let shared : List (List String) := [["b", "c"], ["a", "b"]]
    (from_synonym_groups shared).Lists "c" "b" ∧ ¬ (from_synonym_groups shared).Lists "b" "c" ∧
      ¬ (added shared).Lists "b" "c" ∧ ((added shared).add_synonym_group ["x"]).Lists "b" "c" ∧
      ¬ (from_synonym_groups (shared ++ [["x"]])).Lists "b" "c" := by
  have lists_iff : ∀ {dict : SynonymDictionary} {t u : String} {synonyms : List String},
      dict.get_synonyms t = some synonyms → (dict.Lists t u ↔ u ∈ synonyms) := by
    intro dict t u synonyms h
    constructor
    · rintro ⟨synonyms', h', hu⟩
      obtain rfl := Option.some.inj (h.symm.trans h')
      exact hu
    · exact fun hu => ⟨synonyms, h, hu⟩
  refine ⟨(lists_iff (by decide +kernel : _ = some ["b"])).2 (by decide),
    fun h => absurd ((lists_iff (by decide +kernel : _ = some ["a"])).1 h) (by decide),
    fun h => absurd ((lists_iff (by decide +kernel : _ = some ["a"])).1 h) (by decide),
    (lists_iff (by decide +kernel : _ = some ["c"])).2 (by decide),
    fun h => absurd ((lists_iff (by decide +kernel : _ = some ["a"])).1 h) (by decide)⟩

end Laurus
