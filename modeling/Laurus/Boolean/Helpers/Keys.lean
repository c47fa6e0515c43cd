import Laurus.Boolean.Model.Query
import Laurus.Matcher.Helpers.Dispatch

/-!
# A cache key stands for one set of documents

A key can be read back: `{:?}` closes a string where no character of it does,
so the children's keys, the tags and the count are determined by the text.
Queries of one key differ only in leaves of one key.
-/

namespace Laurus

/-!
## What a boolean query means

Each leaf has a set of documents. Required clauses restrict to their
intersection, `Should` clauses to as many matches as asked for, at least one
where nothing is required, and `MustNot` clauses exclude; a query of `MustNot`
clauses alone starts from the present, live documents. `Sound` is what a
leaf's matcher, rewriting and key owe to its set.
-/

namespace Query

open Matcher

variable {L : Type} (B : Backend L) (docs : L → Finset ℕ)

/-- The sets of the clauses of one kind. -/
def of (occur : Occur) (clauses : List (Occur × Finset ℕ)) : List (Finset ℕ) :=
  (clauses.filter fun clause => clause.1 = occur).map Prod.snd

/-- The sets of the required clauses. -/
def required (clauses : List (Occur × Finset ℕ)) : List (Finset ℕ) :=
  of .must clauses ++ of .filter clauses

/-- The documents that clauses leave to count and exclude from. -/
def candidates (clauses : List (Occur × Finset ℕ)) : Finset ℕ :=
  if required clauses ≠ [] then allOf (required clauses)
  else if of .should clauses ≠ [] then anyOf (of .should clauses)
  else if of .must_not clauses ≠ [] then B.live_doc_ids.toFinset
  else ∅

/-- The documents of a boolean query, from those of its clauses. -/
def matches_of (clauses : List (Occur × Finset ℕ)) (minimum_should_match : ℕ) : Finset ℕ :=
  (candidates B clauses).filter fun d =>
    (of .should clauses = [] ∨
      minimum_should_match ≤ ((of .should clauses).filter fun R => d ∈ R).length) ∧
    ∀ R ∈ of .must_not clauses, d ∉ R

mutual

/-- The documents a query matches. -/
def denote : Query L → Finset ℕ
  | leaf query => docs query
  | boolean clauses minimum_should_match => matches_of B (clause_docs clauses) minimum_should_match

/-- The documents of each clause. -/
def clause_docs : List (Occur × Query L) → List (Occur × Finset ℕ)
  | [] => []
  | (occur, query) :: clauses => (occur, denote query) :: clause_docs clauses

end

mutual

/-- Nowhere in the query more than one of several `Should` clauses is asked
for. -/
def Counted : Query L → Prop
  | leaf _ => True
  | boolean clauses minimum_should_match =>
    (minimum_should_match ≤ 1 ∨ clauses_by_occur clauses .should = []) ∧ ClausesCounted clauses

/-- And so in every clause. -/
def ClausesCounted : List (Occur × Query L) → Prop
  | [] => True
  | (_, query) :: clauses => Counted query ∧ ClausesCounted clauses

end

/-- The leaves match the sets `docs`: their matchers enumerate them, a
rewriting keeps them, and a key stands for one of them. -/
structure Sound : Prop where
  matcher : ∀ query, At B.leaf_depth (docs query) (B.matcher query)
  live : ∀ d ∈ B.live_doc_ids, d < END
  rewrite : ∀ query lowered, B.rewrite query = some lowered →
    Counted lowered ∧ denote B docs lowered = docs query
  key : ∀ query query' key, B.cache_key query = some key → B.cache_key query' = some key →
    docs query = docs query'
  tag : ∀ query key, B.cache_key query = some key → ¬ "bool|".toList <+: key

/-! ## Membership -/

variable {B docs} {clauses : List (Occur × Query L)} {occur : Occur} {query : Query L}

theorem denote_boolean {minimum_should_match : ℕ} :
    denote B docs (boolean clauses minimum_should_match) =
      matches_of B (clause_docs B docs clauses) minimum_should_match := by
  rw [denote]

theorem of_clause_docs : of occur (clause_docs B docs clauses) =
    (clauses_by_occur clauses occur).map fun clause => denote B docs clause.2 := by
  induction clauses with
  | nil => rfl
  | cons clause clauses ih =>
      grind [clause_docs, of, clauses_by_occur]

theorem of_eq_nil_iff :
    of occur (clause_docs B docs clauses) = [] ↔ clauses_by_occur clauses occur = [] := by
  rw [of_clause_docs, List.map_eq_nil_iff]

theorem counted_of_mem (h : ClausesCounted clauses) {clause : Occur × Query L}
    (hmem : clause ∈ clauses) : Counted clause.2 := by
  induction clauses with
  | nil => cases hmem
  | cons other clauses ih =>
      rw [ClausesCounted] at h
      grind

theorem levels_le (clauses : List (Occur × Query L)) {clause : Occur × Query L}
    (hmem : clause ∈ clauses) : levels clause.2 ≤ clause_levels clauses := by
  induction clauses with
  | nil => cases hmem
  | cons other clauses ih =>
      rw [clause_levels]
      grind

theorem le_count_iff {m d : ℕ} {Rs : List (Finset ℕ)} (hm : m ≤ 1) :
    m ≤ (Rs.filter fun R => d ∈ R).length ↔ m = 0 ∨ d ∈ anyOf Rs := by
  have hpos : 0 < (Rs.filter fun R => d ∈ R).length ↔ d ∈ anyOf Rs := by
    rw [List.length_pos_iff_exists_mem, mem_anyOf]
    simp
  rw [← hpos]
  omega

end Query

namespace Query

/-! ## Digits -/

theorem digitChar_injective : ∀ a < 16, ∀ b < 16, Nat.digitChar a = Nat.digitChar b → a = b := by
  decide

theorem mem_toDigits {b : ℕ} (hb : 1 < b) {c : Char} : ∀ n, c ∈ Nat.toDigits b n →
    ∃ k < b, c = Nat.digitChar k := by
  intro n
  induction n using Nat.strongRecOn with
  | ind n ih =>
      intro hc
      rw [Nat.toDigits_eq_if hb] at hc
      split at hc
      · grind
      · rename_i hge
        rcases List.mem_append.1 hc with hc | hc
        · exact ih (n / b) (Nat.div_lt_self (by omega) hb) hc
        · exact ⟨n % b, Nat.mod_lt n (by omega), List.mem_singleton.1 hc⟩

theorem toDigits_injective {b : ℕ} (hb : 1 < b) (hb' : b ≤ 16) : ∀ n m,
    Nat.toDigits b n = Nat.toDigits b m → n = m := by
  intro n
  induction n using Nat.strongRecOn with
  | ind n ih =>
      intro m h
      have hlen : ∀ k, Nat.toDigits b (k / b) ≠ [] := fun k => Nat.toDigits_ne_nil
      rw [Nat.toDigits_eq_if hb, Nat.toDigits_eq_if hb (n := m)] at h
      split at h <;> rename_i hn <;> split at h <;> rename_i hm
      · exact digitChar_injective n (by omega) m (by omega) (List.singleton_inj.1 h)
      · have := congrArg List.length h
        simp [hlen m] at this
      · have := congrArg List.length h
        simp [hlen n] at this
      · obtain ⟨hdiv, hmod⟩ := List.append_inj' h rfl
        have hdiv' := ih (n / b) (Nat.div_lt_self (by omega) hb) (m / b) hdiv
        have hn' := Nat.mod_lt n (show 0 < b by omega)
        have hm' := Nat.mod_lt m (show 0 < b by omega)
        have hmod' := digitChar_injective (n % b) (by omega) (m % b) (by omega)
          (List.singleton_inj.1 hmod)
        grind [Nat.div_add_mod]

theorem append_stop {stop : Char} {x y : List Char} : ∀ {s t : List Char},
    stop ∉ s → stop ∉ t → s ++ stop :: x = t ++ stop :: y → s = t ∧ x = y := by
  intro s
  induction s with
  | nil =>
      intro t _ ht h
      cases t with
      | nil => exact ⟨rfl, (List.cons.inj h).2⟩
      | cons c t => grind
  | cons c s ih =>
      intro t hs ht h
      cases t with
      | nil => grind
      | cons c' t =>
          grind

theorem stop_not_mem {b n : ℕ} {stop : Char} (hb : 1 < b)
    (h : ∀ k < b, stop ≠ Nat.digitChar k) : stop ∉ Nat.toDigits b n := by
  grind [mem_toDigits]

/-! ## Strings -/

section Debug

variable {L : Type} (B : Backend L)

/-- The character that a backslash and `x` stand for. -/
def short (x : Char) : Char :=
  if x = '0' then '\x00' else if x = 't' then '\t' else if x = 'r' then '\r'
  else if x = 'n' then '\n' else x

theorem escape_debug_cases (c : Char) :
    (∃ x, escape_debug B c = ['\\', x] ∧ short x = c ∧ x ≠ 'u') ∨
    (escape_debug B c = '\\' :: 'u' :: '\x7b' :: (Nat.toDigits 16 c.toNat ++ ['\x7d'])) ∨
    (escape_debug B c = [c] ∧ c ≠ '\\' ∧ c ≠ '\x22') := by
  rw [escape_debug]
  split
  · rename_i h
    exact Or.inl ⟨'0', rfl, h ▸ by decide, by decide⟩
  split
  · rename_i h
    exact Or.inl ⟨'t', rfl, h ▸ by decide, by decide⟩
  split
  · rename_i h
    exact Or.inl ⟨'r', rfl, h ▸ by decide, by decide⟩
  split
  · rename_i h
    exact Or.inl ⟨'n', rfl, h ▸ by decide, by decide⟩
  split
  · rename_i h
    refine Or.inl ⟨c, rfl, ?_, ?_⟩
    · rcases h with rfl | rfl <;> decide
    · rcases h with rfl | rfl <;> decide
  grind

theorem escape_debug_append {c d : Char} {x y : List Char}
    (h : escape_debug B c ++ x = escape_debug B d ++ y) : c = d ∧ x = y := by
  rcases escape_debug_cases B c with ⟨a, hc, hac, ha⟩ | hc | ⟨hc, hc1, -⟩ <;>
    rcases escape_debug_cases B d with ⟨b, hd, hbd, hb⟩ | hd | ⟨hd, hd1, -⟩ <;>
    rw [hc, hd] at h <;>
    simp only [List.cons_append, List.nil_append, List.append_assoc, List.cons.injEq] at h
  · grind
  · exact absurd h.2.1 ha
  · exact absurd h.1.symm hd1
  · exact absurd h.2.1.symm hb
  · have hstop : ∀ n, '\x7d' ∉ Nat.toDigits 16 n := fun n => stop_not_mem (by decide) (by decide)
    obtain ⟨hdigits, hxy⟩ := append_stop (hstop _) (hstop _) h.2.2.2
    have hnat := toDigits_injective (by decide) (by decide) _ _ hdigits
    exact ⟨Char.ext (UInt32.toNat_inj.1 hnat), hxy⟩
  · exact absurd h.1.symm hd1
  · exact absurd h.1 hc1
  · exact absurd h.1 hc1
  · exact ⟨h.1, h.2⟩

theorem escape_debug_ne_quote {c : Char} {x y : List Char} :
    escape_debug B c ++ x ≠ '\x22' :: y := by
  grind [escape_debug_cases]

/-- **A string can be read back from the front of a text.** -/
theorem debug_append {x y : List Char} : ∀ {s t : List Char},
    debug B s ++ x = debug B t ++ y → s = t ∧ x = y := by
  have hbody : ∀ s t : List Char, s.flatMap (escape_debug B) ++ '\x22' :: x =
      t.flatMap (escape_debug B) ++ '\x22' :: y → s = t ∧ x = y := by
    intro s
    induction s with
    | nil =>
        intro t h
        cases t with
        | nil => exact ⟨rfl, (List.cons.inj h).2⟩
        | cons d t =>
            rw [List.flatMap_cons, List.append_assoc] at h
            exact absurd h.symm (escape_debug_ne_quote B)
    | cons c s ih =>
        intro t h
        cases t with
        | nil =>
            rw [List.flatMap_cons, List.append_assoc] at h
            exact absurd h (escape_debug_ne_quote B)
        | cons d t =>
            grind [escape_debug_append]
  grind [debug]

end Debug

/-! ## Keys -/

section Keys

variable {L : Type} {B : Backend L} {docs : L → Finset ℕ}

theorem tag_injective {o o' : Occur} (h : tag o = tag o') : o = o' := by
  cases o <;> cases o' <;> first | rfl | (exact absurd h (by decide))

theorem cache_key_boolean {clauses : List (Occur × Query L)} {m : ℕ} {key : List Char}
    (h : cache_key B (boolean clauses m) = some key) : ∃ parts,
      clause_keys B clauses = some parts ∧
      key = "bool|msm=".toList ++ (Nat.toDigits 10 m ++ '|' :: parts) := by
  rw [cache_key] at h
  split at h
  · cases hparts : clause_keys B clauses with
    | none => rw [hparts] at h; cases h
    | some parts =>
        grind
  · cases h

theorem clause_keys_cons {o : Occur} {query : Query L} {clauses : List (Occur × Query L)}
    {parts : List Char} (h : clause_keys B ((o, query) :: clauses) = some parts) :
    ∃ child rest, cache_key B query = some child ∧ clause_keys B clauses = some rest ∧
      parts = tag o :: (debug B child ++ ';' :: rest) := by
  rw [clause_keys] at h
  cases hchild : cache_key B query with
  | none => rw [hchild] at h; cases h
  | some child =>
      cases hrest : clause_keys B clauses with
      | none => rw [hchild, hrest] at h; cases h
      | some rest =>
          grind

theorem bool_head (key : List Char) : "bool|".toList <+: "bool|msm=".toList ++ key :=
  (show "bool|".toList <+: "bool|msm=".toList from ⟨"msm=".toList, rfl⟩).trans
    (List.prefix_append _ _)

/-! ## Queries of one key -/

section Fold

variable {α : Type} (ofLeaf : L → α) (node : List (Occur × α) → ℕ → α)

mutual

/-- A meaning of queries: one of leaves, and of clauses with their count. -/
def fold : Query L → α
  | leaf query => ofLeaf query
  | boolean clauses minimum_should_match => node (fold_clauses clauses) minimum_should_match

def fold_clauses : List (Occur × Query L) → List (Occur × α)
  | [] => []
  | (occur, query) :: clauses => (occur, fold query) :: fold_clauses clauses

end

theorem fold_clauses_eq_map (clauses : List (Occur × Query L)) :
    fold_clauses ofLeaf node clauses =
      clauses.map fun clause => (clause.1, fold ofLeaf node clause.2) := by
  induction clauses with
  | nil => rfl
  | cons clause clauses ih =>
      rw [fold_clauses, ih, List.map_cons]

variable {ofLeaf node}

mutual

/-- **Queries of one key mean the same**, where leaves of one key do. -/
theorem fold_eq_of_key (hleaf : ∀ l l' key, B.cache_key l = some key →
    B.cache_key l' = some key → ofLeaf l = ofLeaf l')
    (htag : ∀ l key, B.cache_key l = some key → ¬ "bool|".toList <+: key) :
    ∀ (query query' : Query L) (key : List Char),
    cache_key B query = some key → cache_key B query' = some key →
      fold ofLeaf node query = fold ofLeaf node query'
  | leaf l, leaf l', key, hkey, hkey' => by
      exact hleaf l l' key hkey hkey'
  | leaf l, boolean clauses m, key, hkey, hkey' => by
      obtain ⟨parts, -, rfl⟩ := cache_key_boolean hkey'
      exact absurd (bool_head _) (htag l _ hkey)
  | boolean clauses m, leaf l, key, hkey, hkey' => by
      obtain ⟨parts, -, rfl⟩ := cache_key_boolean hkey
      exact absurd (bool_head _) (htag l _ hkey')
  | boolean clauses m, boolean clauses' m', key, hkey, hkey' => by
      obtain ⟨parts, hparts, rfl⟩ := cache_key_boolean hkey
      obtain ⟨parts', hparts', heq⟩ := cache_key_boolean hkey'
      have hstop : ∀ n, '|' ∉ Nat.toDigits 10 n := fun n => stop_not_mem (by decide) (by decide)
      obtain ⟨hdigits, rfl⟩ := append_stop (hstop _) (hstop _) (List.append_cancel_left heq)
      obtain rfl := toDigits_injective (by decide) (by decide) _ _ hdigits
      rw [fold, fold, fold_clauses_eq_of_keys hleaf htag clauses clauses' parts hparts hparts']

theorem fold_clauses_eq_of_keys (hleaf : ∀ l l' key, B.cache_key l = some key →
    B.cache_key l' = some key → ofLeaf l = ofLeaf l')
    (htag : ∀ l key, B.cache_key l = some key → ¬ "bool|".toList <+: key) :
    ∀ (clauses clauses' : List (Occur × Query L)) (parts : List Char),
    clause_keys B clauses = some parts → clause_keys B clauses' = some parts →
      fold_clauses ofLeaf node clauses = fold_clauses ofLeaf node clauses'
  | [], [], _, _, _ => rfl
  | [], (o', query') :: clauses', parts, hparts, hparts' => by
      obtain ⟨child, rest, -, -, rfl⟩ := clause_keys_cons hparts'
      cases hparts
  | (o, query) :: clauses, [], parts, hparts, hparts' => by
      obtain ⟨child, rest, -, -, rfl⟩ := clause_keys_cons hparts
      cases hparts'
  | (o, query) :: clauses, (o', query') :: clauses', parts, hparts, hparts' => by
      obtain ⟨child, rest, hchild, hrest, rfl⟩ := clause_keys_cons hparts
      obtain ⟨child', rest', hchild', hrest', heq⟩ := clause_keys_cons hparts'
      obtain ⟨htag', htail⟩ := List.cons.inj heq
      obtain rfl := tag_injective htag'
      obtain ⟨rfl, hsemi⟩ := debug_append B htail
      obtain ⟨-, rfl⟩ := List.cons.inj hsemi
      rw [fold_clauses, fold_clauses,
        fold_eq_of_key hleaf htag query query' child hchild hchild',
        fold_clauses_eq_of_keys hleaf htag clauses clauses' rest hrest hrest']

end

end Fold

mutual

theorem denote_eq_fold : ∀ query : Query L,
    denote B docs query = fold docs (matches_of B) query
  | leaf query => by rw [denote, fold]
  | boolean clauses m => by rw [denote, fold, clause_docs_eq_fold clauses]

theorem clause_docs_eq_fold : ∀ clauses : List (Occur × Query L),
    clause_docs B docs clauses = fold_clauses docs (matches_of B) clauses
  | [] => by rw [clause_docs, fold_clauses]
  | (occur, query) :: clauses => by
      rw [clause_docs, fold_clauses, denote_eq_fold query, clause_docs_eq_fold clauses]

end

/-- **Queries of one key match the same documents.** -/
theorem denote_eq_of_key (h : Sound B docs) (query query' : Query L) (key : List Char)
    (hkey : cache_key B query = some key) (hkey' : cache_key B query' = some key) :
    denote B docs query = denote B docs query' := by
  rw [denote_eq_fold, denote_eq_fold]
  exact fold_eq_of_key h.key h.tag query query' key hkey hkey'

end Keys

end Query

end Laurus
