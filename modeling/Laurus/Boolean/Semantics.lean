import Laurus.Boolean.Helpers.Keys

/-!
# The semantics of boolean queries

The matcher of a query enumerates what the query denotes, each document once
and in ascending order, whatever sets the leaves match and whatever the cache
has come to hold; rewriting the query first changes none of it.
-/

namespace Laurus

/-!
## Building the matcher of a boolean query

`den` gives the documents of each query. Over a cache whose entries are the
sets their keys stand for, each step of `BooleanQuery::matcher` succeeds,
leaves the cache so, and yields matchers at the start of the sets it was to
combine.
-/

namespace Query

open Matcher

variable {L : Type} {B : Backend L} {docs : L → Finset ℕ} {den : Query L → Finset ℕ}

/-- Every entry of the cache is what its key stands for. -/
def CacheSound (B : Backend L) (docs : L → Finset ℕ) (cache : QueryFilterCache) : Prop :=
  ∀ entry ∈ cache.entries, (∀ d ∈ entry.2, d < END) ∧
    ∀ query, cache_key B query = some entry.1 → entry.2.toFinset = denote B docs query

/-- The same, with `den` for what a key stands for. -/
def CacheHolds (B : Backend L) (den : Query L → Finset ℕ) (cache : QueryFilterCache) : Prop :=
  ∀ entry ∈ cache.entries, (∀ d ∈ entry.2, d < END) ∧
    ∀ query, cache_key B query = some entry.1 → entry.2.toFinset = den query

/-- The live documents are documents, and a key stands for one set. -/
structure Keyed (B : Backend L) (den : Query L → Finset ℕ) : Prop where
  live : ∀ d ∈ B.live_doc_ids, d < END
  key : ∀ query query' key, cache_key B query = some key → cache_key B query' = some key →
    den query = den query'

theorem Sound.keyed (h : Sound B docs) : Keyed B (denote B docs) where
  live := h.live
  key := denote_eq_of_key h

/-- From a sound cache, `x` succeeds with a value that meets `P` and leaves
the cache sound. -/
def Yields {α : Type} (B : Backend L) (den : Query L → Finset ℕ) (x : Search α) (P : α → Prop) :
    Prop :=
  Comp.Triple (fun _ => True) (CacheHolds B den) x fun a cache => P a ∧ CacheHolds B den cache

section Yields

variable {α β : Type} {x : Search α} {f : α → Search β} {P : α → Prop} {Q : β → Prop} {a : α}

theorem Yields.pure (h : P a) : Yields B den (pure a) P := Comp.Triple.pure fun _ hs => ⟨h, hs⟩

theorem Yields.bind (hx : Yields B den x P) (hf : ∀ a, P a → Yields B den (f a) Q) :
    Yields B den (x >>= f) Q := Comp.Triple.bind hx fun a => Comp.Triple.assume (hf a)

theorem Yields.lift {o : Option α} (ho : o = some a) (h : P a) :
    Yields B den (Search.lift o) P := by
  subst ho
  exact .pure h

theorem Yields.get_bind {f : QueryFilterCache → Search β}
    (h : ∀ cache, CacheHolds B den cache → Yields B den (f cache) Q) :
    Yields B den (get >>= f) Q := Comp.Triple.get_bind h

theorem Yields.set {cache : QueryFilterCache} (h : CacheHolds B den cache) :
    Yields B den (set cache) fun _ => True := by
  intro s _
  rw [Comp.set_apply]
  grind

theorem Yields.run (h : Yields B den x P) {cache : QueryFilterCache}
    (hc : CacheHolds B den cache) :
    ∃ a cache', x cache = .ok (a, cache') ∧ P a ∧ CacheHolds B den cache' := by
  obtain ⟨hok, herr⟩ := h cache hc
  cases hx : x cache with
  | error e => exact absurd trivial (herr e hx)
  | ok r => exact ⟨r.1, r.2, rfl, hok r.1 r.2 hx⟩

end Yields

/-! ## The cache -/

variable {cache : QueryFilterCache} {key : List Char} {ds : List ℕ}

theorem cacheHolds_new (capacity : ℕ) : CacheHolds B den (.new capacity) := by
  intro entry h
  cases h

theorem CacheHolds.cons (h : CacheHolds B den cache) (hds : ∀ d ∈ ds, d < END)
    (hkey : ∀ query, cache_key B query = some key → ds.toFinset = den query) :
    ∀ entry ∈ (key, ds) :: cache.without key, (∀ d ∈ entry.2, d < END) ∧
      ∀ query, cache_key B query = some entry.1 → entry.2.toFinset = den query := by
  intro entry hentry
  rcases List.mem_cons.1 hentry with rfl | hentry
  · exact ⟨hds, hkey⟩
  · exact h entry (List.mem_of_mem_filter hentry)

theorem CacheHolds.get (h : CacheHolds B den cache) (key : List Char) :
    CacheHolds B den (cache.get key).2 ∧ ∀ ds, (cache.get key).1 = some ds →
      (∀ d ∈ ds, d < END) ∧
      ∀ query, cache_key B query = some key → ds.toFinset = den query := by
  rw [QueryFilterCache.get]
  split
  · rename_i found hfound
    have hmem : (key, found) ∈ cache.entries := by
      grind [List.lookup_eq_some_iff]
    obtain ⟨hbelow, hsame⟩ := h _ hmem
    refine ⟨h.cons hbelow hsame, fun ds hds => ?_⟩
    cases hds
    exact ⟨hbelow, hsame⟩
  grind

theorem CacheHolds.put (h : CacheHolds B den cache) (hds : ∀ d ∈ ds, d < END)
    (hkey : ∀ query, cache_key B query = some key → ds.toFinset = den query) :
    CacheHolds B den (cache.put key ds) := fun entry hentry =>
  h.cons hds hkey entry (List.mem_of_mem_take hentry)

/-! ## Clauses -/

section Clauses

variable {query_matcher : Query L → Search Matcher} {depth : ℕ} {query : Query L}
variable {clauses : List (Occur × Query L)} {R : Finset ℕ} {Rs : List (Finset ℕ)}
variable {ms : List Matcher}

theorem At.lt_end {m : Matcher} (h : At depth R m) {d : ℕ} (hd : d ∈ R) : d < END :=
  (treeView depth).lt_top h.1 (h.2.1 ▸ hd)

/-- The matcher of every clause is at the start of what the clause matches. -/
def ClausesYield (B : Backend L) (den : Query L → Finset ℕ)
    (query_matcher : Query L → Search Matcher) (depth : ℕ) (clauses : List (Occur × Query L)) : Prop :=
  ∀ clause ∈ clauses, Yields B den (query_matcher clause.2)
    (At (depth + 1) (den clause.2))

theorem drain_matching_yields
    (hq : Yields B den (query_matcher query) (At depth (den query))) :
    Yields B den (drain_matching query_matcher depth query) fun ds =>
      (∀ d ∈ ds, d < END) ∧ ds.toFinset = den query :=
  hq.bind fun m hm => .lift hm.drain ⟨fun d hd => At.lt_end hm ((Finset.mem_sort _).1 hd), by simp⟩

theorem matching_doc_ids_yields (h : Keyed B den)
    (hq : Yields B den (query_matcher query) (At depth (den query))) :
    Yields B den (matching_doc_ids B query_matcher depth query) fun ds =>
      (∀ d ∈ ds, d < END) ∧ ds.toFinset = den query := by
  rw [matching_doc_ids]
  split
  · rename_i key hkey
    refine Yields.get_bind fun cache hcache => ?_
    obtain ⟨hafter, hhit⟩ := hcache.get key
    split
    · rename_i found cache' hget
      rw [hget] at hafter hhit
      obtain ⟨hbelow, hsame⟩ := hhit found rfl
      exact (Yields.set hafter).bind fun _ _ => .pure ⟨hbelow, hsame query hkey⟩
    · rename_i cache' hget
      rw [hget] at hafter
      refine (Yields.set hafter).bind fun _ _ => ?_
      refine (drain_matching_yields hq).bind fun ds hds => ?_
      refine Yields.get_bind fun cache hcache => ?_
      have hput : CacheHolds B den (cache.put key ds) :=
        hcache.put hds.1 fun other hother =>
          hds.2.trans (h.key query other key hkey hother)
      exact (Yields.set hput).bind fun _ _ => .pure hds
  · exact drain_matching_yields hq

theorem clause_matcher_yields (h : Keyed B den) {clause : Occur × Query L}
    (hq : Yields B den (query_matcher clause.2) (At (depth + 1) (den clause.2))) :
    Yields B den (clause_matcher B query_matcher (depth + 1) clause)
      (At (depth + 1) (den clause.2)) := by
  rw [clause_matcher]
  split
  · refine (matching_doc_ids_yields h hq).bind fun ds hds => .pure ?_
    rw [← hds.2]
    exact at_precomputed hds.1
  · exact hq

theorem live_matchers_yields (hq : ClausesYield B den query_matcher depth clauses) :
    Yields B den (live_matchers query_matcher clauses) fun ms =>
      ∃ Rs, List.Forall₂ (At (depth + 1)) Rs ms ∧
        anyOf Rs = anyOf (clauses.map fun clause => den clause.2) := by
  induction clauses with
  | nil => exact .pure ⟨[], .nil, rfl⟩
  | cons clause clauses ih =>
      refine (hq clause List.mem_cons_self).bind fun m hm => ?_
      refine (ih fun c hc => hq c (List.mem_cons_of_mem _ hc)).bind fun ms hms => .pure ?_
      obtain ⟨Rs, hall, hany⟩ := hms
      rw [List.map_cons, anyOf, List.foldr_cons, ← anyOf, ← hany]
      by_cases hex : m.is_exhausted = true
      · refine ⟨Rs, by rw [if_pos hex]; exact hall, ?_⟩
        rw [hm.is_exhausted_iff.1 hex, Finset.empty_union]
      · exact ⟨den clause.2 :: Rs, by rw [if_neg hex]; exact .cons hm hall, rfl⟩

theorem required_matchers_yields (h : Keyed B den)
    (hq : ClausesYield B den query_matcher depth clauses) :
    Yields B den (required_matchers B query_matcher (depth + 1) clauses) fun result =>
      match result with
      | none => ∃ R ∈ clauses.map (fun clause => den clause.2), R = ∅
      | some ms => List.Forall₂ (At (depth + 1))
          (clauses.map fun clause => den clause.2) ms := by
  induction clauses with
  | nil => exact .pure .nil
  | cons clause clauses ih =>
      refine (clause_matcher_yields h (hq clause List.mem_cons_self)).bind fun m hm => ?_
      by_cases hex : m.is_exhausted = true
      · rw [if_pos hex]
        exact .pure ⟨_, List.mem_cons_self, hm.is_exhausted_iff.1 hex⟩
      · rw [if_neg hex]
        refine (ih fun c hc => hq c (List.mem_cons_of_mem _ hc)).bind fun result hresult => .pure ?_
        cases result with
        | none =>
            grind
        | some ms => exact .cons hm hresult

/-- What the required clauses leave; the live documents where there are none. -/
def positive (B : Backend L) : List (Finset ℕ) → Finset ℕ
  | [] => B.live_doc_ids.toFinset
  | Rs => allOf Rs

theorem allOf_eq_empty (h : R ∈ Rs) (hempty : R = ∅) : allOf Rs = ∅ := by
  grind [mem_allOf, List.ne_nil_of_mem]

theorem positive_matcher_yields (h : Keyed B den)
    (hq : ClausesYield B den query_matcher depth clauses) :
    Yields B den (positive_matcher B query_matcher (depth + 1) clauses) fun result =>
      match result with
      | none => clauses ≠ [] ∧ positive B (clauses.map fun clause => den clause.2) = ∅
      | some m =>
        At (depth + 2) (positive B (clauses.map fun clause => den clause.2)) m := by
  rw [positive_matcher.eq_def]
  split
  · exact .pure (at_precomputed h.live)
  · rename_i clause
    refine (clause_matcher_yields h (hq clause List.mem_cons_self)).bind fun m hm => .pure ?_
    have hone : positive B [den clause.2] = den clause.2 := by
      simp [positive, allOf]
    simp only [List.map_cons, List.map_nil, hone]
    exact hm.mono (Nat.le_succ _)
  · rename_i hne hone
    have hpos : positive B (clauses.map fun clause => den clause.2) =
        allOf (clauses.map fun clause => den clause.2) := by
      cases clauses with
      | nil => exact absurd rfl hne
      | cons clause clauses => rfl
    refine (required_matchers_yields h hq).bind fun result hresult => ?_
    cases result with
    | none =>
        obtain ⟨R, hR, hempty⟩ := hresult
        exact .pure ⟨hne, hpos.trans (allOf_eq_empty hR hempty)⟩
    | some ms =>
        obtain ⟨m, hnew, hat⟩ := at_conjunction hresult
        refine (Yields.lift (P := (· = m)) hnew rfl).bind fun m' hm' => .pure ?_
        rw [hm']
        exact hpos ▸ hat

theorem at_should_matcher (h : List.Forall₂ (At depth) Rs ms) (hne : ms ≠ []) :
    At (depth + 1) (anyOf Rs) (should_matcher depth ms) := by
  rw [should_matcher.eq_def]
  split
  · rename_i m
    cases h with
    | @cons R _ _ _ hm hnil =>
        cases hnil
        have hone : anyOf [R] = R := by simp [anyOf]
        rw [hone]
        exact hm.mono (Nat.le_succ _)
  · exact at_disjunction h

theorem exclude_yields {positive : Matcher} (hp : At (depth + 3) R positive)
    (hq : ClausesYield B den query_matcher depth clauses) :
    Yields B den (exclude query_matcher (depth + 1) positive clauses)
      (At (depth + 4) (R \ anyOf (clauses.map fun clause => den clause.2))) := by
  rw [exclude]
  split
  · rename_i hnil
    rw [List.isEmpty_iff] at hnil
    subst hnil
    refine .pure ?_
    rw [List.map_nil, anyOf, List.foldr_nil, Finset.sdiff_empty]
    exact hp.mono (Nat.le_succ _)
  · refine (live_matchers_yields hq).bind fun ms hms => ?_
    obtain ⟨Rs, hall, hany⟩ := hms
    rw [← hany]
    split
    · rename_i hnil
      rw [List.isEmpty_iff] at hnil
      subst hnil
      cases hall
      refine .pure ?_
      rw [anyOf, List.foldr_nil, Finset.sdiff_empty]
      exact hp.mono (Nat.le_succ _)
    · have hall' := hall.imp fun R m (hm : At (depth + 1) R m) => hm.mono (show _ ≤ depth + 3 by omega)
      obtain ⟨m, hnew, hat⟩ := at_conjunction_not hp hall'
      refine (Yields.lift (P := (· = m)) hnew rfl).bind fun m' hm' => .pure ?_
      rw [hm']
      exact hat

end Clauses

end Query

namespace Query

open Matcher

variable {L : Type} {B : Backend L} {docs : L → Finset ℕ} {den : Query L → Finset ℕ}

/-! ## A node -/

section Node

variable {query_matcher : Query L → Search Matcher} {depth m d : ℕ}
variable {clauses : List (Occur × Query L)} {cs : List (Occur × Finset ℕ)}

theorem mem_matches_of (h : m ≤ 1 ∨ of .should cs = []) :
    d ∈ matches_of B cs m ↔ d ∈ candidates B cs ∧
      (of .should cs = [] ∨ m = 0 ∨ d ∈ anyOf (of .should cs)) ∧ d ∉ anyOf (of .must_not cs) := by
  have hnot : (∀ R ∈ of .must_not cs, d ∉ R) ↔ d ∉ anyOf (of .must_not cs) := by
    rw [mem_anyOf]
    simp
  rw [matches_of, Finset.mem_filter, hnot]
  rcases h with h | h
  · rw [le_count_iff h]
  · simp only [h, true_or]

theorem matches_of_eq_empty (h : m ≤ 1 ∨ of .should cs = [])
    (hempty : candidates B cs = ∅ ∨
      (of .should cs ≠ [] ∧ m ≠ 0 ∧ anyOf (of .should cs) = ∅)) :
    matches_of B cs m = ∅ := by
  grind [mem_matches_of]

theorem matches_of_eq_sdiff {R : Finset ℕ} (h : m ≤ 1 ∨ of .should cs = [])
    (hR : ∀ d, d ∈ R ↔ d ∈ candidates B cs ∧
      (of .should cs = [] ∨ m = 0 ∨ d ∈ anyOf (of .should cs))) :
    matches_of B cs m = R \ anyOf (of .must_not cs) := by
  ext d
  rw [mem_matches_of h, Finset.mem_sdiff, hR, and_assoc]

theorem clausesYield_of (hq : ClausesYield B den query_matcher depth clauses) (occur : Occur) :
    ClausesYield B den query_matcher depth (clauses_by_occur clauses occur) :=
  fun clause hc => hq clause (List.mem_of_mem_filter hc)

theorem of_map_den (occur : Occur) : of occur (clauses.map fun clause => (clause.1, den clause.2)) =
    (clauses_by_occur clauses occur).map fun clause => den clause.2 := by
  induction clauses with
  | nil => rfl
  | cons clause clauses ih =>
      grind [of, clauses_by_occur]

/-- **A node's matcher is at the start of what the node denotes.** -/
theorem boolean_matcher_yields (h : Keyed B den)
    (hq : ClausesYield B den query_matcher depth clauses)
    (hcount : m ≤ 1 ∨ clauses_by_occur clauses .should = []) :
    Yields B den (boolean_matcher B query_matcher (depth + 1) clauses m)
      (At (depth + 4)
        (matches_of B (clauses.map fun clause => (clause.1, den clause.2)) m)) := by
  set cs := clauses.map fun clause => (clause.1, den clause.2) with hcs
  have hempty : matches_of B cs m = ∅ → At (depth + 4) (matches_of B cs m) .empty := fun he => by
    rw [he]
    exact at_empty
  have hshould : (clauses_by_occur clauses .should).map (fun c => den c.2) =
      of .should cs := (of_map_den _).symm
  have hnot : (clauses_by_occur clauses .must_not).map (fun c => den c.2) =
      of .must_not cs := (of_map_den _).symm
  have hreq : (clauses_by_occur clauses .must ++ clauses_by_occur clauses .filter).map
      (fun c => den c.2) = required cs := by
    rw [List.map_append, ← of_map_den, ← of_map_den]
    rfl
  have hnil : ∀ occur, clauses_by_occur clauses occur = [] ↔ of occur cs = [] := fun occur => by
    rw [hcs, of_map_den, List.map_eq_nil_iff]
  have hcount' : m ≤ 1 ∨ of .should cs = [] := hcount.imp_right (hnil .should).1
  have hreqnil : clauses_by_occur clauses .must ++ clauses_by_occur clauses .filter = [] ↔
      required cs = [] := by rw [← hreq, List.map_eq_nil_iff]
  rw [boolean_matcher]
  split
  · rename_i hclauses
    rw [List.isEmpty_iff] at hclauses
    subst hclauses
    exact .pure (hempty rfl)
  simp only [ne_eq, hreqnil, hnil]
  split
  · rename_i hbranch
    have hcand : candidates B cs = positive B (required cs) := by
      by_cases hr : required cs = []
      · have hb := hbranch.resolve_left (not_not.2 hr)
        simp [candidates, hr, hb.1, hb.2, positive]
      · rw [candidates, if_pos hr, positive.eq_def]
        simp
    have hqreq : ClausesYield B den query_matcher depth
        (clauses_by_occur clauses .must ++ clauses_by_occur clauses .filter) := fun c hc =>
      (List.mem_append.1 hc).elim (clausesYield_of hq .must c) (clausesYield_of hq .filter c)
    refine (positive_matcher_yields h hqreq).bind fun result hresult => ?_
    cases result with
    | none =>
        refine .pure (hempty (matches_of_eq_empty hcount' (Or.inl ?_)))
        grind
    | some p =>
        have hp : At (depth + 2) (candidates B cs) p := by grind
        dsimp only
        split
        · rename_i hboth
          have hm : m ≠ 0 := by omega
          refine (live_matchers_yields (clausesYield_of hq .should)).bind fun ms hms => ?_
          obtain ⟨Rs, hall, hany⟩ := hms
          rw [hshould] at hany
          split
          · rename_i hne
            have hs := at_should_matcher hall hne
            obtain ⟨both, hnew, hat⟩ := at_conjunction (.cons hp (.cons hs .nil))
            refine (Yields.lift (P := (· = both)) hnew rfl).bind fun both' hboth' => ?_
            have hex := exclude_yields (hboth' ▸ hat) (clausesYield_of hq .must_not)
            grind [matches_of_eq_sdiff, mem_allOf]
          · rename_i hnone
            obtain rfl := not_not.1 hnone
            cases hall
            split
            · exact .pure (hempty (matches_of_eq_empty hcount' (Or.inr ⟨hboth.2, hm, hany.symm⟩)))
            grind
        · rename_i hnone
          have hex := exclude_yields (hp.mono (Nat.le_succ _)) (clausesYield_of hq .must_not)
          grind [matches_of_eq_sdiff]
  · rename_i hbranch
    rw [not_or, not_not] at hbranch
    obtain ⟨hr, hbranch⟩ := hbranch
    split
    · rename_i hs
      have hcand : candidates B cs = anyOf (of .should cs) := by
        simp [candidates, hr, hs]
      refine (live_matchers_yields (clausesYield_of hq .should)).bind fun ms hms => ?_
      obtain ⟨Rs, hall, hany⟩ := hms
      rw [hshould] at hany
      split
      · rename_i hnone
        rw [List.isEmpty_iff] at hnone
        subst hnone
        cases hall
        exact .pure (hempty (matches_of_eq_empty hcount' (Or.inl (hcand.trans hany.symm))))
      · rename_i hne
        have hs' := at_should_matcher hall (by simpa using hne)
        have hex := exclude_yields (hs'.mono (Nat.le_succ _)) (clausesYield_of hq .must_not)
        grind [matches_of_eq_sdiff]
    · rename_i hs
      have hn : of .must_not cs = [] := by grind
      refine .pure (hempty (matches_of_eq_empty hcount' (Or.inl ?_)))
      simp [candidates, hr, hs, hn]

end Node

/-! ## The query -/

theorem clause_docs_eq_map (clauses : List (Occur × Query L)) : clause_docs B docs clauses =
    clauses.map fun clause => (clause.1, denote B docs clause.2) := by
  induction clauses with
  | nil => rfl
  | cons clause clauses ih =>
      rw [clause_docs, ih, List.map_cons]

/-- **The matcher of a query is at the start of what the query denotes.** -/
theorem matcher_yields (h : Sound B docs) : ∀ (n : ℕ) (query : Query L), levels query ≤ n →
    Counted query →
      Yields B (denote B docs) (matcher B n query) (At (B.depth n) (denote B docs query)) := by
  intro n
  induction n with
  | zero =>
      intro query hlevels _
      cases query with
      | leaf l =>
          exact .pure ((h.matcher l).mono (by simp only [Backend.depth]; omega))
      | boolean clauses m => simp [levels] at hlevels
  | succ n ih =>
      intro query hlevels hcounted
      cases query with
      | leaf l =>
          exact .pure ((h.matcher l).mono (by simp only [Backend.depth]; omega))
      | boolean clauses m =>
          rw [levels] at hlevels
          rw [matcher, denote_boolean]
          have hdepth : B.depth n = B.leaf_depth + 3 * n + 1 := by rw [Backend.depth]; omega
          have hdepth' : B.depth (n + 1) = B.leaf_depth + 3 * n + 4 := by
            rw [Backend.depth]
            omega
          rw [hdepth, hdepth']
          rw [clause_docs_eq_map]
          refine boolean_matcher_yields h.keyed (fun clause hc => ?_) hcounted.1
          rw [← hdepth]
          have hle := levels_le clauses hc
          exact ih clause.2 (by omega) (counted_of_mem hcounted.2 hc)

/-- Searching with the query enumerates `list`: from every sound cache, for
every bound on the levels, its matcher is built and drains to `list`. -/
def Enumerates (B : Backend L) (docs : L → Finset ℕ) (query : Query L) (list : List ℕ) : Prop :=
  ∀ n cache, levels query ≤ n → CacheSound B docs cache → ∃ m cache',
    matcher B n query cache = .ok (m, cache') ∧ CacheSound B docs cache' ∧
    drain_matcher (Matcher.ops (B.depth n)) (2 ^ 64) m = some list

theorem enumerates_denote (h : Sound B docs) {query : Query L} (hc : Counted query) :
    Enumerates B docs query ((denote B docs query).sort (· ≤ ·)) := by
  intro n cache hlevels hcache
  obtain ⟨m, cache', hrun, hat, hcache'⟩ := (matcher_yields h n query hlevels hc).run hcache
  exact ⟨m, cache', hrun, hcache', hat.drain⟩

/-! ## Rewriting -/

theorem rewrite_clauses_cons {occur : Occur} {query : Query L} {clauses : List (Occur × Query L)} :
    (rewrite_clauses B ((occur, query) :: clauses)).2 =
      (occur, if occur = .filter then query else (rewrite B query).getD query) ::
        (rewrite_clauses B clauses).2 := by
  cases occur <;> cases hq : rewrite B query <;> simp [rewrite_clauses, hq]

mutual

/-- **Rewriting keeps the documents**, and asks for no more matches. -/
theorem rewrite_spec (h : Sound B docs) : ∀ query lowered : Query L, Counted query →
    rewrite B query = some lowered →
      Counted lowered ∧ denote B docs lowered = denote B docs query
  | leaf l, lowered, _, hlow => by
      rw [denote]
      exact h.rewrite l lowered hlow
  | boolean clauses m, lowered, hc, hlow => by
      rw [rewrite] at hlow
      obtain ⟨hdocs, hcounted⟩ := rewrite_clauses_spec h clauses hc.2
      simp only at hlow
      split at hlow
      · cases hlow
        rw [denote_boolean, denote_boolean, hdocs, Counted]
        refine ⟨⟨hc.1.imp_right fun hs => ?_, hcounted⟩, rfl⟩
        have hof : of .should (clause_docs B docs clauses) = [] := of_eq_nil_iff.2 hs
        rw [← hdocs] at hof
        exact of_eq_nil_iff.1 hof
      · cases hlow

theorem rewrite_clauses_spec (h : Sound B docs) : ∀ clauses : List (Occur × Query L),
    ClausesCounted clauses →
      clause_docs B docs (rewrite_clauses B clauses).2 = clause_docs B docs clauses ∧
        ClausesCounted (rewrite_clauses B clauses).2
  | [], _ => ⟨rfl, trivial⟩
  | (occur, query) :: clauses, hc => by
      obtain ⟨hdocs, hcounted⟩ := rewrite_clauses_spec h clauses hc.2
      have hone : ∀ query', query' = (if occur = .filter then query
          else (rewrite B query).getD query) →
          Counted query' ∧ denote B docs query' = denote B docs query := by
        intro query' hq
        subst hq
        split
        · exact ⟨hc.1, rfl⟩
        · cases hlow : rewrite B query with
          | none => exact ⟨hc.1, rfl⟩
          | some lowered => exact rewrite_spec h query lowered hc.1 hlow
      grind [rewrite_clauses_cons, clause_docs, ClausesCounted]

end

/-- Each leaf matches the document of its number, and three documents are live. -/
def sample : Backend (Fin 8) where
  matcher l := .precomputed (PreComputedMatcher.new [l])
  leaf_depth := 1
  rewrite _ := none
  cache_key l := some ['t', Nat.digitChar l]
  live_doc_ids := [0, 1, 2]
  has_cache := true
  unprintable _ := false

/-- The documents of the leaves. -/
def sampleDocs (l : Fin 8) : Finset ℕ := {l.val}

theorem sample_sound : Sound sample sampleDocs where
  matcher l := at_precomputed (by simp [END]; omega)
  live := by simp [sample, END]
  rewrite := fun _ _ h => by cases h
  key := by
    intro l l' key h h'
    have hc : Nat.digitChar l = Nat.digitChar l' := by
      simpa [sample] using (h.trans h'.symm)
    rw [Fin.ext (digitChar_injective l (by omega) l' (by omega) hc)]
  tag := by
    intro l key h
    cases h
    simp

theorem matcher_minimum {m n : ℕ} {clauses : List (Occur × Query L)} (hm : 0 < m) :
    matcher B (n + 1) (boolean clauses m) = matcher B (n + 1) (boolean clauses 1) := by
  simp only [matcher, boolean_matcher, hm, Nat.one_pos]

end Query

end Laurus
