import Laurus.Lexical.Model.AutomatonTerms
import Mathlib.Data.List.Sort

/-!
# What the terms of a regular expression lose

An enumeration looks among the terms from the leading text of the pattern on, and stops
at the first that neither matches nor starts with it (`yields_iff_walk`). The leading
text is read off the pattern (`extract_prefix_eq`), whether or not every match starts
with it: a quantifier or an alternative after it makes it optional. So the terms yielded
are those that match, or the first so many of them, exactly when none of these is outside
(`yields_matching_iff`).
-/

namespace Laurus

namespace AutomatonTermsEnum

/-- The text of a pattern after its `^`, up to the first special character that no
backslash escapes, without the backslashes. -/
def leading_text : List Char → List Char
  | [] => []
  | '\\' :: [] => []
  | '\\' :: c :: chars => c :: leading_text chars
  | c :: chars => if RegexAutomaton.is_special c then [] else c :: leading_text chars

/-- The leading text of a pattern that starts with `^`, where there is some. -/
def anchored_text (pattern : String) : Option String :=
  if pattern.toList.head? = some '^' ∧ leading_text pattern.toList.tail ≠ [] then
    some (String.ofList (leading_text pattern.toList.tail))
  else none

/-- A term is out of reach of a search for terms with a leading text: it is less, or
comes after one that has another and does not match. -/
def OutOfReach (regex : Regex) (text : Option String) (terms : List TermStats)
    (t : TermStats) : Prop :=
  ∃ lead, text = some lead ∧ (t.term < lead ∨ ∃ u ∈ terms, lead ≤ u.term ∧ u.term < t.term ∧
    regex u.term = false ∧ starts_with u.term lead = false)

/-- All of some terms, or the first so many. -/
def first_of (max_matches : Option ℕ) (terms : List TermStats) : List TermStats :=
  (max_matches.map fun max => terms.take max).getD terms

/-- The terms that match, or the first so many. -/
def matching (regex : Regex) (max_matches : Option ℕ) (terms : List TermStats) :
    List TermStats := first_of max_matches (terms.filter fun t => regex t.term)

/-- An enumeration over a dictionary. -/
def enum_over (terms : List TermStats) (regex : Regex) (pattern : String) (max_matches : Option ℕ) :
    AutomatonTermsEnum :=
  { new (SortedTermsEnum.iterator terms) (RegexAutomaton.from_regex regex pattern) with
    max_matches }

variable {regex : Regex} {pattern : String} {max_matches : Option ℕ}
  {terms rest out : List TermStats} {automaton : RegexAutomaton}

/-! ## The leading text -/

theorem prefix_loop_eq (chars text : List Char) :
    RegexAutomaton.prefix_loop text false chars = text ++ leading_text chars := by
  induction chars using leading_text.induct generalizing text with
  | case1 => rw [RegexAutomaton.prefix_loop, leading_text, List.append_nil]
  | case2 =>
      rw [RegexAutomaton.prefix_loop, if_pos rfl, RegexAutomaton.prefix_loop, leading_text,
        List.append_nil]
  | case3 c chars ih =>
      rw [RegexAutomaton.prefix_loop, if_pos rfl, RegexAutomaton.prefix_loop, ih, leading_text,
        List.append_assoc, List.singleton_append]
  | case4 c chars hnil hcons hspecial =>
      have hne : c ≠ '\\' := by
        rintro rfl
        rcases chars with _ | ⟨d, chars⟩
        · exact hnil rfl rfl
        · exact hcons d chars rfl rfl
      rw [RegexAutomaton.prefix_loop, if_neg hne, if_pos hspecial, leading_text, if_pos hspecial,
        List.append_nil]
      · exact hnil
      · exact hcons
  | case5 c chars hnil hcons hplain ih =>
      have hne : c ≠ '\\' := by
        rintro rfl
        rcases chars with _ | ⟨d, chars⟩
        · exact hnil rfl rfl
        · exact hcons d chars rfl rfl
      rw [RegexAutomaton.prefix_loop, if_neg hne, if_neg hplain, ih, leading_text,
        if_neg hplain, List.append_assoc, List.singleton_append]
      · exact hnil
      · exact hcons

/-- **What is read off a pattern is its leading text.** -/
theorem extract_prefix_eq (pattern : String) :
    RegexAutomaton.extract_prefix pattern = anchored_text pattern := by
  rw [ RegexAutomaton.extract_prefix, anchored_text]
  rcases pattern.toList with _ | ⟨c, chars⟩
  · rfl
  · by_cases hc : c = '^'
    · subst hc
      simp only [prefix_loop_eq, List.nil_append, List.head?_cons, List.tail_cons, true_and]
      simp
    grind

/-! ## The loop -/

/-- The terms that repeated calls read on from some find. -/
def walk (automaton : RegexAutomaton) : List TermStats → List TermStats
  | [] => []
  | t :: rest =>
    if automaton.regex t.term then t :: walk automaton rest
    else if automaton.initial_seek_term.any fun text => !starts_with t.term text then []
    else walk automaton rest

/-- Where a call reads on. -/
def reads_on (e : AutomatonTermsEnum) : List TermStats :=
  match e.automaton.initial_seek_term with
  | some seek_term => if e.matches_found = 0 then (e.inner.seek seek_term).2.rest else e.inner.rest
  | none => e.inner.rest

theorem next_eq (e : AutomatonTermsEnum) : e.next =
    if e.max_matches.any fun max => max ≤ e.matches_found then (none, e)
    else
      ((next_match e.automaton e.reads_on).1,
        { e with
          inner := { e.inner with rest := (next_match e.automaton e.reads_on).2 }
          matches_found :=
            if (next_match e.automaton e.reads_on).1.isSome then e.matches_found + 1
            else e.matches_found }) := by
  rw [next, reads_on]
  rcases e.automaton.initial_seek_term with _ | seek_term
  · rfl
  · by_cases hfirst : e.matches_found = 0
    · simp only [hfirst, if_true]
      rfl
    · simp only [hfirst, if_false]

theorem walk_eq (automaton : RegexAutomaton) (rest : List TermStats) :
    walk automaton rest = (next_match automaton rest).1.elim []
      fun t => t :: walk automaton (next_match automaton rest).2 := by
  induction rest with
  | nil => rfl
  | cons t rest ih =>
      rw [walk, next_match]
      grind

theorem first_of_cons (max found : ℕ) (t : TermStats) (rest : List TermStats)
    (h : ¬ max ≤ found) : first_of (some (max - found)) (t :: rest) =
      t :: first_of (some (max - (found + 1))) rest := by
  have hsub : max - found = max - (found + 1) + 1 := by omega
  simp only [first_of, Option.map_some, Option.getD_some]
  rw [hsub, List.take_succ_cons]

/-- **A loop over `next` yields the walk**, or the first of it that are still allowed. -/
theorem yields_walk (e : AutomatonTermsEnum) : Yields e
    (first_of (e.max_matches.map fun max => max - e.matches_found)
      (walk e.automaton e.reads_on)) := by
  induction hlength : (walk e.automaton e.reads_on).length using Nat.strong_induction_on
    generalizing e with
  | _ length ih =>
      have hnext := e.next_eq
      by_cases hmax : (e.max_matches.any fun max => max ≤ e.matches_found) = true
      · rw [if_pos hmax] at hnext
        rcases hsome : e.max_matches with _ | max
        · grind
        · rw [hsome] at hmax
          rw [Option.map_some, Nat.sub_eq_zero_of_le (of_decide_eq_true hmax)]
          exact .done (congrArg Prod.fst hnext)
      · rw [if_neg hmax] at hnext
        have hwalk := walk_eq e.automaton e.reads_on
        rcases hfound : next_match e.automaton e.reads_on with ⟨_ | t, rest'⟩
        · rw [hfound, Option.elim_none] at hwalk
          rw [hfound] at hnext
          rw [hwalk]
          have hnil : first_of (e.max_matches.map fun max => max - e.matches_found) [] = [] := by
            rcases e.max_matches with _ | max
            · rfl
            · exact List.take_nil
          rw [hnil]
          exact .done (congrArg Prod.fst hnext)
        · rw [hfound, Option.elim_some] at hwalk
          rw [hfound] at hnext
          have hrest : e.next.2.reads_on = rest' := by
            rw [hnext, reads_on]
            grind
          have hautomaton : e.next.2.automaton = e.automaton := by rw [hnext]
          have hmaxes : e.next.2.max_matches = e.max_matches := by rw [hnext]
          have hcount : e.next.2.matches_found = e.matches_found + 1 := by rw [hnext]; rfl
          have hyields := ih (walk e.automaton rest').length (by
            grind) e.next.2 (by rw [hrest, hautomaton])
          rw [hrest, hautomaton, hmaxes, hcount] at hyields
          have hcons : first_of (e.max_matches.map fun max => max - e.matches_found)
              (walk e.automaton e.reads_on) = t ::
                first_of (e.max_matches.map fun max => max - (e.matches_found + 1))
                  (walk e.automaton rest') := by
            rw [hwalk]
            rcases hmaxes' : e.max_matches with _ | max
            · rfl
            · rw [hmaxes'] at hmax
              exact first_of_cons max e.matches_found t _ fun hle => hmax (decide_eq_true hle)
          rw [hcons]
          exact .more (congrArg Prod.fst hnext) hyields

theorem Yields.unique {e : AutomatonTermsEnum} {out out' : List TermStats} (h : Yields e out)
    (h' : Yields e out') : out = out' := by
  induction h generalizing out' with
  | done hnone =>
      rcases h' with _ | ⟨hsome, _⟩
      · rfl
      grind
  | more hsome _ ih =>
      rcases h' with hnone | ⟨hsome', hrest'⟩
      · grind
      grind

theorem yields_iff_walk (e : AutomatonTermsEnum) (out : List TermStats) : Yields e out ↔
    out = first_of (e.max_matches.map fun max => max - e.matches_found)
      (walk e.automaton e.reads_on) :=
  ⟨fun h => h.unique e.yields_walk, fun h => h ▸ e.yields_walk⟩

/-! ## What is out of reach -/

/-- A stretch in the middle of a list has its first elements exactly when it holds them. -/
theorem take_eq_take_iff {left mid right : List TermStats} {k : ℕ}
    (hnodup : (left ++ (mid ++ right)).Nodup) :
    (left ++ (mid ++ right)).take k = mid.take k ↔
      ∀ t ∈ (left ++ (mid ++ right)).take k, t ∈ mid := by
  constructor
  · grind
  · intro hmem
    rcases k with _ | k
    · rfl
    rcases left with _ | ⟨a, left⟩
    · rcases right with _ | ⟨c, right⟩
      · rw [List.nil_append, List.append_nil]
      · -- the first element on the right is not reached
        have hle : k + 1 ≤ mid.length := by
          by_contra hgt
          have hget : (mid ++ c :: right)[mid.length]? = some c := by simp
          have hc : c ∈ (mid ++ c :: right).take (k + 1) :=
            List.mem_of_getElem? (i := mid.length)
              ((List.getElem?_take_of_lt (by omega)).trans hget)
          grind
        grind
    grind

variable {t : TermStats} {lead : String}

theorem mem_takeWhile_iff {p : TermStats → Bool} (hsorted : rest.Pairwise (·.term < ·.term)) : t ∈ rest.takeWhile p ↔
      t ∈ rest ∧ p t = true ∧ ∀ u ∈ rest, u.term < t.term → p u = true := by
  induction rest with
  | nil => simp
  | cons s rest ih =>
      obtain ⟨hless, hrest⟩ := List.pairwise_cons.1 hsorted
      by_cases hs : p s = true
      · grind [List.takeWhile_cons_of_pos]
      grind [List.takeWhile_cons_of_neg]

/-- The walk reads up to the first term that neither matches nor starts with the text. -/
theorem walk_eq_takeWhile (hseek : automaton.initial_seek_term = some lead)
    (rest : List TermStats) : walk automaton rest =
      (rest.takeWhile fun t => automaton.regex t.term || starts_with t.term lead).filter
        fun t => automaton.regex t.term := by
  induction rest with
  | nil => rfl
  | cons t rest ih =>
      rw [walk, hseek, Option.any_some]
      by_cases hregex : automaton.regex t.term = true
      · rw [if_pos hregex, List.takeWhile_cons_of_pos (by rw [hregex, Bool.true_or]),
          List.filter_cons, if_pos hregex, ih]
      · rw [if_neg hregex]
        by_cases hstarts : starts_with t.term lead = true
        · rw [hstarts, List.takeWhile_cons_of_pos (by rw [hstarts, Bool.or_true]),
            List.filter_cons, if_neg hregex]
          exact ih
        · rw [Bool.not_eq_true] at hregex hstarts
          grind [List.takeWhile_cons_of_neg]

theorem walk_eq_filter (hseek : automaton.initial_seek_term = none) (rest : List TermStats) :
    walk automaton rest = rest.filter fun t => automaton.regex t.term := by
  induction rest with
  | nil => rfl
  | cons t rest ih =>
      rw [walk, hseek]
      grind

theorem over_reads_on (terms : List TermStats) (regex : Regex) (pattern : String)
    (max_matches : Option ℕ) : (enum_over terms regex pattern max_matches).reads_on =
      ((anchored_text pattern).map fun lead => terms.dropWhile fun t => t.term < lead).getD
        terms := by
  have hseek : (enum_over terms regex pattern max_matches).automaton.initial_seek_term =
      anchored_text pattern := extract_prefix_eq pattern
  rw [reads_on, hseek]
  rcases anchored_text pattern with _ | lead
  · rfl
  · rfl

theorem mem_dropWhile_iff (hsorted : terms.Pairwise (·.term < ·.term)) :
    (t ∈ terms.dropWhile fun u => u.term < lead) ↔ t ∈ terms ∧ lead ≤ t.term := by
  have hnodup : ((terms.takeWhile fun u => u.term < lead) ++
      terms.dropWhile fun u => u.term < lead).Nodup := by
    rw [List.takeWhile_append_dropWhile]
    exact hsorted.imp fun hlt heq => absurd (heq ▸ hlt) (lt_irrefl _)
  constructor
  · grind [List.dropWhile_sublist, mem_takeWhile_iff]
  · rintro ⟨ht, hle⟩
    rw [← List.takeWhile_append_dropWhile (p := fun u : TermStats => u.term < lead) (l := terms),
      List.mem_append] at ht
    refine ht.resolve_left fun hfront => ?_
    exact absurd (of_decide_eq_true ((mem_takeWhile_iff hsorted).1 hfront).2.1) (not_lt_of_ge hle)

/-- A term that matches is among those a walk reads unless it is out of reach. -/
theorem mem_stretch_iff (hsorted : terms.Pairwise (·.term < ·.term)) (ht : t ∈ terms) (hregex : regex t.term = true) :
    (t ∈ (terms.dropWhile fun u => u.term < lead).takeWhile
      fun u => regex u.term || starts_with u.term lead) ↔
      ¬ OutOfReach regex (some lead) terms t := by
  have hrest : (terms.dropWhile fun u => u.term < lead).Pairwise (·.term < ·.term) :=
    hsorted.sublist (List.dropWhile_sublist _)
  rw [mem_takeWhile_iff hrest, mem_dropWhile_iff hsorted]
  constructor
  · rintro ⟨⟨_, hle⟩, _, hall⟩ ⟨lead', hlead, hout⟩
    grind [mem_dropWhile_iff]
  · intro hin
    have hle : lead ≤ t.term := le_of_not_gt fun hlt => hin ⟨lead, rfl, Or.inl hlt⟩
    refine ⟨⟨ht, hle⟩, by rw [hregex, Bool.true_or], fun u hu hlt => ?_⟩
    obtain ⟨hmem, hge⟩ := (mem_dropWhile_iff hsorted).1 hu
    by_contra hbad
    rw [Bool.not_eq_true, Bool.or_eq_false_iff] at hbad
    exact hin ⟨lead, rfl, Or.inr ⟨u, hmem, hge, hlt, hbad⟩⟩

theorem first_of_eq_take (max_matches : Option ℕ) {n : ℕ} (h : rest.length ≤ n) :
    first_of max_matches rest = rest.take (max_matches.getD n) := by
  rcases max_matches with _ | max
  · exact (List.take_of_length_le h).symm
  · rfl

/-- What a walk reads of the terms that match is all of them, or the first so many of all,
unless one of these is out of reach. -/
theorem first_of_stretch_iff (hsorted : terms.Pairwise (·.term < ·.term)) :
    first_of max_matches (((terms.dropWhile fun u => u.term < lead).takeWhile
      fun u => regex u.term || starts_with u.term lead).filter fun t => regex t.term) =
        matching regex max_matches terms ↔
      ∀ t ∈ matching regex max_matches terms, ¬ OutOfReach regex (some lead) terms t := by
  obtain ⟨front, hfront⟩ : ∃ front, front = terms.takeWhile fun u => u.term < lead := ⟨_, rfl⟩
  obtain ⟨after, hafter⟩ : ∃ after, after = terms.dropWhile fun u => u.term < lead := ⟨_, rfl⟩
  obtain ⟨mid, hmid⟩ : ∃ mid, mid = after.takeWhile
    fun u => regex u.term || starts_with u.term lead := ⟨_, rfl⟩
  obtain ⟨right, hright⟩ : ∃ right, right = after.dropWhile
    fun u => regex u.term || starts_with u.term lead := ⟨_, rfl⟩
  have hterms : terms = front ++ (mid ++ right) := by
    grind [List.takeWhile_append_dropWhile]
  have hfilter : (terms.filter fun t => regex t.term) =
      front.filter (fun t => regex t.term) ++ (mid.filter (fun t => regex t.term) ++
        right.filter fun t => regex t.term) := by grind
  have hnodup : (terms.filter fun t => regex t.term).Nodup :=
    List.Nodup.filter _ (hsorted.imp fun hlt heq => absurd (heq ▸ hlt) (lt_irrefl _))
  have hlength : (mid.filter fun t => regex t.term).length ≤ terms.length := by grind
  rw [← hafter, ← hmid, matching, first_of_eq_take max_matches hlength,
    first_of_eq_take max_matches (List.length_filter_le _ terms), hfilter]
  rw [hfilter] at hnodup
  refine Iff.trans ⟨Eq.symm, Eq.symm⟩ ((take_eq_take_iff hnodup).trans ?_)
  grind [mem_stretch_iff]

/-- **The terms that match are yielded, in order and each once, or the first so many of
them, exactly when none of these is out of reach** of the pattern's leading text. -/
theorem yields_matching_iff (hsorted : terms.Pairwise (·.term < ·.term)) :
    (∀ out, Yields (enum_over terms regex pattern max_matches) out ↔
      out = matching regex max_matches terms) ↔
    ∀ t ∈ matching regex max_matches terms,
      ¬ OutOfReach regex (anchored_text pattern) terms t := by
  -- the loop yields one list, so the question is which
  have hone : (∀ out, Yields (enum_over terms regex pattern max_matches) out ↔
      out = matching regex max_matches terms) ↔
      first_of max_matches (walk (RegexAutomaton.from_regex regex pattern)
        (enum_over terms regex pattern max_matches).reads_on) =
          matching regex max_matches terms := by
    have hyields := yields_iff_walk (enum_over terms regex pattern max_matches)
    have hmax : (max_matches.map fun max => max - 0) = max_matches := by
      rcases max_matches with _ | max
      · rfl
      · rfl
    change ∀ out, _ ↔ out = first_of (max_matches.map fun max => max - 0) _ at hyields
    rw [hmax] at hyields
    constructor
    · intro hall
      exact ((hyields _).1 ((hall _).2 rfl)).symm
    · intro heq out
      rw [hyields out]
      exact ⟨fun h => h.trans heq, fun h => h.trans heq.symm⟩
  rw [hone, over_reads_on]
  rcases htext : anchored_text pattern with _ | lead
  · have hseek : (RegexAutomaton.from_regex regex pattern).initial_seek_term = none :=
      (extract_prefix_eq pattern).trans htext
    rw [walk_eq_filter hseek]
    refine ⟨fun _ t _ hout => ?_, fun _ => rfl⟩
    obtain ⟨lead, hlead, _⟩ := hout
    exact absurd hlead.symm (Option.some_ne_none lead)
  · have hseek : (RegexAutomaton.from_regex regex pattern).initial_seek_term = some lead :=
      (extract_prefix_eq pattern).trans htext
    rw [walk_eq_takeWhile hseek]
    exact first_of_stretch_iff hsorted

/-- `^colou?r`, as the crate reads it. -/
def colour (term : String) : Bool := starts_with term "color" || starts_with term "colour"

theorem yields_matching_iff_colour :
    ([⟨"color", 1, 1⟩, ⟨"colour", 1, 1⟩] : List TermStats).Pairwise (·.term < ·.term) ∧
    ((∀ out, Yields (enum_over [⟨"color", 1, 1⟩, ⟨"colour", 1, 1⟩] colour "^colou?r" none) out ↔
      out = matching colour none [⟨"color", 1, 1⟩, ⟨"colour", 1, 1⟩]) ↔
    ∀ t ∈ matching colour none [⟨"color", 1, 1⟩, ⟨"colour", 1, 1⟩],
      ¬ OutOfReach colour (anchored_text "^colou?r")
        [⟨"color", 1, 1⟩, ⟨"colour", 1, 1⟩] t) :=
  ⟨by decide, yields_matching_iff (by decide)⟩

theorem yields_matching_iff_counterexample : ¬ ∀ (terms : List TermStats) (out : List TermStats),
    terms.Pairwise (·.term < ·.term) →
    (Yields (enum_over terms colour "^colou?r" none) out ↔ out = matching colour none terms) := by
  intro h
  have hlost := (h [⟨"color", 1, 1⟩] [] (List.pairwise_singleton _ _)).1 (.done (by decide))
  exact absurd hlost (by decide)

end AutomatonTermsEnum

end Laurus
