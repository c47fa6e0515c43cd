import Laurus.Lexical.Model.QueryGrammar
import Mathlib.Data.List.DropRight

/-!
# Reading a field and its value

What a rule does is told by the head of its input (`lit_of_head`, `lit_any_case_of_head`). A
field and a quotation mark are read as a clause of that field with a phrase up to the next
mark (`clause_phrase`), and what a phrase reads after its closing mark holds no mark
(`takes_phrase_end`).
-/

namespace Laurus

namespace Grammar

variable {classes : UnicodeClasses} {w : String} {c : Char} {cs s rest front : List Char}

/-! ## Literals -/

theorem run_skip (s : List Char) :
    skip.run s = some (s.takeWhile is_whitespace, s.dropWhile is_whitespace) := rfl

theorem skip_of_head (h : ∀ c ∈ s.head?, is_whitespace c = false) :
    skip.run s = some ([], s) := by
  rw [run_skip]
  rcases s with _ | ⟨c, s⟩
  · rfl
  grind [List.takeWhile_cons_of_neg, List.dropWhile_cons_of_neg]

theorem lit_of_head (hw : w.toList = c :: cs) (hs : s.head? ≠ some c) : (lit w).run s = none := by
  change Peg.word_run _ w.toList s = none
  rw [hw]
  rcases s with _ | ⟨d, s⟩
  · rfl
  · rw [Peg.word_run, if_neg]
    grind

theorem lit_any_case_of_head (hw : w.toList = c :: cs)
    (hs : ∀ d ∈ s.head?, d.toLower ≠ c.toLower) : (lit_any_case w).run s = none := by
  change Peg.word_run _ w.toList s = none
  rw [hw]
  rcases s with _ | ⟨d, s⟩
  · rfl
  · rw [Peg.word_run, if_neg]
    grind

theorem lit_char (hw : w.toList = [c]) : (lit w).run (c :: s) = some ((), s) := by
  change Peg.word_run _ w.toList (c :: s) = _
  rw [hw, Peg.word_run, if_pos (decide_eq_true rfl)]
  rfl

variable {α : Type} {rule : Rule α} {name more : List Char} {nested : Rule (List QueryItem)}
  {sign : ClauseSign} {ok : Char → Prop} {items : List QueryItem} {text mid : List Char}
  {first : QueryItem}

theorem as_str_of_some {a : α}
    (h : rule.run (front ++ rest) = some (a, rest)) :
    (as_str rule).run (front ++ rest) = some (String.ofList front, rest) :=
  Peg.bind_of_some (Peg.text_of_some h)

theorem as_str_of_none (h : rule.run s = none) :
    (as_str rule).run s = none :=
  Peg.bind_of_none (Peg.text_of_none h)

/-! ## A field -/

/-- A name that the rule `field` accepts. -/
def IsField (name : List Char) : Prop := field.run name = some (String.ofList name, [])

theorem exists_cons_of_isField (h : IsField name) :
    ∃ c cs, name = c :: cs ∧ starts_field c = true ∧ ∀ d ∈ cs, in_field d = true := by
  obtain ⟨chars, _, htext, hpure⟩ := Peg.bind_eq_some.1 h
  obtain ⟨-, rfl⟩ := Prod.mk.inj (Option.some.inj hpure)
  obtain ⟨⟨more, left⟩, hrun, heq⟩ := Option.map_eq_some_iff.1 htext
  obtain ⟨-, rfl⟩ := Prod.mk.inj heq
  obtain ⟨first, mid, hfirst, hspan⟩ := Peg.bind_eq_some.1 hrun
  rcases name with _ | ⟨c, cs⟩
  · exact absurd hfirst.symm (Option.some_ne_none _)
  · rw [Peg.run_item_cons] at hfirst
    split_ifs at hfirst with hc
    obtain ⟨-, rfl⟩ := Prod.mk.inj (Option.some.inj hfirst)
    obtain ⟨-, hdrop⟩ := Prod.mk.inj (Option.some.inj hspan)
    exact ⟨c, cs, rfl, hc, List.dropWhile_eq_nil_iff.1 hdrop⟩

/-- **A field is read up to its colon.** -/
theorem field_run (h : IsField name) :
    field.run (name ++ ':' :: s) = some (String.ofList name, ':' :: s) := by
  obtain ⟨c, cs, rfl, hc, hcs⟩ := exists_cons_of_isField h
  refine as_str_of_some (a := cs) ?_
  have hitem : (Peg.item starts_field).run (c :: cs ++ ':' :: s) = some (c, cs ++ ':' :: s) := by
    rw [List.cons_append, Peg.run_item_cons, if_pos hc]
  refine (Peg.bind_of_some hitem).trans ?_
  have hcolon : in_field ':' = false := by decide
  change some ((cs ++ ':' :: s).takeWhile in_field, (cs ++ ':' :: s).dropWhile in_field) = _
  grind [List.takeWhile_append_of_pos, List.dropWhile_append_of_pos, List.takeWhile_cons_of_neg,
    List.dropWhile_cons_of_neg]

theorem head_of_isField {name : List Char} (h : IsField name) :
    ∃ c, (name ++ s).head? = some c ∧ starts_field c = true := by
  grind [exists_cons_of_isField]

theorem not_whitespace_of_starts {c : Char} (h : starts_field c = true) :
    is_whitespace c = false := by
  rw [Bool.eq_false_iff]
  intro hspace
  simp only [is_whitespace, decide_eq_true_eq] at hspace
  rcases hspace with rfl | rfl | rfl | rfl <;> exact absurd h (by decide)

theorem dropWhile_field (h : IsField name) :
    (name ++ more).dropWhile is_whitespace = name ++ more := by
  grind [exists_cons_of_isField, List.dropWhile_cons_of_neg, not_whitespace_of_starts]

/-! ## A clause of a field -/

theorem grouped_of_head
    (hs : s.head? ≠ some '(') : (grouped_query nested sign).run s = none :=
  Peg.bind_of_none (lit_of_head rfl hs)

theorem signed_of_head
    (hw : w.toList = [c]) (hs : s.head? ≠ some c) :
    (signed_clause classes nested w sign).run s = none :=
  Peg.bind_of_none (lit_of_head hw hs)

/-- **A field, a colon and a value are a clause** of the field. -/
theorem clause_of_field {v : ClauseValue}
    (h : IsField name) (hs : ∀ d ∈ s.head?, is_whitespace d = false)
    (hv : (field_value classes).run s = some (v, rest)) :
    (clause classes nested).run (name ++ ':' :: s) =
      some (.value .sub (some (String.ofList name)) v, rest) := by
  obtain ⟨d, hd, hstarts⟩ := @head_of_isField (':' :: s) name h
  have hne : ∀ e, starts_field e = false → (name ++ ':' :: s).head? ≠ some e := by grind
  have hfield : (field_query classes .sub).run (name ++ ':' :: s) =
      some (.value .sub (some (String.ofList name)) v, rest) := by
    refine (Peg.bind_of_some (field_run h)).trans ?_
    refine (Peg.bind_of_some (skip_of_head ?_)).trans ?_
    · rintro e ⟨⟩
      decide
    refine (Peg.bind_of_some (lit_char rfl)).trans ?_
    refine (Peg.bind_of_some (skip_of_head hs)).trans ?_
    exact Peg.bind_of_some hv
  refine (Peg.orElse_of_none (signed_of_head rfl (hne '+' (by decide)))).trans ?_
  refine (Peg.orElse_of_none (signed_of_head rfl (hne '-' (by decide)))).trans ?_
  refine (Peg.orElse_of_none (grouped_of_head (hne '(' (by decide)))).trans ?_
  exact Peg.orElse_of_some hfield

/-! ## Values by their head -/

theorem float_call_of_head {rule : GeoRule} {count : ℕ} (hw : w.toList = c :: cs)
    (hs : ∀ d ∈ s.head?, d.toLower ≠ c.toLower) : (float_call w rule count).run s = none :=
  Peg.bind_of_none (lit_any_case_of_head hw hs)

theorem field_value_of_head (hs : ∀ d ∈ s.head?, d.toLower ≠ 'g') :
    (field_value classes).run s =
      (range_query <|> phrase_query <|> fuzzy_term classes <|> wildcard_term classes <|>
        simple_term classes).run s := by
  have hgeo3d : geo3d_query.run s = none := by
    refine (Peg.orElse_of_none (float_call_of_head rfl hs)).trans ?_
    refine (Peg.orElse_of_none (float_call_of_head rfl hs)).trans ?_
    exact Peg.bind_of_none (lit_any_case_of_head rfl hs)
  have hgeo : geo_query.run s = none := by
    refine (Peg.orElse_of_none (float_call_of_head rfl hs)).trans ?_
    exact float_call_of_head rfl hs
  exact (Peg.orElse_of_none hgeo3d).trans (Peg.orElse_of_none hgeo)

theorem quoted_content_run (s : List Char) : quoted_content.run s =
    some (String.ofList (s.takeWhile fun c => c ≠ '"'), s.dropWhile fun c => c ≠ '"') := rfl

/-- What a phrase reads after its closing mark. -/
def phrase_end (content : String) : Rule ClauseValue := do
  let _ ← skip
  let proximity ← Peg.optional proximity
  let boost ← boosted
  return .phrase content proximity boost

/-- **A quoted phrase is read up to the next mark.** -/
theorem phrase_run {content : List Char}
    (hs : s.dropWhile is_whitespace = content ++ '"' :: more) (hcontent : '"' ∉ content) :
    phrase_query.run ('"' :: s) = (phrase_end (String.ofList content)).run more := by
  refine (Peg.bind_of_some (lit_char rfl)).trans ?_
  refine (Peg.bind_of_some (run_skip s)).trans ?_
  have hquoted : quoted_content.run (content ++ '"' :: more) =
      some (String.ofList content, '"' :: more) := by
    grind [quoted_content_run, List.takeWhile_append_of_pos, List.dropWhile_append_of_pos,
      List.takeWhile_cons_of_neg, List.dropWhile_cons_of_neg]
  dsimp only
  rw [hs]
  refine (Peg.bind_of_some hquoted).trans ?_
  refine (Peg.bind_of_some (skip_of_head ?_)).trans ?_
  · rintro e ⟨⟩
    decide
  exact Peg.bind_of_some (lit_char rfl)

theorem field_value_phrase {content : List Char}
    (hs : s.dropWhile is_whitespace = content ++ '"' :: more) (hcontent : '"' ∉ content)
    {v : ClauseValue} (hv : (phrase_end (String.ofList content)).run more = some (v, rest)) :
    (field_value classes).run ('"' :: s) = some (v, rest) := by
  rw [field_value_of_head (by rintro d ⟨⟩; decide)]
  have hmark : ∀ e, '"' ≠ e → ('"' :: s).head? ≠ some e := fun e he heq =>
    he (Option.some.inj heq)
  have hinclusive : range_inclusive.run ('"' :: s) = none :=
    Peg.bind_of_none (@lit_of_head "[" '[' [] _ rfl (hmark _ (by decide)))
  have hexclusive : range_exclusive.run ('"' :: s) = none :=
    Peg.bind_of_none (@lit_of_head "\x7b" '\x7b' [] _ rfl (hmark _ (by decide)))
  refine (Peg.orElse_of_none ((Peg.orElse_of_none hinclusive).trans hexclusive)).trans ?_
  exact Peg.orElse_of_some ((phrase_run hs hcontent).trans hv)

/-! ## After the mark that closes a phrase -/

theorem takes_skip (h : ∀ c, is_whitespace c = true → ok c) :
    Peg.Takes ok skip := Peg.takes_span h

theorem takes_lit (h : ∀ c ∈ w.toList, ok c) : Peg.Takes ok (lit w) :=
  Peg.takes_word fun c hc d hd => by grind

theorem takes_as_str (h : Peg.Takes ok rule) :
    Peg.Takes ok (as_str rule) := h.text.map

theorem ne_mark_of_whitespace {c : Char} (h : is_whitespace c = true) : c ≠ '"' := by
  rintro rfl
  exact absurd h (by decide)

theorem ne_mark_of_digit {c : Char} (h : c.isDigit = true) : c ≠ '"' := by
  rintro rfl
  exact absurd h (by decide)

theorem takes_number : Peg.Takes (· ≠ '"') number :=
  takes_as_str (Peg.takes_span_one fun _ => ne_mark_of_digit)

theorem takes_boosted : Peg.Takes (· ≠ '"') boosted := by
  have hvalue : Peg.Takes (· ≠ '"') boost_value := by
    refine takes_as_str (takes_number.bind fun _ => Peg.Takes.optional ?_)
    exact (takes_lit (by simp)).bind fun _ => takes_number
  refine (takes_skip fun _ => ne_mark_of_whitespace).bind fun _ => Peg.Takes.optional ?_
  exact (takes_lit (by simp)).bind fun _ =>
    (takes_skip fun _ => ne_mark_of_whitespace).bind fun _ => hvalue

/-- **The end of a phrase holds no mark.** -/
theorem takes_phrase_end (content : String) : Peg.Takes (· ≠ '"') (phrase_end content) := by
  refine (takes_skip fun _ => ne_mark_of_whitespace).bind fun _ => ?_
  refine Peg.Takes.bind (Peg.Takes.optional ?_) fun _ => takes_boosted.bind fun _ => Peg.takes_pure
  exact (takes_lit (by simp)).bind fun _ =>
    (takes_skip fun _ => ne_mark_of_whitespace).bind fun _ => takes_number

theorem exists_phrase_end (content : String) (s : List Char) :
    ∃ proximity boost rest,
      (phrase_end content).run s = some (.phrase content proximity boost, rest) := by
  obtain ⟨proximity, mid, hproximity⟩ := Peg.exists_optional proximity (s.dropWhile is_whitespace)
  obtain ⟨boost, rest, hboost⟩ := Peg.exists_optional boost (mid.dropWhile is_whitespace)
  have hboosted : boosted.run mid = some (boost, rest) :=
    (Peg.bind_of_some (run_skip mid)).trans hboost
  refine ⟨proximity, boost, rest, ?_⟩
  refine (Peg.bind_of_some (run_skip s)).trans ((Peg.bind_of_some hproximity).trans ?_)
  exact Peg.bind_of_some hboosted

/-! ## A list of clauses -/

/-- Whether an item is a clause. -/
def is_clause : QueryItem → Bool
  | .boolean_op _ => false
  | .value _ _ _ => true
  | .grouped _ _ _ => true

theorem sub_clause_is_clause
    {item : QueryItem} (h : (sub_clause classes nested sign).run s = some (item, rest)) :
    is_clause item = true := by
  rcases Peg.orElse_eq_some.1 h with h | ⟨_, h⟩
  · obtain ⟨_, _, _, h⟩ := Peg.bind_eq_some.1 h
    obtain ⟨_, _, _, h⟩ := Peg.bind_eq_some.1 h
    obtain ⟨_, _, _, h⟩ := Peg.bind_eq_some.1 h
    obtain ⟨_, _, _, h⟩ := Peg.bind_eq_some.1 h
    obtain ⟨_, _, _, h⟩ := Peg.bind_eq_some.1 h
    obtain ⟨_, _, _, h⟩ := Peg.bind_eq_some.1 h
    obtain ⟨rfl, -⟩ := Prod.mk.inj (Option.some.inj h)
    rfl
  rcases Peg.orElse_eq_some.1 h with h | ⟨_, h⟩
  · obtain ⟨_, _, _, h⟩ := Peg.bind_eq_some.1 h
    obtain ⟨_, _, _, h⟩ := Peg.bind_eq_some.1 h
    obtain ⟨_, _, _, h⟩ := Peg.bind_eq_some.1 h
    obtain ⟨_, _, _, h⟩ := Peg.bind_eq_some.1 h
    obtain ⟨_, _, _, h⟩ := Peg.bind_eq_some.1 h
    obtain ⟨rfl, -⟩ := Prod.mk.inj (Option.some.inj h)
    rfl
  · obtain ⟨_, _, _, h⟩ := Peg.bind_eq_some.1 h
    obtain ⟨rfl, -⟩ := Prod.mk.inj (Option.some.inj h)
    rfl

theorem clause_is_clause {item : QueryItem}
    (h : (clause classes nested).run s = some (item, rest)) : is_clause item = true := by
  have hsigned : ∀ {mark sign}, (signed_clause classes nested mark sign).run s =
      some (item, rest) → is_clause item = true := by
    intro mark sign h
    obtain ⟨_, _, _, h⟩ := Peg.bind_eq_some.1 h
    exact sub_clause_is_clause h
  rcases Peg.orElse_eq_some.1 h with h | ⟨_, h⟩
  · exact hsigned h
  rcases Peg.orElse_eq_some.1 h with h | ⟨_, h⟩
  · exact hsigned h
  · exact sub_clause_is_clause h

theorem joined_has_clause
    (h : (joined_clause classes nested).run s = some (items, rest)) :
    0 < items.countP is_clause := by
  rcases Peg.orElse_eq_some.1 h with h | ⟨_, h⟩
  · obtain ⟨op, _, _, h⟩ := Peg.bind_eq_some.1 h
    obtain ⟨_, _, _, h⟩ := Peg.bind_eq_some.1 h
    obtain ⟨c, _, hc, h⟩ := Peg.bind_eq_some.1 h
    obtain ⟨rfl, -⟩ := Prod.mk.inj (Option.some.inj h)
    rw [List.countP_pos_iff]
    exact ⟨c, by simp, clause_is_clause hc⟩
  · obtain ⟨c, _, hc, h⟩ := Peg.bind_eq_some.1 h
    obtain ⟨rfl, -⟩ := Prod.mk.inj (Option.some.inj h)
    rw [List.countP_pos_iff]
    exact ⟨c, by simp, clause_is_clause hc⟩

/-- **How a query is read whose first clause is known.** -/
theorem query_of_clause
    (hclause : (clause classes (boolean_query classes text.length)).run
      (text.dropWhile is_whitespace) = some (first, mid)) :
    query classes text = some items ↔ ∃ more rest,
      (star (joined_clause classes (boolean_query classes text.length))).run
        (mid.dropWhile is_whitespace) = some (more, rest) ∧
      rest.dropWhile is_whitespace = [] ∧ items = first :: more.flatten := by
  have hrun : (do
      let _ ← skip
      let items ← boolean_query classes (text.length + 1)
      let _ ← skip
      return items : Rule (List QueryItem)).run text =
      ((star (joined_clause classes (boolean_query classes text.length))).run
        (mid.dropWhile is_whitespace)).bind fun r =>
          some (first :: r.1.flatten, r.2.dropWhile is_whitespace) := by
    rw [boolean_query, Peg.run_bind]
    simp only [Peg.run_bind, run_skip, Option.bind_some, hclause, Option.bind_assoc]
    rfl
  rw [query, hrun]
  rcases (star (joined_clause classes (boolean_query classes text.length))).run
      (mid.dropWhile is_whitespace) with _ | ⟨more, rest⟩
  · simp
  grind

theorem query_of_last
    (hclause : (clause classes (boolean_query classes text.length)).run
      (text.dropWhile is_whitespace) = some (first, [])) :
    query classes text = some [first] :=
  (query_of_clause hclause).2 ⟨[], [], rfl, rfl, rfl⟩

theorem one_clause_of_query
    (hclause : (clause classes (boolean_query classes text.length)).run
      (text.dropWhile is_whitespace) = some (first, mid))
    (hmid : mid.dropWhile is_whitespace = []) (h : query classes text = some items) :
    items = [first] := by
  have hone : query classes text = some [first] :=
    (query_of_clause hclause).2 ⟨[], [], by rw [hmid]; rfl, rfl, rfl⟩
  exact Option.some.inj (h.symm.trans hone)

/-- **What is left holds another clause**, where it is not blank. -/
theorem two_clauses_of_query
    (hclause : (clause classes (boolean_query classes text.length)).run
      (text.dropWhile is_whitespace) = some (first, mid))
    (hmid : mid.dropWhile is_whitespace ≠ []) (h : query classes text = some items) :
    2 ≤ items.countP is_clause := by
  obtain ⟨more, rest, hstar, hrest, rfl⟩ := (query_of_clause hclause).1 h
  have hfirst : is_clause first = true := clause_is_clause hclause
  rcases Peg.orElse_eq_some.1 hstar with hstar | ⟨_, hstar⟩
  · obtain ⟨items, left, hjoined, hstar⟩ := Peg.bind_eq_some.1 hstar
    obtain ⟨rfl, -⟩ := Prod.mk.inj (Option.some.inj hstar)
    have hpos := joined_has_clause hjoined
    grind
  · obtain ⟨-, rfl⟩ := Prod.mk.inj (Option.some.inj hstar)
    rw [List.dropWhile_idempotent] at hrest
    exact absurd hrest hmid

end Grammar

end Laurus
