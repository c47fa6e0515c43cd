import Laurus.Lexical.Helpers.QueryGrammar
import Laurus.Lexical.Model.QueryParser

/-!
# Reading a range

A value of a range is a star, a quoted string or characters up to a blank, a closing bracket
or the word `TO` (`range_value_eq_some`). A word between blanks may be read in part only, or
past its end: it then holds a quotation mark or an `O`, and what is read is no longer the word
(`word_read`).
-/

namespace Laurus

namespace Grammar

variable {classes : UnicodeClasses} {c : Char} {s rest tail : List Char} {l : String}

/-! ## Quoted strings -/

theorem dropWhile_dropWhile_of_imp {p q : Char → Bool} (h : ∀ c, p c = true → q c = true) :
    (s.dropWhile p).dropWhile q = s.dropWhile q := by
  conv_rhs => rw [← List.takeWhile_append_dropWhile (p := p) (l := s)]
  rw [List.dropWhile_append_of_pos fun c hc => h c (List.mem_takeWhile_imp hc)]

theorem dropWhile_mark {content more : List Char} (h : '"' ∉ content) :
    (content ++ '"' :: more).dropWhile (fun c => decide (c ≠ '"')) = '"' :: more := by
  rw [List.dropWhile_append_of_pos, List.dropWhile_cons_of_neg (by decide)]
  grind

/-- **A quoted string is what stands between two marks.** -/
theorem quoted_string_eq_some : quoted_string.run s = some ((), rest) ↔
    ∃ content, s = '"' :: (content ++ '"' :: rest) ∧ '"' ∉ content := by
  rcases s with _ | ⟨d, s⟩
  · refine iff_of_false (Option.some_ne_none _).symm ?_
    simp
  by_cases hd : d = '"'
  · subst hd
    have hrun : quoted_string.run ('"' :: s) =
        (do
          let _ ← skip
          lit "\"" : Rule Unit).run (s.dropWhile fun c => decide (c ≠ '"')) := by
      refine (Peg.bind_of_some (lit_char rfl)).trans ((Peg.bind_of_some (run_skip s)).trans ?_)
      refine (Peg.bind_of_some (quoted_content_run _)).trans ?_
      rw [dropWhile_dropWhile_of_imp fun c hc => decide_eq_true (ne_mark_of_whitespace hc)]
    rw [hrun]
    constructor
    · intro h
      rcases hdrop : s.dropWhile fun c => decide (c ≠ '"') with _ | ⟨e, more⟩
      · rw [hdrop] at h
        exact absurd h.symm (Option.some_ne_none _)
      · have he : e = '"' := by
          grind [List.head?_dropWhile_not]
        rw [hdrop, he] at h
        have hend : (lit "\"").run ('"' :: more) = some ((), rest) :=
          (Peg.bind_of_some (skip_of_head (by rintro _ ⟨⟩; decide))).symm.trans h
        rw [lit_char rfl] at hend
        obtain ⟨-, rfl⟩ := Prod.mk.inj (Option.some.inj hend)
        refine ⟨s.takeWhile fun c => decide (c ≠ '"'), ?_, fun hmem => ?_⟩
        · grind [List.takeWhile_append_dropWhile]
        · exact absurd (List.mem_takeWhile_imp hmem) (by decide)
    · rintro ⟨content, heq, hcontent⟩
      rw [(List.cons.inj heq).2, dropWhile_mark hcontent]
      exact lit_char rfl
  · have hnone : quoted_string.run (d :: s) = none :=
      Peg.bind_of_none (lit_of_head rfl fun h => hd (Option.some.inj h))
    grind

/-! ## Unquoted values -/

/-- A character that ends an unquoted value. -/
def ends_value (c : Char) : Bool := is_whitespace c || c == ']' || c == '\x7d'

theorem lit_isSome_cons {w : String} (hw : w.toList = [c]) (d : Char) :
    ((lit w).run (d :: s)).isSome = decide (d = c) := by
  grind [lit_char, lit_of_head, Option.some.inj]

theorem exists_cons_of_lit_char {w : String} {a : Unit} (hw : w.toList = [c])
    (h : (lit w).run s = some (a, rest)) : s = c :: rest := by
  rcases s with _ | ⟨d, s⟩
  · exact absurd ((lit_of_head hw (by rintro ⟨⟩)).symm.trans h) (Option.some_ne_none _).symm
  · have hsome := congrArg Option.isSome h
    rw [lit_isSome_cons hw] at hsome
    obtain rfl : d = c := of_decide_eq_true hsome
    rw [lit_char hw] at h
    grind

theorem lit_to_isSome (d : Char) (s : List Char) :
    ((lit "TO").run (d :: s)).isSome = decide (d = 'T' ∧ s.head? = some 'O') := by
  by_cases hd : d = 'T'
  · subst hd
    have hstep : (lit "TO").run ('T' :: s) = (lit "O").run s := rfl
    rcases s with _ | ⟨e, s⟩
    · rfl
    · rw [hstep, @lit_isSome_cons 'O' s "O" rfl e]
      simp
  grind [lit_of_head, Option.some.inj]

/-- **What ends an unquoted value**: a blank, a closing bracket, or `TO`. -/
theorem unquoted_char_run (c : Char) (s : List Char) : unquoted_char.run (c :: s) =
    if ends_value c = true ∨ (c = 'T' ∧ s.head? = some 'O') then none else some (c, s) := by
  have hspace : ((Peg.item is_whitespace).run (c :: s)).isSome = is_whitespace c := by
    rw [Peg.run_item_cons]
    split_ifs with h <;> simp [h]
  rw [unquoted_char]
  simp only [Peg.run_absent_bind, hspace, lit_to_isSome,
    @lit_isSome_cons ']' s "]" rfl c, @lit_isSome_cons '\x7d' s "\x7d" rfl c]
  simp only [ends_value, Bool.or_eq_true, beq_iff_eq, decide_eq_true_eq]
  split_ifs <;> first | rfl | tauto

theorem unquoted_char_nil : unquoted_char.run [] = none := rfl

theorem takes_unquoted_char : Peg.Takes (fun c => ends_value c = false) unquoted_char := by
  rintro s a rest h
  rcases s with _ | ⟨c, s⟩
  · exact absurd (unquoted_char_nil.symm.trans h) (Option.some_ne_none _).symm
  · rw [unquoted_char_run] at h
    split_ifs at h with hend
    obtain ⟨rfl, rfl⟩ := Prod.mk.inj (Option.some.inj h)
    refine ⟨[c], rfl, fun d hd => ?_⟩
    grind

theorem consumes_unquoted_char : Peg.Consumes unquoted_char := by
  rintro s a rest h
  rcases s with _ | ⟨c, s⟩
  · exact absurd (unquoted_char_nil.symm.trans h) (Option.some_ne_none _).symm
  · rw [unquoted_char_run] at h
    grind

/-! ## Values -/

theorem takes_quoted_string : Peg.Takes (fun _ => True) quoted_string := by
  rintro s a rest h
  obtain ⟨content, rfl, -⟩ := quoted_string_eq_some.1 h
  exact ⟨'"' :: (content ++ ['"']), by simp, fun _ _ => trivial⟩

/-- **How a value is read**: a star first, then a quoted string, then what is unquoted. -/
theorem range_value_eq_some (h : range_value.run s = some (l, rest)) :
    (l = "*" ∧ s = '*' :: rest) ∨
    (∃ content, l = String.ofList ('"' :: (content ++ ['"'])) ∧
      s = '"' :: (content ++ '"' :: rest) ∧ '"' ∉ content) ∨
    (s.head? ≠ some '*' ∧ quoted_string.run s = none ∧ ∃ front, s = front ++ rest ∧
      l = String.ofList front ∧ (∀ c ∈ front, ends_value c = false) ∧
        unquoted_char.run rest = none) := by
  obtain ⟨chars, _, htext, hpure⟩ := Peg.bind_eq_some.1 h
  obtain ⟨rfl, rfl⟩ := Prod.mk.inj (Option.some.inj hpure)
  have htakes : Peg.Takes (fun _ => True) (lit "*" <|> quoted_string <|>
      (fun _ => ()) <$> Peg.many_one unquoted_char) :=
    (takes_lit fun _ _ => trivial).orElse (takes_quoted_string.orElse
      (takes_unquoted_char.many_one.mono fun _ _ => trivial).map)
  obtain ⟨hsplit, -, a, hrun⟩ := htakes.text_eq_some htext
  rcases Peg.orElse_eq_some.1 hrun with hstar | ⟨hstar, hrun⟩
  · refine Or.inl ?_
    obtain rfl := exists_cons_of_lit_char rfl hstar
    have hchars : chars = ['*'] := List.append_cancel_right hsplit.symm
    rw [hchars]
    exact ⟨rfl, rfl⟩
  rcases Peg.orElse_eq_some.1 hrun with hquoted | ⟨hquoted, hrun⟩
  · refine Or.inr (Or.inl ?_)
    obtain ⟨content, hs, hcontent⟩ := quoted_string_eq_some.1 hquoted
    refine ⟨content, ?_, hs, hcontent⟩
    have hchars : chars = '"' :: (content ++ ['"']) := by
      refine List.append_cancel_right (hsplit.symm.trans (hs.trans ?_))
      simp
    rw [hchars]
  · obtain ⟨as, mid, hmany, hunit⟩ := Peg.bind_eq_some.1 hrun
    obtain ⟨-, rfl⟩ := Prod.mk.inj (Option.some.inj hunit)
    obtain ⟨front, hfront, hends⟩ := takes_unquoted_char.many_one hmany
    refine Or.inr (Or.inr ⟨fun hhead => ?_, hquoted, front, hfront, ?_, hends,
      consumes_unquoted_char.many_one hmany⟩)
    · obtain ⟨more, rfl⟩ := List.head?_eq_some_iff.1 hhead
      exact absurd (hstar.symm.trans (lit_char rfl)) (Option.some_ne_none _).symm
    · rw [List.append_cancel_right (hfront.symm.trans hsplit)]

/-! ## What is left without marks -/

open LexicalQueryParser (trim_quotes)

theorem dropWhile_of_no_mark (h : s.head? ≠ some '"') :
    s.dropWhile (fun c => decide (c = '"')) = s := by
  rcases s with _ | ⟨c, s⟩
  · rfl
  · refine List.dropWhile_cons_of_neg ?_
    grind

theorem trim_quotes_of_ends (hfirst : s.head? ≠ some '"') (hlast : s.getLast? ≠ some '"') :
    trim_quotes (String.ofList s) = String.ofList s := by
  grind [trim_quotes, String.toList_ofList, dropWhile_of_no_mark]

/-- **A quoted string is left its content.** -/
theorem trim_quotes_of_quoted {content : List Char} (h : '"' ∉ content) :
    trim_quotes (String.ofList ('"' :: (content ++ ['"']))) = String.ofList content := by
  have hfront : (content ++ ['"']).dropWhile (fun c => decide (c = '"')) =
      if content = [] then [] else content ++ ['"'] := by
    rcases content with _ | ⟨c, content⟩
    · rfl
    · rw [if_neg (List.cons_ne_nil _ _), dropWhile_of_no_mark]
      grind
  rw [trim_quotes, String.toList_ofList, List.dropWhile_cons_of_pos (by decide), hfront]
  split_ifs with hnil
  · rw [hnil]
    rfl
  · rw [List.reverse_append, List.reverse_singleton, List.singleton_append,
      List.dropWhile_cons_of_pos (by decide), dropWhile_of_no_mark, List.reverse_reverse]
    grind

theorem length_trim_quotes (l : String) : (trim_quotes l).toList.length ≤ l.toList.length := by
  grind [trim_quotes, String.toList_ofList, List.dropWhile_suffix]

theorem length_trim_quotes_lt (h : s.head? = some '"' ∨ s.getLast? = some '"') :
    (trim_quotes (String.ofList s)).toList.length < s.length := by
  rw [trim_quotes, String.toList_ofList, String.toList_ofList, List.length_reverse]
  have hfront := (List.dropWhile_suffix (l := s) fun c => decide (c = '"')).length_le
  rcases h with hfirst | hlast
  · grind [List.head?_eq_some_iff, List.dropWhile_suffix, List.dropWhile_cons_of_pos]
  · rcases hdrop : s.dropWhile fun c => decide (c = '"') with _ | ⟨d, t⟩
    · obtain ⟨t, rfl⟩ := List.getLast?_eq_some_iff.1 hlast
      simp
    · -- what is left in front still has the mark at its end
      have hsuffix := List.dropWhile_suffix (l := s) fun c => decide (c = '"')
      rw [hdrop] at hsuffix hfront
      have hmark : (d :: t).getLast? = some '"' := by
        obtain ⟨u, hu⟩ := hsuffix
        grind
      obtain ⟨u, hu⟩ := List.getLast?_eq_some_iff.1 hmark
      grind [List.dropWhile_cons_of_pos, List.dropWhile_suffix]

/-! ## Words between blanks -/

/-- **A word is read as it is, or as something else than the word**: it then is a star, or it
holds a mark or an `O` and what is read, without its marks, is not the word. -/
theorem word_read {w : List Char} (hplain : ∀ c ∈ w, ends_value c = false) (hnil : w ≠ [])
    (htail : ∀ c ∈ tail.head?, ends_value c = true)
    (h : range_value.run (w ++ tail) = some (l, rest)) :
    (l = String.ofList w ∧ rest = tail) ∨ l = "*" ∨
      (('"' ∈ w ∨ 'O' ∈ w) ∧ (trim_quotes l).toList ≠ w) := by
  rcases range_value_eq_some h with ⟨rfl, -⟩ | ⟨content, rfl, hs, hcontent⟩ |
    ⟨-, -, front, hs, rfl, hfront, hstop⟩
  · exact Or.inr (Or.inl rfl)
  · -- a mark in front is read together with the next one
    rw [trim_quotes_of_quoted hcontent, String.toList_ofList]
    rcases w with _ | ⟨d, w⟩
    · exact absurd rfl hnil
    grind
  · rcases List.append_eq_append_iff.1 hs with ⟨more, rfl, htail'⟩ | ⟨more, rfl, hrest⟩
    · rcases more with _ | ⟨d, more⟩
      · grind
      · -- it cannot go past the end of the word
        have hends := htail d (by rw [htail']; rfl)
        grind
    · rcases more with _ | ⟨d, more⟩
      · grind
      · -- it ends within the word, at `TO`
        rw [hrest, List.cons_append, unquoted_char_run] at hstop
        split_ifs at hstop with hend
        have hd := hplain d (by simp)
        rw [hd] at hend
        obtain ⟨-, hnext⟩ := hend.resolve_left Bool.false_ne_true
        have hO : 'O' ∈ d :: more := by
          rcases more with _ | ⟨e, more⟩
          · exact absurd (htail 'O' hnext) (by decide)
          grind
        grind [length_trim_quotes, String.toList_ofList]

theorem star_read (h : range_value.run ('*' :: tail) = some (l, rest)) :
    l = "*" ∧ rest = tail := by
  rcases range_value_eq_some h with ⟨rfl, hs⟩ | ⟨content, -, hs, -⟩ | ⟨hhead, -⟩
  · exact ⟨rfl, (List.cons.inj hs).2.symm⟩
  · grind
  · exact absurd rfl hhead

theorem quoted_read {content : List Char} (hcontent : '"' ∉ content)
    (h : range_value.run ('"' :: (content ++ '"' :: tail)) = some (l, rest)) :
    l = String.ofList ('"' :: (content ++ ['"'])) ∧ rest = tail := by
  rcases range_value_eq_some h with ⟨-, hs⟩ | ⟨other, rfl, hs, hother⟩ | ⟨-, hnone, -⟩
  · grind
  · have hsplit := (List.cons.inj hs).2
    have hdrop := congrArg (List.dropWhile fun c => decide (c ≠ '"')) hsplit
    grind [dropWhile_mark, List.append_cancel_right]
  · exact absurd ((quoted_string_eq_some.2 ⟨content, rfl, hcontent⟩).symm.trans hnone)
      (Option.some_ne_none _)

/-! ## The range between two brackets -/

theorem term_of_head (hnormal : is_normal_char classes c = false) (hescape : c ≠ '\\') :
    (term classes).run (c :: s) = none := by
  have hitem : (Peg.item (is_normal_char classes)).run (c :: s) = none :=
    Peg.run_item_of_head (by rintro d ⟨⟩; exact hnormal)
  refine as_str_of_none ((Peg.orElse_of_none ?_).trans (Peg.bind_of_none hitem))
  refine Peg.bind_of_none ((Peg.orElse_of_none ?_).trans hitem)
  exact Peg.bind_of_none (lit_of_head rfl fun h => hescape (Option.some.inj h))

/-- Of what stands between brackets. -/
def left_bracket (inclusive : Bool) : Char := if inclusive then '[' else '\x7b'

@[inherit_doc left_bracket]
def right_bracket (inclusive : Bool) : Char := if inclusive then ']' else '\x7d'

/-- The range of a bracket. -/
def range_of (inclusive : Bool) : Rule ClauseValue :=
  if inclusive then range_inclusive else range_exclusive

/-- **A bracket starts a range only.** -/
theorem field_value_of_bracket (inclusive : Bool) :
    (field_value classes).run (left_bracket inclusive :: s) =
      (range_of inclusive).run (left_bracket inclusive :: s) := by
  have hhead : ∀ d, left_bracket inclusive ≠ d → (left_bracket inclusive :: s).head? ≠ some d :=
    fun d hd h => hd (Option.some.inj h)
  have hword : is_word_char classes (left_bracket inclusive) = false := by
    rw [is_word_char, classes.letter_ascii _ (by cases inclusive <;> decide),
      classes.number_ascii _ (by cases inclusive <;> decide)]
    cases inclusive <;> decide
  have hterm : (term classes).run (left_bracket inclusive :: s) = none := by
    refine term_of_head ?_ (by cases inclusive <;> decide)
    rw [is_normal_char, hword]
    cases inclusive <;> decide
  have hwildcard : (wildcard_term classes).run (left_bracket inclusive :: s) = none := by
    refine Peg.bind_of_none (as_str_of_none ?_)
    have hspan : (Peg.span (is_word_char classes)).run (left_bracket inclusive :: s) =
        some ([], left_bracket inclusive :: s) := by
      change some (List.takeWhile _ _, List.dropWhile _ _) = _
      grind [List.takeWhile_cons_of_neg, List.dropWhile_cons_of_neg]
    refine (Peg.bind_of_some hspan).trans (Peg.bind_of_none (Peg.run_item_of_head ?_))
    rintro d ⟨⟩
    cases inclusive <;> decide
  have hphrase : phrase_query.run (left_bracket inclusive :: s) = none :=
    Peg.bind_of_none (@lit_of_head "\"" '"' [] _ rfl (hhead _ (by cases inclusive <;> decide)))
  have hrest : (phrase_query <|> fuzzy_term classes <|> wildcard_term classes <|>
      simple_term classes).run (left_bracket inclusive :: s) = none := by
    refine (Peg.orElse_of_none hphrase).trans ?_
    refine (Peg.orElse_of_none (Peg.bind_of_none hterm)).trans ?_
    exact (Peg.orElse_of_none hwildcard).trans (Peg.bind_of_none hterm)
  have hrange : range_query.run (left_bracket inclusive :: s) =
      (range_of inclusive).run (left_bracket inclusive :: s) := by
    cases inclusive
    · exact Peg.orElse_of_none
        (Peg.bind_of_none (@lit_of_head "[" '[' [] _ rfl (hhead _ (by decide))))
    · refine (Peg.run_orElse).trans ?_
      have hnone : range_exclusive.run (left_bracket true :: s) = none :=
        Peg.bind_of_none (@lit_of_head "\x7b" '\x7b' [] _ rfl (hhead _ (by decide)))
      rw [hnone, Option.or_none]
      rfl
  rw [field_value_of_head (by rintro d ⟨⟩; cases inclusive <;> decide), Peg.run_orElse, hrest,
    Option.or_none, hrange]

/-- **What a range reads between its brackets.** -/
theorem range_of_eq_some {inclusive : Bool} {v : ClauseValue}
    (h : (range_of inclusive).run (left_bracket inclusive :: s) = some (v, rest)) :
    ∃ lower upper mid more last, v = .range inclusive lower upper ∧
      range_value.run (s.dropWhile is_whitespace) = some (lower, mid) ∧
      (lit_any_case "TO").run (mid.dropWhile is_whitespace) = some ((), more) ∧
      range_value.run (more.dropWhile is_whitespace) = some (upper, last) ∧
      last.dropWhile is_whitespace = right_bracket inclusive :: rest := by
  have hrun : ∃ left right, left.toList = [left_bracket inclusive] ∧
      right.toList = [right_bracket inclusive] ∧
      range_of inclusive = range_between inclusive left right := by
    cases inclusive
    · exact ⟨_, _, rfl, rfl, rfl⟩
    · exact ⟨_, _, rfl, rfl, rfl⟩
  obtain ⟨left, right, hleft, hright, hrange⟩ := hrun
  rw [hrange, range_between] at h
  obtain ⟨_, _, hopen, h⟩ := Peg.bind_eq_some.1 h
  obtain rfl := (List.cons.inj (exists_cons_of_lit_char hleft hopen)).2
  obtain ⟨_, _, hskip, h⟩ := Peg.bind_eq_some.1 h
  obtain ⟨-, rfl⟩ := Prod.mk.inj (Option.some.inj ((run_skip _).symm.trans hskip))
  obtain ⟨lower, mid, hlower, h⟩ := Peg.bind_eq_some.1 h
  obtain ⟨_, _, hskip, h⟩ := Peg.bind_eq_some.1 h
  obtain ⟨-, rfl⟩ := Prod.mk.inj (Option.some.inj ((run_skip _).symm.trans hskip))
  obtain ⟨_, more, hto, h⟩ := Peg.bind_eq_some.1 h
  obtain ⟨_, _, hskip, h⟩ := Peg.bind_eq_some.1 h
  obtain ⟨-, rfl⟩ := Prod.mk.inj (Option.some.inj ((run_skip _).symm.trans hskip))
  obtain ⟨upper, last, hupper, h⟩ := Peg.bind_eq_some.1 h
  obtain ⟨_, _, hskip, h⟩ := Peg.bind_eq_some.1 h
  obtain ⟨-, rfl⟩ := Prod.mk.inj (Option.some.inj ((run_skip _).symm.trans hskip))
  obtain ⟨_, _, hclose, h⟩ := Peg.bind_eq_some.1 h
  obtain ⟨rfl, rfl⟩ := Prod.mk.inj (Option.some.inj h)
  grind [exists_cons_of_lit_char]

/-! ## The clause of a field -/

/-- **A clause at a field's name and a colon** is a value of the field, or one of no field. -/
theorem clause_at_field {nested : Rule (List QueryItem)} {name : List Char} {first : QueryItem}
    (h : IsField name) (hs : ∀ d ∈ s.head?, is_whitespace d = false)
    (hrun : (clause classes nested).run (name ++ ':' :: s) = some (first, rest)) :
    ∃ n v, first = .value .sub n v ∧
      (n = none ∨ n = some (String.ofList name) ∧ (field_value classes).run s = some (v, rest)) := by
  obtain ⟨d, hd, hstarts⟩ := @head_of_isField (':' :: s) name h
  have hne : ∀ e, starts_field e = false → (name ++ ':' :: s).head? ≠ some e := by grind
  have hsub : (field_query classes .sub <|> term_query classes .sub).run (name ++ ':' :: s) =
      some (first, rest) := by
    rw [← hrun]
    refine Eq.symm ?_
    refine (Peg.orElse_of_none (signed_of_head rfl (hne '+' (by decide)))).trans ?_
    refine (Peg.orElse_of_none (signed_of_head rfl (hne '-' (by decide)))).trans ?_
    exact Peg.orElse_of_none (grouped_of_head (hne '(' (by decide)))
  rcases Peg.orElse_eq_some.1 hsub with hfield | ⟨-, hterm⟩
  · obtain ⟨_, _, hname, hfield⟩ := Peg.bind_eq_some.1 hfield
    obtain ⟨rfl, rfl⟩ := Prod.mk.inj (Option.some.inj ((field_run h).symm.trans hname))
    obtain ⟨_, _, hskip, hfield⟩ := Peg.bind_eq_some.1 hfield
    obtain ⟨-, rfl⟩ := Prod.mk.inj (Option.some.inj
      ((skip_of_head (by rintro e ⟨⟩; decide)).symm.trans hskip))
    obtain ⟨_, _, hcolon, hfield⟩ := Peg.bind_eq_some.1 hfield
    obtain ⟨-, rfl⟩ := Prod.mk.inj (Option.some.inj ((lit_char rfl).symm.trans hcolon))
    obtain ⟨_, _, hskip, hfield⟩ := Peg.bind_eq_some.1 hfield
    obtain ⟨-, rfl⟩ := Prod.mk.inj (Option.some.inj ((skip_of_head hs).symm.trans hskip))
    obtain ⟨v, _, hvalue, hfield⟩ := Peg.bind_eq_some.1 hfield
    obtain ⟨rfl, rfl⟩ := Prod.mk.inj (Option.some.inj hfield)
    grind
  · obtain ⟨v, _, -, hterm⟩ := Peg.bind_eq_some.1 hterm
    obtain ⟨rfl, -⟩ := Prod.mk.inj (Option.some.inj hterm)
    exact ⟨none, v, rfl, Or.inl rfl⟩

theorem exists_first_clause {text : List Char} {items : List QueryItem}
    (h : query classes text = some items) : ∃ first mid,
      (clause classes (boolean_query classes text.length)).run (text.dropWhile is_whitespace) =
        some (first, mid) := by
  rcases hclause : (clause classes (boolean_query classes text.length)).run
      (text.dropWhile is_whitespace) with _ | ⟨first, mid⟩
  · have hnone : (do
        let _ ← skip
        let items ← boolean_query classes (text.length + 1)
        let _ ← skip
        return items : Rule (List QueryItem)).run text = none := by
      refine (Peg.bind_of_some (run_skip text)).trans (Peg.bind_of_none ?_)
      exact Peg.bind_of_none hclause
    rw [query, hnone] at h
    exact absurd h.symm (Option.some_ne_none _)
  · exact ⟨first, mid, rfl⟩

end Grammar

end Laurus
