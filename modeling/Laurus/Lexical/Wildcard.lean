import Laurus.Lexical.Helpers.RegexSyntax
import Laurus.Lexical.Model.AutomatonTerms
import Mathlib

/-!
# What a wildcard pattern means as a regular expression

The pattern is written out character by character and a backslash is kept with what is
after it. Where the crate reads that character as itself, the expression is the pattern
with wildcards that stand for anything but the end of a line (`reads_compile_loop`). Where
it does not, or nothing is after the backslash, the expression has fewer of some letter
than the pattern (`letters_lt`), so it matches a term that the pattern does not.
-/

namespace Laurus

namespace WildcardQuery

open PatternItem LetterKind

/-- A pattern as a row of items, with what a wildcard may stand for. -/
def glob_items (wild : Char → Prop) : List Char → List (PatternItem Char)
  | [] => []
  | '\\' :: c :: chars => .letter c :: glob_items wild chars
  | '*' :: chars => .other (run_of wild) :: glob_items wild chars
  | '?' :: chars => .other (one_of wild) :: glob_items wild chars
  | c :: chars => .letter c :: glob_items wild chars

/-- A term is one that a pattern means, with what a wildcard may stand for. -/
def Glob (wild : Char → Prop) (pattern term : String) : Prop :=
  FitsPieces (glob_items wild pattern.toList) [] term.toList []

/-- Every backslash is before a character that it makes that character. -/
def escapes_plain : List Char → Bool
  | [] => true
  | ['\\'] => false
  | '\\' :: c :: chars => is_escapable c && escapes_plain chars
  | _ :: chars => escapes_plain chars

/-- A query is refused, or matches a term exactly when the pattern means it. -/
def Agrees (compile : String → Option Regex) (pattern term : String) : Prop :=
  ∀ field query, new compile field pattern = some query →
    (query.regex term = true ↔ Glob (fun _ => True) pattern term)

variable {esc : Escapes} {compile : String → Option Regex} {wild : Char → Prop}
  {items : List (PatternItem Char)} {chars tail : List Char} {pattern : String}

/-! ## Characters -/

variable {c : Char}

theorem is_escapable_of_needs_escape (h : needs_escape c = true) :
    is_escapable c = true := by
  have hall : ∀ d ∈ ['^', '$', '.', '+', '(', ')', '[', ']', '{', '}', '|'],
      is_escapable d = true := List.all_eq_true.1 (by decide)
  exact hall c (List.contains_iff_mem.1 h)

theorem not_escapable_of_letter (h : is_escape_letter c = true) :
    is_escapable c = false := by
  rw [is_escape_letter, Bool.or_eq_true, Bool.or_eq_true] at h
  rcases h with (h | h) | h
  · rw [is_escapable, h, Bool.not_true, Bool.and_false, Bool.false_and, Bool.false_and]
  · obtain rfl := eq_of_beq h
    decide
  · obtain rfl := eq_of_beq h
    decide

theorem kind_of_letter (h : is_escape_letter c = true) :
    (of_char c).isSome = true := by
  rw [is_escape_letter, Bool.or_eq_true, Bool.or_eq_true, Char.isAlphanum, Char.isAlpha,
    Bool.or_eq_true, Bool.or_eq_true, beq_iff_eq, beq_iff_eq] at h
  rw [of_char]
  grind

theorem plain_of_not_special (hbackslash : c ≠ '\\') (hstar : c ≠ '*')
    (hquery : c ≠ '?') (hplain : ¬ needs_escape c = true) : is_meta c = false := by
  rw [← Bool.not_eq_true]
  intro hmeta
  have hall : ∀ d ∈ ['\\', '.', '+', '*', '?', '(', ')', '|', '[', ']', '{', '}', '^', '$'],
      d = '\\' ∨ d = '*' ∨ d = '?' ∨ needs_escape d = true := by simp [needs_escape]
  rcases hall c (List.contains_iff_mem.1 hmeta) with h | h | h | h
  · exact hbackslash h
  · exact hstar h
  · exact hquery h
  · exact hplain h

/-! ## The expression of a pattern -/

theorem compile_loop_cons (hbackslash : c ≠ '\\') (hstar : c ≠ '*')
    (hquery : c ≠ '?') : compile_loop (c :: chars) =
      if needs_escape c then '\\' :: c :: compile_loop chars else c :: compile_loop chars := by
  rw [compile_loop]
  · rintro rfl rfl
    exact hbackslash rfl
  · grind
  · exact hstar
  · exact hquery

theorem glob_items_cons (hbackslash : c ≠ '\\') (hstar : c ≠ '*')
    (hquery : c ≠ '?') : glob_items wild (c :: chars) = .letter c :: glob_items wild chars := by
  rw [glob_items]
  · grind
  · exact hstar
  · exact hquery

theorem escapes_plain_cons (hbackslash : c ≠ '\\') :
    escapes_plain (c :: chars) = escapes_plain chars := by
  rw [escapes_plain]
  · rintro rfl rfl
    exact hbackslash rfl
  grind

theorem pattern_cases (chars : List Char) :
    chars = [] ∨ chars = ['\\'] ∨ (∃ c rest, chars = '\\' :: c :: rest) ∨
    (∃ rest, chars = '*' :: rest) ∨ (∃ rest, chars = '?' :: rest) ∨
    ∃ c rest, chars = c :: rest ∧ c ≠ '\\' ∧ c ≠ '*' ∧ c ≠ '?' := by
  rcases chars with _ | ⟨c, rest⟩
  · exact Or.inl rfl
  by_cases hbackslash : c = '\\'
  · subst hbackslash
    rcases rest with _ | ⟨d, rest⟩
    · exact Or.inr (Or.inl rfl)
    simp
  grind

@[elab_as_elim]
theorem pattern_induction {motive : List Char → Prop} (nil : motive [])
    (backslash : motive ['\\']) (escape : ∀ c rest, motive rest → motive ('\\' :: c :: rest))
    (star : ∀ rest, motive rest → motive ('*' :: rest))
    (query : ∀ rest, motive rest → motive ('?' :: rest))
    (other : ∀ c rest, c ≠ '\\' → c ≠ '*' → c ≠ '?' → motive rest → motive (c :: rest))
    (chars : List Char) : motive chars := by
  induction hlength : chars.length using Nat.strong_induction_on generalizing chars with
  | _ length ih =>
      rcases pattern_cases chars with rfl | rfl | ⟨c, rest, rfl⟩ | ⟨rest, rfl⟩ | ⟨rest, rfl⟩ |
        ⟨c, rest, rfl, hbackslash, hstar, hquery⟩
      · exact nil
      · exact backslash
      · grind
      · grind
      · grind
      grind

/-- **The expression is read as the pattern**, with wildcards that stop at the end of a
line. -/
theorem reads_compile_loop (hplain : escapes_plain chars = true)
    (htail : ReadsPieces esc tail items) :
    ReadsPieces esc (compile_loop chars ++ tail) (glob_items (· ≠ '\n') chars ++ items) := by
  induction chars using pattern_induction with
  | nil => exact htail
  | backslash => exact absurd hplain Bool.false_ne_true
  | escape c rest ih =>
      rw [escapes_plain, Bool.and_eq_true] at hplain
      exact .escaped hplain.1 (ih hplain.2)
  | star rest ih => exact .dot_star (ih hplain)
  | query rest ih => exact .dot (ih hplain)
  | other c rest hbackslash hstar hquery ih =>
      rw [escapes_plain_cons hbackslash] at hplain
      rw [compile_loop_cons hbackslash hstar hquery, glob_items_cons hbackslash hstar hquery]
      by_cases hspecial : needs_escape c = true
      · rw [if_pos hspecial]
        exact .escaped (is_escapable_of_needs_escape hspecial) (ih hplain)
      · rw [if_neg hspecial]
        exact .plain (plain_of_not_special hbackslash hstar hquery hspecial) (ih hplain)

theorem simple_compile_loop (chars : List Char) : Simple (compile_loop chars ++ ['$']) := by
  induction chars using pattern_induction with
  | nil => exact .anchor (Or.inr rfl) .nil
  | backslash => exact .backslash .nil
  | escape c rest ih => exact .backslash ih
  | star rest ih => exact .dot_star ih
  | query rest ih => exact .dot ih
  | other c rest hbackslash hstar hquery ih =>
      rw [compile_loop_cons hbackslash hstar hquery]
      by_cases hspecial : needs_escape c = true
      · rw [if_pos hspecial]
        exact .backslash ih
      · rw [if_neg hspecial]
        exact .plain (plain_of_not_special hbackslash hstar hquery hspecial) ih

theorem compile_loop_letter {c : Char} (h : is_escape_letter c = true) :
    compile_loop (c :: chars) = c :: compile_loop chars ∧
    glob_items wild (c :: chars) = .letter c :: glob_items wild chars := by
  have hne : ∀ d, is_escape_letter d = false → c ≠ d := by grind
  have hbackslash := hne '\\' (by decide)
  have hstar := hne '*' (by decide)
  have hquery := hne '?' (by decide)
  refine ⟨?_, glob_items_cons hbackslash hstar hquery⟩
  rw [compile_loop_cons hbackslash hstar hquery, if_neg]
  intro hspecial
  have hescapable := is_escapable_of_needs_escape hspecial
  rw [not_escapable_of_letter h] at hescapable
  exact Bool.noConfusion hescapable

/-- Where the expression goes on with a letter of an escape, so does the pattern. -/
theorem pattern_of_letter (h : is_escape_letter c = true)
    (hcons : compile_loop chars ++ ['$'] = c :: tail) :
    ∃ rest, chars = c :: rest ∧ compile_loop rest ++ ['$'] = tail := by
  have hne : ∀ d, is_escape_letter d = false → c ≠ d := by grind
  rcases pattern_cases chars with rfl | rfl | ⟨d, rest, rfl⟩ | ⟨rest, rfl⟩ | ⟨rest, rfl⟩ |
    ⟨d, rest, rfl, hbackslash, hstar, hquery⟩
  · exact absurd (List.cons.inj hcons).1.symm (hne '$' (by decide))
  · exact absurd (List.cons.inj hcons).1.symm (hne '\\' (by decide))
  · exact absurd (List.cons.inj hcons).1.symm (hne '\\' (by decide))
  · exact absurd (List.cons.inj hcons).1.symm (hne '.' (by decide))
  · exact absurd (List.cons.inj hcons).1.symm (hne '.' (by decide))
  · rw [compile_loop_cons hbackslash hstar hquery] at hcons
    by_cases hspecial : needs_escape d = true
    · rw [if_pos hspecial] at hcons
      exact absurd (List.cons.inj hcons).1.symm (hne '\\' (by decide))
    grind

theorem drop_letters {taken : ℕ} (hle : taken ≤ (compile_loop chars ++ ['$']).length)
    (h : ∀ c ∈ (compile_loop chars ++ ['$']).take taken, is_escape_letter c = true) :
    ∃ front rest, chars = front ++ rest ∧ front.length = taken ∧
      (∀ c ∈ front, is_escape_letter c = true) ∧
      (compile_loop chars ++ ['$']).drop taken = compile_loop rest ++ ['$'] := by
  induction taken generalizing chars with
  | zero => simp
  | succ taken ih =>
      obtain ⟨c, text, htext⟩ : ∃ c text, compile_loop chars ++ ['$'] = c :: text :=
        List.exists_cons_of_length_pos (by omega)
      have hc : is_escape_letter c = true := h c (by rw [htext]; exact List.mem_cons_self)
      obtain ⟨rest, rfl, rfl⟩ := pattern_of_letter hc htext
      rw [htext, List.take_succ_cons] at h
      rw [htext, List.length_cons] at hle
      obtain ⟨front, rest', rfl, hlength, hletters, hdrop⟩ :=
        ih (by omega) fun d hd => h d (List.mem_cons_of_mem _ hd)
      refine ⟨c :: front, rest', rfl, by rw [List.length_cons, hlength], fun d hd => ?_, ?_⟩
      · grind
      grind

/-! ## The letters that an escape loses -/

/-- How many letters of some kind a row has. -/
def weight (items : List (PatternItem Char)) : ℕ :=
  ((letters items).filter fun c => (of_char c).isSome).length

theorem weight_letter (c : Char) (items : List (PatternItem Char)) : weight (.letter c :: items) =
    (if (of_char c).isSome = true then 1 else 0) + weight items := by
  rw [weight, letters_letter, List.filter_cons]
  by_cases hkind : (of_char c).isSome = true
  · rw [if_pos hkind, if_pos hkind, List.length_cons, weight]
    omega
  · rw [if_neg hkind, if_neg hkind, weight]
    omega

theorem weight_other (piece : Piece Char) (items : List (PatternItem Char)) :
    weight (.other piece :: items) = weight items := rfl

theorem weight_letters {front : List Char} (h : ∀ c ∈ front, is_escape_letter c = true)
    (rest : List Char) :
    weight (glob_items wild (front ++ rest)) = front.length + weight (glob_items wild rest) := by
  induction front with
  | nil => simp
  | cons c front ih =>
      have hc := h c List.mem_cons_self
      rw [List.cons_append, (compile_loop_letter hc).2, weight_letter,
        if_pos (kind_of_letter hc), ih fun d hd => h d (List.mem_cons_of_mem _ hd),
        List.length_cons]
      omega

theorem not_reads_star (h : ReadsPieces esc ('*' :: chars) items) : False := by
  rcases h.cons_cases with ⟨h, _⟩ | ⟨h, _⟩ | ⟨h, _⟩ | ⟨h, _⟩ | ⟨h, _⟩ | ⟨h, _⟩ | ⟨h, _⟩
  all_goals exact absurd h (by decide)

theorem compile_loop_ne_star {rest : List Char} : compile_loop chars ++ ['$'] ≠ '*' :: rest := by
  have hhead : ∀ {c : Char} {l : List Char}, c ≠ '*' → c :: l ≠ '*' :: rest :=
    fun hne heq => hne (List.cons.inj heq).1
  rcases pattern_cases chars with rfl | rfl | ⟨c, rest, rfl⟩ | ⟨rest, rfl⟩ | ⟨rest, rfl⟩ |
    ⟨c, rest, rfl, hbackslash, hstar, hquery⟩
  · exact hhead (by decide)
  · exact hhead (by decide)
  · exact hhead (by decide)
  · exact hhead (by decide)
  · exact hhead (by decide)
  · rw [compile_loop_cons hbackslash hstar hquery]
    grind

/-- A backslash is read with the character after it, or is an escape of the crate's. -/
theorem reads_backslash (h : ReadsPieces esc ('\\' :: c :: chars) items) :
    (is_escapable c = true ∧ ∃ rest, items = .letter c :: rest ∧ ReadsPieces esc chars rest) ∨
    (is_escape_letter c = true ∧ ∃ taken item rest,
      esc.reads (c :: chars) = some (taken, item) ∧ items = item :: rest ∧
      ReadsPieces esc ((c :: chars).drop taken) rest) := by
  rcases h.cons_cases with ⟨h, _⟩ | ⟨h, _⟩ | ⟨h, _⟩ | ⟨h, _⟩ | ⟨h, _⟩ |
    ⟨_, d, chars', rest, hcons, hescapable, hitems, hrest⟩ | ⟨_, taken, item, rest, hreads, h⟩
  · exact absurd h (by decide)
  · exact absurd h (by decide)
  · exact absurd h (by decide)
  · exact absurd h (by decide)
  · exact absurd h (by decide)
  · grind
  · obtain ⟨hpos, _, hletters⟩ := esc.takes hreads
    grind [List.take_cons]

theorem reads_plain (hplain : is_meta c = false) (h : ReadsPieces esc (c :: chars) items) :
    ∃ rest, items = .letter c :: rest ∧ ReadsPieces esc chars rest := by
  have hne : ∀ d, is_meta d = true → c ≠ d := by grind
  rcases h.cons_cases with ⟨h, _⟩ | ⟨h, _⟩ | ⟨h, _⟩ | ⟨h, _⟩ | ⟨_, h⟩ | ⟨h, _⟩ | ⟨h, _⟩
  · exact absurd h (hne '^' (by decide))
  · exact absurd h (hne '$' (by decide))
  · exact absurd h (hne '.' (by decide))
  · exact absurd h (hne '.' (by decide))
  · exact h
  · exact absurd h (hne '\\' (by decide))
  · exact absurd h (hne '\\' (by decide))

theorem reads_point (h : ReadsPieces esc ('.' :: chars) items) :
    (∃ rest, items = dot :: rest ∧ ReadsPieces esc chars rest) ∨
    ∃ chars' rest, chars = '*' :: chars' ∧ items = dot_star :: rest ∧
      ReadsPieces esc chars' rest := by
  rcases h.cons_cases with ⟨h, _⟩ | ⟨h, _⟩ | ⟨_, h⟩ | ⟨_, h⟩ | ⟨h, _⟩ | ⟨h, _⟩ | ⟨h, _⟩
  · exact absurd h (by decide)
  · exact absurd h (by decide)
  · exact Or.inl h
  · exact Or.inr h
  · exact absurd h (by decide)
  · exact absurd h (by decide)
  · exact absurd h (by decide)

theorem weight_nil_of_reads (h : ReadsPieces esc [] items) : weight items = 0 := by
  rcases h
  rfl

theorem weight_end_of_reads (h : ReadsPieces esc ['$'] items) : weight items = 0 := by
  rcases h.cons_cases with ⟨h, _⟩ | ⟨_, rest, rfl, hrest⟩ | ⟨h, _⟩ | ⟨h, _⟩ | ⟨h, _⟩ | ⟨h, _⟩ |
    ⟨h, _⟩
  · exact absurd h (by decide)
  · rw [weight_other, weight_nil_of_reads hrest]
  all_goals exact absurd h (by decide)

/-- **The expression never has more letters of some kind than the pattern**, and has fewer
where it keeps a backslash that is not before a character it makes that character. -/
theorem weight_le (h : ReadsPieces esc (compile_loop chars ++ ['$']) items) :
    weight items ≤ weight (glob_items wild chars) ∧
    (escapes_plain chars = false → weight items < weight (glob_items wild chars)) := by
  -- an escape takes several characters, so the induction is on the length
  induction hlength : chars.length using Nat.strong_induction_on generalizing chars items with
  | _ length ih =>
      subst hlength
      rcases pattern_cases chars with rfl | rfl | ⟨c, rest, rfl⟩ | ⟨rest, rfl⟩ | ⟨rest, rfl⟩ |
        ⟨c, rest, rfl, hbackslash, hstar, hquery⟩
      · exact ⟨(weight_end_of_reads h).le, fun hfalse => absurd hfalse (by decide)⟩
      · obtain ⟨_, items', rfl, hrest⟩ | ⟨hletter, _⟩ := reads_backslash h
        · have hzero := weight_nil_of_reads hrest
          have hless : weight (.letter '$' :: items') < weight (glob_items wild ['\\']) := by
            rw [weight_letter, hzero]
            exact Nat.one_pos
          exact ⟨hless.le, fun _ => hless⟩
        · exact absurd hletter (by decide)
      · have hwritten : ReadsPieces esc ('\\' :: c :: (compile_loop rest ++ ['$'])) items := h
        obtain ⟨hescapable, items', rfl, hrest⟩ |
          ⟨hletter, taken, item, items', hreads, rfl, hrest⟩ := reads_backslash hwritten
        · obtain ⟨hle, hless⟩ := ih _ (by grind) hrest rfl
          rw [glob_items, weight_letter, weight_letter, escapes_plain, hescapable, Bool.true_and]
          grind
        · -- what the escape takes is letters of the pattern, and it is at most one of them
          obtain ⟨hloop, hglob⟩ := @compile_loop_letter wild rest c hletter
          obtain ⟨hpos, hle, hletters⟩ := esc.takes hreads
          have hloops : c :: (compile_loop rest ++ ['$']) = compile_loop (c :: rest) ++ ['$'] := by
            rw [hloop, List.cons_append]
          rw [hloops] at hle hletters hrest
          obtain ⟨front, rest', hfront, hlength, hfronts, hdrop⟩ := drop_letters hle hletters
          rw [hdrop] at hrest
          obtain ⟨hrestle, _⟩ :=
            ih _ (by grind) hrest rfl
          have hpattern : weight (glob_items wild ('\\' :: c :: rest)) =
              taken + weight (glob_items wild rest') := by
            rw [glob_items, ← hglob, hfront, weight_letters hfronts, hlength]
          have hitem : weight (item :: items') < taken + weight items' := by
            grind [Escapes.stands, weight_other, weight_letter]
          omega
      · obtain ⟨_, _, hrest⟩ | ⟨chars', items', hchars, rfl, hrest⟩ := reads_point h
        · exact (not_reads_star hrest).elim
        · obtain rfl := (List.cons.inj hchars).2
          exact @ih _ (Nat.lt_succ_self _) items' rest hrest rfl
      · obtain ⟨items', rfl, hrest⟩ | ⟨chars', _, hchars, _⟩ := reads_point h
        · exact @ih _ (Nat.lt_succ_self _) items' rest hrest rfl
        · exact absurd hchars compile_loop_ne_star
      · have hitems : ∃ items', items = .letter c :: items' ∧
            ReadsPieces esc (compile_loop rest ++ ['$']) items' := by
          rw [compile_loop_cons hbackslash hstar hquery] at h
          by_cases hspecial : needs_escape c = true
          · have hescapable := is_escapable_of_needs_escape hspecial
            rw [if_pos hspecial] at h
            obtain ⟨_, h⟩ | ⟨hletter, _⟩ := reads_backslash h
            · exact h
            · rw [not_escapable_of_letter hletter] at hescapable
              exact absurd hescapable Bool.false_ne_true
          · rw [if_neg hspecial] at h
            exact reads_plain (plain_of_not_special hbackslash hstar hquery hspecial) h
        grind [glob_items_cons, escapes_plain_cons, weight_letter]

theorem reads_blind (h : ReadsPieces esc chars items) : BlindRow Alike items := by
  have hcons : ∀ {item : PatternItem Char} {rest : List (PatternItem Char)},
      (∀ piece, item = .other piece → Blind Alike piece) → BlindRow Alike rest →
      BlindRow Alike (item :: rest) := by
    intro item rest hitem hrest piece hpiece
    rcases List.mem_cons.1 hpiece with heq | hpiece
    · exact hitem piece heq.symm
    · exact hrest piece hpiece
  induction h with
  | nil => exact fun piece hpiece => absurd hpiece List.not_mem_nil
  | start _ ih =>
      refine hcons (fun piece hpiece => ?_) ih
      obtain rfl := PatternItem.other.inj hpiece
      rintro before text after before' text' after' hbefore htext _ ⟨rfl, rfl⟩
      exact ⟨List.forall₂_nil_left_iff.1 hbefore, List.forall₂_nil_left_iff.1 htext⟩
  | finish _ ih =>
      refine hcons (fun piece hpiece => ?_) ih
      obtain rfl := PatternItem.other.inj hpiece
      rintro before text after before' text' after' _ htext hafter ⟨rfl, rfl⟩
      exact ⟨List.forall₂_nil_left_iff.1 hafter, List.forall₂_nil_left_iff.1 htext⟩
  | dot _ ih =>
      refine hcons (fun piece hpiece => ?_) ih
      obtain rfl := PatternItem.other.inj hpiece
      rintro before text after before' text' after' _ htext _ ⟨c, hc, rfl⟩
      obtain ⟨d, l, hd, hl, rfl⟩ := List.forall₂_cons_left_iff.1 htext
      obtain rfl := List.forall₂_nil_left_iff.1 hl
      exact ⟨d, hd.of_ne (by decide) hc, rfl⟩
  | dot_star _ ih =>
      refine hcons (fun piece hpiece => ?_) ih
      obtain rfl := PatternItem.other.inj hpiece
      rintro before text after before' text' after' _ htext _ hall
      induction htext with
      | nil => exact fun c hc => absurd hc List.not_mem_nil
      | @cons c d l m hd _ ih =>
          intro e he
          rcases List.mem_cons.1 he with rfl | he
          · exact hd.of_ne (by decide) (hall c List.mem_cons_self)
          · exact ih (fun a ha => hall a (List.mem_cons_of_mem _ ha)) e he
  | plain _ _ ih => grind
  | escaped _ _ ih => grind
  | escape hreads _ ih =>
      grind [Escapes.stands]

/-! ## When a query agrees with its pattern -/

theorem Glob.mono {wild' : Char → Prop} (h : ∀ c, wild c → wild' c) {term : String}
    (hglob : Glob wild pattern term) : Glob wild' pattern term := by
  have hfits : ∀ {chars before text after : List Char},
      FitsPieces (glob_items wild chars) before text after →
      FitsPieces (glob_items wild' chars) before text after := by
    intro chars
    induction chars using pattern_induction with
    | nil => exact fun h => h
    | backslash => exact fun h => h
    | escape c rest ih =>
        intro before text after hfits
        obtain ⟨text', rfl, hrest⟩ := FitsPieces.letter_iff.1 hfits
        exact FitsPieces.letter_iff.2 ⟨text', rfl, ih hrest⟩
    | star rest ih =>
        intro before text after hfits
        obtain ⟨front, text', rfl, hall, hrest⟩ := FitsPieces.cons_iff.1 hfits
        exact .cons (fun c hc => h c (hall c hc)) (ih hrest)
    | query rest ih =>
        intro before text after hfits
        obtain ⟨front, text', rfl, ⟨c, hc, heq⟩, hrest⟩ := FitsPieces.cons_iff.1 hfits
        exact .cons ⟨c, h c hc, heq⟩ (ih hrest)
    | other c rest hbackslash hstar hquery ih =>
        grind [glob_items_cons, FitsPieces.letter_iff]
  exact hfits hglob

theorem exists_glob (pattern : String) : ∃ term, Glob (fun _ => True) pattern term := by
  have hfits : ∀ chars before : List Char, ∃ text,
      FitsPieces (glob_items (fun _ => True) chars) before text [] := by
    intro chars
    induction chars using pattern_induction with
    | nil => exact fun before => ⟨[], .nil⟩
    | backslash => exact fun before => ⟨['\\'], FitsPieces.letter_iff.2 ⟨[], rfl, .nil⟩⟩
    | escape c rest ih =>
        intro before
        obtain ⟨text, htext⟩ := ih (before ++ [c])
        exact ⟨c :: text, FitsPieces.letter_iff.2 ⟨text, rfl, htext⟩⟩
    | star rest ih =>
        intro before
        obtain ⟨text, htext⟩ := ih (before ++ [])
        exact ⟨[] ++ text, .cons (fun c hc => absurd hc List.not_mem_nil) htext⟩
    | query rest ih =>
        intro before
        obtain ⟨text, htext⟩ := ih (before ++ ['a'])
        exact ⟨['a'] ++ text, .cons ⟨'a', trivial, rfl⟩ htext⟩
    | other c rest hbackslash hstar hquery ih =>
        intro before
        obtain ⟨text, htext⟩ := ih (before ++ [c])
        rw [glob_items_cons hbackslash hstar hquery]
        exact ⟨c :: text, FitsPieces.letter_iff.2 ⟨text, rfl, htext⟩⟩
  obtain ⟨text, htext⟩ := hfits pattern.toList []
  refine ⟨String.ofList text, ?_⟩
  rw [Glob, String.toList_ofList]
  exact htext

theorem new_eq_some {field : String} {query : WildcardQuery}
    (h : new compile field pattern = some query) :
    compile (compile_pattern pattern) = some query.regex := by
  obtain ⟨regex, hregex, rfl⟩ := Option.map_eq_some_iff.1 h
  exact hregex

theorem agrees_iff {term : String} : Agrees compile pattern term ↔
    ∀ regex, compile (compile_pattern pattern) = some regex →
      (regex term = true ↔ Glob (fun _ => True) pattern term) := by
  constructor
  · intro h regex hregex
    exact h "" ⟨"", pattern, regex⟩ (by rw [new, hregex]; rfl)
  · intro h field query hquery
    exact h query.regex (new_eq_some hquery)

/-- A query whose escapes are plain matches what the pattern means with wildcards that
stop at the end of a line. -/
theorem regex_iff_glob (hcrate : RegexCrate esc compile)
    (hplain : escapes_plain pattern.toList = true) {regex : Regex}
    (hregex : compile (compile_pattern pattern) = some regex) (term : String) :
    regex term = true ↔ Glob (· ≠ '\n') pattern term := by
  have hreads : ReadsPieces esc (compile_pattern pattern).toList (.other PatternItem.at_start ::
      (glob_items (· ≠ '\n') pattern.toList ++ [.other PatternItem.at_end])) := by
    rw [compile_pattern, String.toList_ofList]
    exact .start (reads_compile_loop hplain (.finish .nil))
  rw [hcrate.reads hreads hregex term]
  exact Found.between_ends_iff

/-- **A query one of whose escapes is not plain matches a term that the pattern does not
mean**, or does not match one that it means. -/
theorem exists_disagrees (hcrate : RegexCrate esc compile)
    (hplain : escapes_plain pattern.toList = false) {regex : Regex}
    (hregex : compile (compile_pattern pattern) = some regex) :
    ∃ term, ¬ (regex term = true ↔ Glob (fun _ => True) pattern term) := by
  have hsimple : Simple (compile_pattern pattern).toList := by
    rw [compile_pattern, String.toList_ofList]
    exact .anchor (Or.inl rfl) (simple_compile_loop pattern.toList)
  obtain ⟨items, hreads⟩ : ∃ items, ReadsPieces esc (compile_pattern pattern).toList items := by
    grind [RegexCrate.refuses]
  have hmeans := hcrate.reads hreads hregex
  by_cases hfound : ∃ text, Found items text
  · obtain ⟨text, htext⟩ := hfound
    obtain ⟨c, hkind, hless⟩ : ∃ c, (of_char c).isSome = true ∧
        (letters items).count c <
          (letters (glob_items (fun _ => True) pattern.toList)).count c := by
      refine exists_count_lt ?_
      rw [compile_pattern, String.toList_ofList] at hreads
      rcases hreads.cons_cases with ⟨_, rest, rfl, hrest⟩ | ⟨h, _⟩ | ⟨h, _⟩ | ⟨h, _⟩ | ⟨h, _⟩ |
        ⟨h, _⟩ | ⟨h, _⟩
      · exact (weight_le hrest).2 hplain
      all_goals exact absurd h (by decide)
    obtain ⟨f, hf, hne⟩ := exists_exchange hkind
    obtain ⟨text', hfound', hother⟩ :=
      htext.exists_not_fits (reads_blind hreads) hf Alike.refl hne hless
    refine ⟨String.ofList text', fun hiff => hother ?_⟩
    grind [String.toList_ofList, Glob]
  · obtain ⟨term, hterm⟩ := exists_glob pattern
    grind

/-- **A query agrees with a pattern whose escapes are plain on a term unless some wildcard
has to stand for the end of a line there. Where an escape is not plain, it agrees on every
term only if it is refused.** -/
theorem agrees_spec (hcrate : RegexCrate esc compile) (pattern : String) :
    (escapes_plain pattern.toList = true → ∀ term, Agrees compile pattern term ↔
      compile (compile_pattern pattern) = none ∨
      (Glob (fun _ => True) pattern term → Glob (· ≠ '\n') pattern term)) ∧
    (escapes_plain pattern.toList = false → ((∀ term, Agrees compile pattern term) ↔
      compile (compile_pattern pattern) = none)) := by
  constructor
  · intro hplain term
    rw [agrees_iff]
    rcases hregex : compile (compile_pattern pattern) with _ | regex
    · exact ⟨fun _ => Or.inl rfl, fun _ _ h => absurd h.symm (Option.some_ne_none _)⟩
    have hiff := regex_iff_glob hcrate hplain hregex term
    constructor
    · exact fun h => Or.inr fun hglob => hiff.1 ((h regex rfl).2 hglob)
    · rintro (h | h) regex' heq
      · exact absurd h (Option.some_ne_none _)
      · obtain rfl := Option.some.inj heq
        exact hiff.trans ⟨fun hglob => hglob.mono fun _ _ => trivial, h⟩
  · intro hplain
    constructor
    · intro hall
      by_contra hsome
      obtain ⟨regex, hregex⟩ := Option.ne_none_iff_exists'.1 hsome
      obtain ⟨term, hterm⟩ := exists_disagrees hcrate hplain hregex
      exact hterm (agrees_iff.1 (hall term) regex hregex)
    · intro hnone term
      rw [agrees_iff, hnone]
      exact fun regex h => absurd h.symm (Option.some_ne_none _)

/-- A crate with no further escapes. -/
def no_escapes : Escapes where
  reads _ := none
  takes h := absurd h.symm (Option.some_ne_none _)
  stands h := absurd h.symm (Option.some_ne_none _)

/-- The crate, as it reads `^.$`. -/
def any_char (text : String) : Option Regex :=
  if text = "^.$" then some fun term => term.toList.length = 1 && !term.toList.contains '\n'
  else none

theorem reads_any_char (h : ReadsPieces no_escapes "^.$".toList items) :
    items = .other PatternItem.at_start :: ([dot] ++ [.other PatternItem.at_end]) := by
  have hend : ∀ {items : List (PatternItem Char)}, ReadsPieces no_escapes ['$'] items →
      items = [.other PatternItem.at_end] := by
    intro items h
    rcases h.cons_cases with ⟨h, _⟩ | ⟨_, rest, rfl, hrest⟩ | ⟨h, _⟩ | ⟨h, _⟩ | ⟨h, _⟩ | ⟨h, _⟩ |
      ⟨h, _⟩
    · exact absurd h (by decide)
    · rcases hrest
      rfl
    all_goals exact absurd h (by decide)
  have htext : "^.$".toList = ['^', '.', '$'] := by decide
  rw [htext] at h
  rcases h.cons_cases with ⟨_, rest, rfl, hrest⟩ | ⟨h, _⟩ | ⟨h, _⟩ | ⟨h, _⟩ | ⟨h, _⟩ | ⟨h, _⟩ |
    ⟨h, _⟩
  · grind [reads_point]
  all_goals exact absurd h (by decide)

theorem any_char_crate : RegexCrate no_escapes any_char where
  reads := by
    intro text items regex hreads hregex term
    by_cases htext : text = "^.$"
    · subst htext
      obtain rfl := reads_any_char hreads
      obtain rfl := Option.some.inj hregex
      rw [Found.between_ends_iff, Bool.and_eq_true, decide_eq_true_iff, Bool.not_eq_true',
        FitsPieces.cons_iff]
      constructor
      · rintro ⟨hone, hline⟩
        obtain ⟨c, hc⟩ := List.length_eq_one_iff.1 hone
        rw [hc] at hline ⊢
        refine ⟨[c], [], rfl, ⟨c, ?_, rfl⟩, .nil⟩
        grind
      · rintro ⟨front, rest, htext, ⟨c, hc, rfl⟩, hrest⟩
        obtain rfl := FitsPieces.nil_iff.1 hrest
        grind
    · rw [any_char, if_neg htext] at hregex
      grind
  refuses := by
    intro text _ hnone
    refine if_neg ?_
    rintro rfl
    exact hnone _ (.start (.dot (.finish .nil)))

theorem agrees_spec_any_char : RegexCrate no_escapes any_char ∧
    (escapes_plain "?".toList = true → ∀ term, Agrees any_char "?" term ↔
      any_char (compile_pattern "?") = none ∨
      (Glob (fun _ => True) "?" term → Glob (· ≠ '\n') "?" term)) ∧
    (escapes_plain "?".toList = false → ((∀ term, Agrees any_char "?" term) ↔
      any_char (compile_pattern "?") = none)) :=
  ⟨any_char_crate, agrees_spec any_char_crate "?"⟩

theorem agrees_spec_counterexample :
    ¬ ∀ (esc : Escapes) (compile : String → Option Regex), RegexCrate esc compile →
      ∀ pattern term, Agrees compile pattern term := by
  intro h
  have hone : Glob (fun _ => True) "?" "\n" :=
    FitsPieces.cons_iff.2 ⟨['\n'], [], by decide, ⟨'\n', trivial, rfl⟩, .nil⟩
  have hmatch := (agrees_iff.1 (h no_escapes any_char any_char_crate "?" "\n") _ rfl).2 hone
  exact absurd hmatch (by decide)

end WildcardQuery

end Laurus
