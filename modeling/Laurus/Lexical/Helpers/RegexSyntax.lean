import Laurus.Common.Pieces
import Laurus.Lexical.Model.AutomatonTerms

/-!
# The part of the syntax of regular expressions that wildcards use

A text without groups, classes in brackets or repetitions other than `.*` is a row of
items: letters, `.` and `.*`, the two anchors, and escapes. A backslash before a character
that is neither a letter, a digit nor an angle stands for that character. The crate's
other escapes (classes, word boundaries, codes of characters) are a parameter with what
is documented of all of them: which characters they are written with, and that none tells
a digit from another, or a small letter from another, and so on.
-/

namespace Laurus

/-- The kinds of letters that no escape tells apart. -/
inductive LetterKind
  | digit
  | lower
  | upper
  | angle
  | slash
  deriving DecidableEq

namespace LetterKind

/-- The kind of a letter. -/
def of_char (c : Char) : Option LetterKind :=
  if c.isDigit then some digit
  else if c.isLower then some lower
  else if c.isUpper then some upper
  else if c = '<' ∨ c = '>' then some angle
  else if c = '\\' ∨ c = '/' then some slash
  else none

/-- Two letters of a kind. -/
def letters_of : LetterKind → Char × Char
  | digit => ('0', '1')
  | lower => ('a', 'b')
  | upper => ('A', 'B')
  | angle => ('<', '>')
  | slash => ('\\', '/')

/-- Letters that are the same or of the same kind. -/
def Alike (c d : Char) : Prop := c = d ∨ (of_char c).isSome ∧ of_char c = of_char d

theorem Alike.refl (c : Char) : Alike c c := Or.inl rfl

/-- **A letter of a kind can be exchanged for another of the kind.** -/
theorem exists_exchange {c : Char} (h : (of_char c).isSome) :
    ∃ f : Char → Char, (∀ d, Alike d (f d)) ∧ ∀ d, f d ≠ c := by
  obtain ⟨kind, hkind⟩ := Option.isSome_iff_exists.1 h
  obtain ⟨twin, hne, htwin⟩ : ∃ twin, twin ≠ c ∧ of_char twin = some kind := by
    by_cases hfirst : kind.letters_of.1 = c
    · refine ⟨kind.letters_of.2, ?_, ?_⟩
      · rw [← hfirst]
        rcases kind <;> decide
      · rcases kind <;> decide
    · refine ⟨kind.letters_of.1, hfirst, ?_⟩
      rcases kind <;> decide
  refine ⟨fun d => if d = c then twin else d, fun d => ?_, fun d => ?_⟩
  · by_cases hd : d = c
    · simp only [if_pos hd]
      exact Or.inr ⟨hd ▸ h, hd ▸ hkind.trans htwin.symm⟩
    · simp only [if_neg hd]
      exact Alike.refl d
  grind

theorem Alike.of_ne {c d e : Char} (h : Alike c d) (hkind : of_char e = none) (hc : c ≠ e) :
    d ≠ e := by
  rintro rfl
  rcases h with rfl | ⟨hsome, heq⟩
  · exact hc rfl
  grind

end LetterKind

open LetterKind

/-- What a backslash before a character makes that character. -/
def is_escapable (c : Char) : Bool :=
  decide (c.toNat < 128) && !c.isAlphanum && c != '<' && c != '>'

/-- What the crate's escapes are written with. -/
def is_escape_letter (c : Char) : Bool := c.isAlphanum || c == '<' || c == '>'

/-- The characters that a pattern reads specially, outside brackets. -/
def is_meta (c : Char) : Bool :=
  ['\\', '.', '+', '*', '?', '(', ')', '|', '[', ']', '{', '}', '^', '$'].contains c

/-- The crate's other escapes: of the text after a backslash, how many characters it takes
and what it stands for. -/
structure Escapes where
  reads : List Char → Option (ℕ × PatternItem Char)
  takes : ∀ {chars taken item}, reads chars = some (taken, item) →
    0 < taken ∧ taken ≤ chars.length ∧ ∀ c ∈ chars.take taken, is_escape_letter c = true
  stands : ∀ {chars taken item}, reads chars = some (taken, item) →
    (∃ piece, item = .other piece ∧ Blind Alike piece) ∨
    ∃ d, item = .letter d ∧ ((of_char d).isSome → 1 < taken)

/-- `.`, which stands for anything but the end of a line. -/
abbrev dot : PatternItem Char := .other (PatternItem.one_of (· ≠ '\n'))

/-- `.*`. -/
abbrev dot_star : PatternItem Char := .other (PatternItem.run_of (· ≠ '\n'))

/-- A text is read as a row of items. -/
inductive ReadsPieces (esc : Escapes) : List Char → List (PatternItem Char) → Prop
  | nil : ReadsPieces esc [] []
  | start {chars : List Char} {items : List (PatternItem Char)} : ReadsPieces esc chars items →
      ReadsPieces esc ('^' :: chars) (.other PatternItem.at_start :: items)
  | finish {chars : List Char} {items : List (PatternItem Char)} : ReadsPieces esc chars items →
      ReadsPieces esc ('$' :: chars) (.other PatternItem.at_end :: items)
  | dot {chars : List Char} {items : List (PatternItem Char)} : ReadsPieces esc chars items →
      ReadsPieces esc ('.' :: chars) (dot :: items)
  | dot_star {chars : List Char} {items : List (PatternItem Char)} : ReadsPieces esc chars items →
      ReadsPieces esc ('.' :: '*' :: chars) (dot_star :: items)
  | plain {c : Char} {chars : List Char} {items : List (PatternItem Char)} : is_meta c = false →
      ReadsPieces esc chars items → ReadsPieces esc (c :: chars) (.letter c :: items)
  | escaped {c : Char} {chars : List Char} {items : List (PatternItem Char)} :
      is_escapable c = true → ReadsPieces esc chars items →
      ReadsPieces esc ('\\' :: c :: chars) (.letter c :: items)
  | escape {chars : List Char} {taken : ℕ} {item : PatternItem Char} {items : List (PatternItem Char)} :
      esc.reads chars = some (taken, item) → ReadsPieces esc (chars.drop taken) items →
      ReadsPieces esc ('\\' :: chars) (item :: items)

/-- A text without groups, brackets or repetitions other than `.*`. -/
inductive Simple : List Char → Prop
  | nil : Simple []
  | anchor {c : Char} {chars : List Char} : c = '^' ∨ c = '$' → Simple chars → Simple (c :: chars)
  | dot {chars : List Char} : Simple chars → Simple ('.' :: chars)
  | dot_star {chars : List Char} : Simple chars → Simple ('.' :: '*' :: chars)
  | plain {c : Char} {chars : List Char} : is_meta c = false → Simple chars → Simple (c :: chars)
  | backslash {c : Char} {chars : List Char} : Simple chars → Simple ('\\' :: c :: chars)

/-- What is documented of the crate: what it accepts it matches as it is read, and a simple
text that cannot be read it refuses. -/
structure RegexCrate (esc : Escapes) (compile : String → Option Regex) : Prop where
  reads : ∀ {text items regex}, ReadsPieces esc text.toList items → compile text = some regex →
    ∀ term, regex term = true ↔ Found items term.toList
  refuses : ∀ {text}, Simple text.toList → (∀ items, ¬ ReadsPieces esc text.toList items) →
    compile text = none

variable {esc : Escapes} {chars : List Char} {items : List (PatternItem Char)}

theorem ReadsPieces.cons_cases {c : Char} (h : ReadsPieces esc (c :: chars) items) :
    (c = '^' ∧ ∃ rest, items = .other PatternItem.at_start :: rest ∧ ReadsPieces esc chars rest) ∨
    (c = '$' ∧ ∃ rest, items = .other PatternItem.at_end :: rest ∧ ReadsPieces esc chars rest) ∨
    (c = '.' ∧ ∃ rest, items = Laurus.dot :: rest ∧ ReadsPieces esc chars rest) ∨
    (c = '.' ∧ ∃ chars' rest, chars = '*' :: chars' ∧ items = Laurus.dot_star :: rest ∧
      ReadsPieces esc chars' rest) ∨
    (is_meta c = false ∧ ∃ rest, items = .letter c :: rest ∧ ReadsPieces esc chars rest) ∨
    (c = '\\' ∧ ∃ d chars' rest, chars = d :: chars' ∧ is_escapable d = true ∧
      items = .letter d :: rest ∧ ReadsPieces esc chars' rest) ∨
    (c = '\\' ∧ ∃ taken item rest, esc.reads chars = some (taken, item) ∧
      items = item :: rest ∧ ReadsPieces esc (chars.drop taken) rest) := by
  rcases h with _ | h | h | h | h | ⟨hplain, h⟩ | ⟨hescapable, h⟩ | ⟨hreads, h⟩
  · exact Or.inl ⟨rfl, _, rfl, h⟩
  · exact Or.inr (Or.inl ⟨rfl, _, rfl, h⟩)
  · grind
  · grind
  · grind
  · grind
  grind

end Laurus
