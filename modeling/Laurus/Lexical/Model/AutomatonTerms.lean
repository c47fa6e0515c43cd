import Laurus.Reader.Model.Segment

/-!
# Terms that a regular expression matches (`inverted/core/automaton.rs`)

The `regex` crate is the parameter `compile`: a pattern that it accepts, as what it
matches. The inner enumeration is the sorted list it behaves as: `seek` puts it at the
first term that is not less, and `next` goes on by one.
-/

namespace Laurus

/-- `regex::Regex`: what a pattern that compiles matches. -/
abbrev Regex := String → Bool

/-- A `TermsEnum` over a list of terms, with those still to come. -/
structure SortedTermsEnum where
  terms : List TermStats
  rest : List TermStats

namespace SortedTermsEnum

/-- The enumeration of a dictionary. -/
def iterator (terms : List TermStats) : SortedTermsEnum := { terms, rest := terms }

/-- `seek`. -/
def seek (e : SortedTermsEnum) (target : String) : Bool × SortedTermsEnum :=
  let rest := e.terms.dropWhile fun stats => stats.term < target
  (rest.head?.any fun stats => stats.term = target, { e with rest })

end SortedTermsEnum

/-- `RegexAutomaton`. -/
structure RegexAutomaton where
  regex : Regex
  pattern : String
  initial_seek_term : Option String

namespace RegexAutomaton

/-- The characters that are special in a pattern. -/
def is_special (c : Char) : Bool :=
  ['.', '+', '*', '?', '(', ')', '|', '[', ']', '{', '}', '^', '$'].contains c

/-- The loop of `extract_prefix`, after `prefix` and, if `escaped`, a backslash. -/
def prefix_loop : List Char → Bool → List Char → List Char
  | text, _, [] => text
  | text, true, c :: chars => prefix_loop (text ++ [c]) false chars
  | text, false, c :: chars =>
    if c = '\\' then prefix_loop text true chars
    else if is_special c then text
    else prefix_loop (text ++ [c]) false chars

/-- `extract_prefix`. -/
def extract_prefix (pattern : String) : Option String :=
  match pattern.toList with
  | '^' :: chars =>
    let text := prefix_loop [] false chars
    if text.isEmpty then none else some (String.ofList text)
  | _ => none

/-- `from_regex`. -/
def from_regex (regex : Regex) (pattern : String) : RegexAutomaton :=
  { regex, pattern, initial_seek_term := extract_prefix pattern }

end RegexAutomaton

/-- `AutomatonTermsEnum`, over a list of terms. -/
structure AutomatonTermsEnum where
  inner : SortedTermsEnum
  automaton : RegexAutomaton
  max_matches : Option ℕ
  matches_found : ℕ

namespace AutomatonTermsEnum

/-- `AutomatonTermsEnum::new`. -/
def new (inner : SortedTermsEnum) (automaton : RegexAutomaton) : AutomatonTermsEnum :=
  { inner, automaton, max_matches := none, matches_found := 0 }

/-- `str::starts_with`. -/
def starts_with (term text : String) : Bool := text.toList.isPrefixOf term.toList

/-- The loop of `next` over the terms still to come: the match, if there is one, and the
terms after what was read. -/
def next_match (automaton : RegexAutomaton) : List TermStats → Option TermStats × List TermStats
  | [] => (none, [])
  | term_stats :: rest =>
    if automaton.regex term_stats.term then (some term_stats, rest)
    else if automaton.initial_seek_term.any fun text => !starts_with term_stats.term text then
      (none, rest)
    else next_match automaton rest

/-- `next`. -/
def next (e : AutomatonTermsEnum) : Option TermStats × AutomatonTermsEnum :=
  if e.max_matches.any fun max => max ≤ e.matches_found then (none, e)
  else
    let inner := match e.automaton.initial_seek_term with
      | some seek_term => if e.matches_found = 0 then (e.inner.seek seek_term).2 else e.inner
      | none => e.inner
    let found := next_match e.automaton inner.rest
    (found.1,
      { e with
        inner := { inner with rest := found.2 }
        matches_found := if found.1.isSome then e.matches_found + 1 else e.matches_found })

/-- What a loop over `next` yields. -/
inductive Yields : AutomatonTermsEnum → List TermStats → Prop
  | done {e : AutomatonTermsEnum} : e.next.1 = none → Yields e []
  | more {e : AutomatonTermsEnum} {stats : TermStats} {out : List TermStats} :
      e.next.1 = some stats → Yields e.next.2 out → Yields e (stats :: out)

end AutomatonTermsEnum

/-!
## Wildcard queries (`query/wildcard.rs`)

The `regex` crate is the parameter `compile`.
-/

/-- `WildcardQuery`. -/
structure WildcardQuery where
  field : String
  pattern : String
  regex : Regex

namespace WildcardQuery

/-- The characters that `compile_pattern` escapes. -/
def needs_escape (c : Char) : Bool :=
  ['^', '$', '.', '+', '(', ')', '[', ']', '{', '}', '|'].contains c

/-- The loop of `compile_pattern`. -/
def compile_loop : List Char → List Char
  | [] => []
  | ['\\'] => ['\\']
  | '\\' :: c :: chars => '\\' :: c :: compile_loop chars
  | '*' :: chars => '.' :: '*' :: compile_loop chars
  | '?' :: chars => '.' :: compile_loop chars
  | c :: chars =>
    if needs_escape c then '\\' :: c :: compile_loop chars else c :: compile_loop chars

/-- `compile_pattern`. -/
def compile_pattern (pattern : String) : String :=
  String.ofList ('^' :: (compile_loop pattern.toList ++ ['$']))

/-- `new`. -/
def new (compile : String → Option Regex) (field pattern : String) : Option WildcardQuery :=
  (compile (compile_pattern pattern)).map fun regex => { field, pattern, regex }

end WildcardQuery

end Laurus
