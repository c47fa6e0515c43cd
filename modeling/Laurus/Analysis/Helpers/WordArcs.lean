import Laurus.Analysis.Helpers.Layout
import Laurus.Common.ArcPath
import Mathlib.Data.List.Range

/-!
# The arcs of a token graph, each with its word

Below the limit the arcs of a stream are numbered one token after the other
(`Below.word_arcs_eq`), so those of two streams, one after the other, are those of the
first and, from where it stopped, those of the second (`arcs_from_append`).
-/

namespace Laurus

open ArcPath

/-- A token and its arc. -/
abbrev WordArc := Token × ℕ × ℕ

namespace WordArc

/-- The node an arc leaves. -/
def source (arc : WordArc) : ℕ := arc.2.1

/-- The node an arc reaches. -/
def target (arc : WordArc) : ℕ := arc.2.2

/-- The word on an arc. -/
def text (arc : WordArc) : String := arc.1.text

end WordArc

/-- The arcs of a token graph. -/
def word_arcs (graph : List Token) : List WordArc := graph.zip (token_arcs graph)

/-- The last node of a token graph. -/
def graph_end (graph : List Token) : ℕ := (((token_arcs graph).map Prod.snd).max?).getD 0

/-- A path from the first node of a token graph to the last. -/
def FirstToLast (graph : List Token) (path : List WordArc) : Prop :=
  PathOf WordArc.source WordArc.target (word_arcs graph) 0 path (graph_end graph)

/-- The word sequence of a path. -/
def spelling (path : List WordArc) : List String := path.map WordArc.text

/-! ## Numbering -/

/-- The node of a token, after one at `previous`. -/
def node_after (previous : Option ℕ) (token : Token) : ℕ :=
  match previous with
  | none => 0
  | some node => if token.position_increment = 0 then node else node + 1

/-- The arcs of tokens after one at `previous`. -/
def arcs_from : Option ℕ → List Token → List WordArc
  | _, [] => []
  | previous, token :: tokens =>
    (token, node_after previous token,
      node_after previous token + max token.position_length 1) ::
      arcs_from (some (node_after previous token)) tokens

/-- The node of the last of tokens, after one at `previous`. -/
def stops_at (previous : Option ℕ) (tokens : List Token) : Option ℕ :=
  tokens.foldl (fun previous token => some (node_after previous token)) previous

variable {previous : Option ℕ} {xs ys tokens : List Token} {q : ℕ}

theorem node_after_of_ne {token : Token} (h : token.position_increment ≠ 0) :
    node_after (some q) token = q + 1 := if_neg h

theorem arcs_from_cons {token : Token} {node : ℕ} (hnode : node_after previous token = node)
    (hlength : 1 ≤ token.position_length) : arcs_from previous (token :: tokens) =
      (token, node, node + token.position_length) :: arcs_from (some node) tokens := by
  rw [arcs_from, hnode, Nat.max_eq_left hlength]

theorem arcs_from_append (previous : Option ℕ) (xs ys : List Token) :
    arcs_from previous (xs ++ ys) =
      arcs_from previous xs ++ arcs_from (stops_at previous xs) ys := by
  induction xs generalizing previous with
  | nil => rfl
  | cons token xs ih => rw [List.cons_append, arcs_from, ih, arcs_from, List.cons_append]; rfl

theorem stops_at_append (previous : Option ℕ) (xs ys : List Token) :
    stops_at previous (xs ++ ys) = stops_at (stops_at previous xs) ys := List.foldl_append

theorem length_arcs_from (previous : Option ℕ) (tokens : List Token) :
    (arcs_from previous tokens).length = tokens.length := by
  induction tokens generalizing previous with
  | nil => rfl
  | cons token tokens ih => rw [arcs_from, List.length_cons, ih, List.length_cons]

theorem map_token_arcs_from (previous : Option ℕ) (tokens : List Token) :
    (arcs_from previous tokens).map Prod.fst = tokens := by
  induction tokens generalizing previous with
  | nil => rfl
  | cons token tokens ih => rw [arcs_from, List.map_cons, ih]

theorem map_text_arcs_from (previous : Option ℕ) (tokens : List Token) :
    (arcs_from previous tokens).map WordArc.text = tokens.map Token.text := by
  have htext : WordArc.text = Token.text ∘ Prod.fst := rfl
  rw [htext, ← List.map_map, map_token_arcs_from]

theorem forward_arcs_from (previous : Option ℕ) (tokens : List Token) :
    Forward WordArc.source WordArc.target (arcs_from previous tokens) := by
  induction tokens generalizing previous with
  | nil => exact fun a ha => absurd ha List.not_mem_nil
  | cons token tokens ih =>
      refine List.forall_mem_cons.2 ⟨?_, ih _⟩
      exact Nat.lt_add_of_pos_right (Nat.lt_of_lt_of_le Nat.zero_lt_one (Nat.le_max_right _ _))

theorem map_source_arcs_from (h : ∀ token ∈ tokens, token.position_increment ≠ 0) :
    (arcs_from (some q) tokens).map WordArc.source = List.range' (q + 1) tokens.length := by
  induction tokens generalizing q with
  | nil => rfl
  | cons token tokens ih =>
      rw [List.forall_mem_cons] at h
      rw [arcs_from, node_after_of_ne h.1, List.map_cons, ih h.2, List.length_cons, List.range'_succ]
      rfl

theorem stops_at_of_increments (h : ∀ token ∈ tokens, token.position_increment ≠ 0) :
    stops_at (some q) tokens = some (q + tokens.length) := by
  induction tokens generalizing q with
  | nil => rfl
  | cons token tokens ih =>
      rw [List.forall_mem_cons] at h
      have hstep : stops_at (some q) (token :: tokens) = stops_at (some (q + 1)) tokens := by
        rw [← node_after_of_ne h.1]
        rfl
      rw [hstep, ih h.2, List.length_cons]
      congr 1
      omega

/-! ## Below the limit -/

theorem le_of_mem_positions_from {p : ℕ} (h : p ∈ positions_from (some q) tokens) :
    p ≤ q + tokens.length := by
  induction tokens generalizing q with
  | nil => exact absurd h List.not_mem_nil
  | cons token tokens ih =>
      have hassign : assign (some q) token ≤ q + 1 := by
        grind [assign, u32_saturating_add]
      rw [List.length_cons]
      rcases List.mem_cons.1 h with rfl | h
      · omega
      · have hle := ih h
        omega

theorem lt_of_mem_token_positions {p : ℕ} (h : p ∈ token_positions tokens) :
    p < tokens.length := by
  rcases tokens with _ | ⟨token, tokens⟩
  · exact absurd h List.not_mem_nil
  · rw [List.length_cons]
    rcases List.mem_cons.1 h with rfl | h
    · exact Nat.zero_lt_succ _
    · have hle : p ≤ 0 + tokens.length := le_of_mem_positions_from h
      omega

theorem zip_positions_eq (h : ∀ entry ∈ tokens.zip (positions_from previous tokens),
      entry.2 + max entry.1.position_length 1 ≤ MAX_POSITION) :
    (tokens.zip ((tokens.zip (positions_from previous tokens)).map fun entry =>
      (entry.2, u32_saturating_add entry.2 entry.1.span))) = arcs_from previous tokens := by
  induction tokens generalizing previous with
  | nil => rfl
  | cons token tokens ih =>
      rw [positions_from, List.zip_cons_cons, List.forall_mem_cons] at h
      have hassign : assign previous token = node_after previous token := by
        rcases previous with _ | q
        · rfl
        · rw [assign, node_after, u32_saturating_add] at *
          grind
      have hspan : u32_saturating_add (assign previous token) token.span =
          assign previous token + max token.position_length 1 := by
        grind [u32_saturating_add, Token.span]
      grind [positions_from, arcs_from]

/-- **Below the limit arcs are numbered one after the other.** -/
theorem Below.word_arcs_eq (h : Below tokens) : word_arcs tokens = arcs_from none tokens :=
  zip_positions_eq h

theorem map_snd_word_arcs (tokens : List Token) :
    (word_arcs tokens).map Prod.snd = token_arcs tokens :=
  List.map_snd_zip (Nat.le_of_eq (length_token_arcs tokens))

theorem graph_end_eq {n : ℕ} (hle : ∀ a ∈ word_arcs tokens, WordArc.target a ≤ n)
    (hsome : ∃ a ∈ word_arcs tokens, WordArc.target a = n) : graph_end tokens = n := by
  have hmax : ((token_arcs tokens).map Prod.snd).max? = some n := by
    rw [← map_snd_word_arcs, List.map_map, List.max?_eq_some_iff]
    refine ⟨?_, fun k hk => ?_⟩
    · obtain ⟨a, ha, rfl⟩ := hsome
      exact List.mem_map_of_mem ha
    · obtain ⟨a, ha, rfl⟩ := List.mem_map.1 hk
      exact hle a ha
  rw [graph_end, hmax, Option.getD_some]

open Depth in
/-- Where every arc leaves the first node or where another ends, what steps count are
the arcs of a path. -/
theorem comes_iff {steps n : ℕ}
    (hreached : ∀ a ∈ word_arcs tokens, a.source = 0 ∨ ∃ b ∈ word_arcs tokens,
      b.target = a.source) :
    Comes (ArcStep (token_arcs tokens)) steps n ↔ ∃ p,
      PathOf WordArc.source WordArc.target (word_arcs tokens) 0 p n ∧ p.length = steps := by
  constructor
  · intro h
    induction h with
    | start => exact ⟨[], .nil _ _, rfl⟩
    | step _ hstep ih =>
        obtain ⟨p, hp, rfl⟩ := ih
        rcases hstep with harc | ⟨hnext, hstarts, hnone⟩
        · rw [← map_snd_word_arcs] at harc
          obtain ⟨a, ha, heq⟩ := List.mem_map.1 harc
          have hsource : WordArc.source a = _ := congrArg Prod.fst heq
          have htarget : WordArc.target a = _ := congrArg Prod.snd heq
          dsimp only at hsource htarget
          rw [← hsource] at hp
          rw [← htarget]
          exact ⟨p ++ [a], hp.append (.single ha), List.length_append⟩
        · rw [← map_snd_word_arcs, List.map_map] at hstarts
          obtain ⟨a, ha, hsource⟩ := List.mem_map.1 hstarts
          rcases hreached a ha with hzero | ⟨b, hb, htarget⟩
          · have heq : WordArc.source a = _ := hsource
            omega
          · refine absurd (htarget.trans hsource) (hnone b.2 ?_)
            rw [← map_snd_word_arcs]
            exact List.mem_map_of_mem hb
  · rintro ⟨p, hp, rfl⟩
    induction p using List.reverseRecOn generalizing n with
    | nil =>
        obtain rfl : 0 = n := hp.isPath
        exact .start
    | append_singleton p a ih =>
        obtain ⟨hpath, rfl⟩ := isPath_concat.1 hp.isPath
        have ha := hp.sub a (List.mem_append_right _ (List.mem_singleton_self a))
        rw [List.length_append]
        refine (ih ⟨hpath, fun b hb => hp.sub b (List.mem_append_left _ hb)⟩).step (Or.inl ?_)
        rw [← map_snd_word_arcs]
        exact List.mem_map_of_mem ha

theorem word_arcs_append (xs ys : List Token) :
    ∃ rest, word_arcs (xs ++ ys) = word_arcs xs ++ rest := by
  have hpositions : ∀ (previous : Option ℕ) (xs : List Token), ∃ rest,
      positions_from previous (xs ++ ys) = positions_from previous xs ++ rest := by
    intro previous xs
    induction xs generalizing previous with
    | nil => exact ⟨_, rfl⟩
    | cons token xs ih =>
        obtain ⟨rest, hrest⟩ := ih (some (assign previous token))
        exact ⟨rest, by grind [positions_from]⟩
  obtain ⟨rest, hrest⟩ := hpositions none xs
  have hlength : xs.length = (positions_from none xs).length :=
    (length_positions_from xs none).symm
  have harcs : token_arcs (xs ++ ys) = token_arcs xs ++ (ys.zip rest).map fun entry =>
      (entry.2, u32_saturating_add entry.2 entry.1.span) := by
    rw [token_arcs, token_positions, hrest, List.zip_append hlength, List.map_append]
    rfl
  rw [word_arcs, harcs, List.zip_append (length_token_arcs xs).symm]
  exact ⟨_, rfl⟩

end Laurus
