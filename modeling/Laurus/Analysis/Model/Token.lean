import Laurus.Common.SortDedup
import Mathlib.Data.List.AList
import Mathlib.Data.List.Sort

/-!
# The token graph (`analysis/token.rs`)

A token is an arc of a graph, from the node it is numbered with to the node
`position_length` on. Left out of a token are its boost and its metadata but for
the type: nothing here reads them. Positions are `u32`, whose sums saturate.
-/

namespace Laurus

/-- `TokenType`. -/
inductive TokenType
  | Alphanum | Num | Cjk | Katakana | Hiragana | Hangul | Punctuation | Whitespace | Synonym
  | Email | Url | Other
  deriving DecidableEq, Repr

/-- `Token`. -/
structure Token where
  text : String
  position : ℕ
  start_offset : ℕ := 0
  end_offset : ℕ := 0
  stopped : Bool := false
  token_type : Option TokenType := none
  position_increment : ℕ := 1
  position_length : ℕ := 1
  deriving DecidableEq, Repr

/-- `u32::MAX`, for positions. -/
def MAX_POSITION : ℕ := 4294967295

/-- `u32::u32_saturating_add`. -/
def u32_saturating_add (a b : ℕ) : ℕ := min (a + b) MAX_POSITION

/-- `TokenPositions::assign`. -/
def assign (current : Option ℕ) (token : Token) : ℕ :=
  match current with
  | none => 0
  | some current =>
    if token.position_increment = 0 then current else u32_saturating_add current 1

/-- The positions of tokens after one at `current`. -/
def positions_from : Option ℕ → List Token → List ℕ
  | _, [] => []
  | current, token :: tokens =>
    assign current token :: positions_from (some (assign current token)) tokens

/-- `token_positions`. -/
def token_positions (tokens : List Token) : List ℕ := positions_from none tokens

/-- The positions a token spans: a length below 1 is 1. -/
def Token.span (token : Token) : ℕ := min (max token.position_length 1) MAX_POSITION

/-- `token_arcs`. -/
def token_arcs (tokens : List Token) : List (ℕ × ℕ) :=
  (tokens.zip (token_positions tokens)).map fun entry =>
    (entry.2, u32_saturating_add entry.2 entry.1.span)

/-! ## Laying out -/

/-- What `flatten_token_graph`'s first loop keeps. -/
structure Layout where
  /-- The new position of each node an arc reaches, so far. -/
  reached : AList fun _ : ℕ => ℕ
  /-- The node before and its new position. -/
  previous : Option (ℕ × ℕ)
  /-- The new position of each token, and the node it reaches. -/
  arcs : List (ℕ × ℕ)

namespace Layout

/-- The new position of a node. -/
def position (layout : Layout) (node : ℕ) : ℕ :=
  match layout.previous with
  | none => 0
  | some (previous_node, position) =>
    if previous_node = node then position
    else (layout.reached.lookup node).getD (u32_saturating_add position 1)

/-- One turn of the loop. -/
def step (layout : Layout) (arc : ℕ × ℕ) : Layout :=
  let start := layout.position arc.1
  { reached := layout.reached.insert arc.2
      (max ((layout.reached.lookup arc.2).getD 0) (u32_saturating_add start 1))
    previous := some (arc.1, start)
    arcs := layout.arcs ++ [(start, arc.2)] }

/-- The loop. -/
def run (arcs : List (ℕ × ℕ)) : Layout :=
  arcs.foldl step { reached := ∅, previous := none, arcs := [] }

end Layout

/-- A token that is laid out: its first position and the one after its last. -/
structure LaidOut where
  token : Token
  start : ℕ
  stop : ℕ
  deriving DecidableEq, Repr

/-- The increment of a token at `start`, after one at `previous`. -/
def increment (previous : Option ℕ) (start : ℕ) (token : Token) : ℕ :=
  match previous with
  | none => token.position_increment
  | some previous => if previous = start then 0 else 1

/-- The last loop of `flatten_token_graph` and of `remove_from_graph`, after a token
at `previous`, where a node's position is its rank. -/
def renumber_from (rank : ℕ → ℕ) : Option ℕ → List LaidOut → List Token
  | _, [] => []
  | previous, entry :: entries =>
    { entry.token with
      position_increment := increment previous entry.start entry.token
      position_length := rank entry.stop - rank entry.start } ::
      renumber_from rank (some entry.start) entries

/-- `sort_by_key` on where tokens start, which is stable. -/
def sort_by_start (entries : List LaidOut) : List LaidOut :=
  entries.insertionSort fun a b => a.start ≤ b.start

/-- The tokens where `flatten_token_graph` lays them, in their old order. -/
def laid_out (tokens : List Token) : List LaidOut :=
  let layout := Layout.run (token_arcs tokens)
  (tokens.zip layout.arcs).map fun entry =>
    ⟨entry.1, entry.2.1, (layout.reached.lookup entry.2.2).getD 0⟩

/-- `flatten_token_graph`. -/
def flatten_token_graph (tokens : List Token) : List Token :=
  if tokens.all fun token => token.position_length ≤ 1 then tokens
  else renumber_from id none (sort_by_start (laid_out tokens))

/-! ## Removing -/

/-- The first loop of `find_root`: up to the root. -/
def climb (roots : List ℕ) : ℕ → ℕ → ℕ
  | 0, node => node
  | fuel + 1, node =>
    if roots.getD node node = node then node else climb roots fuel (roots.getD node node)

/-- Its second loop: the nodes on the path are put below the root. -/
def shorten (root : ℕ) : ℕ → List ℕ → ℕ → List ℕ
  | 0, roots, _ => roots
  | fuel + 1, roots, node =>
    if roots.getD node node = root then roots
    else shorten root fuel (roots.set node root) (roots.getD node node)

/-- `find_root`; a path has fewer nodes than there are. -/
def find_root (roots : List ℕ) (node : ℕ) : ℕ × List ℕ :=
  let root := climb roots roots.length node
  (root, shorten root roots.length roots node)

/-- What the loop of `remove_from_graph` keeps: the classes of merged nodes, and
how many arcs leave and reach each. -/
structure Merged where
  roots : List ℕ
  outs : List ℕ
  ins : List ℕ

namespace Merged

/-- The removal of one arc. -/
def contract (merged : Merged) (arc : ℕ × ℕ) : Merged :=
  let (start, roots) := find_root merged.roots arc.1
  let (stop, roots) := find_root roots arc.2
  let outs := merged.outs
  let ins := merged.ins
  if 1 < outs.getD start 0 ∧ 1 < ins.getD stop 0 then
    { roots, outs := outs.set start (outs.getD start 0 - 1)
      ins := ins.set stop (ins.getD stop 0 - 1) }
  else if outs.getD start 0 = 1 then
    { roots := roots.set start stop, outs
      ins := ins.set stop (ins.getD stop 0 + ins.getD start 0 - 1) }
  else
    { roots := roots.set stop start
      outs := outs.set start (outs.getD start 0 + outs.getD stop 0 - 1), ins }

/-- The nodes before anything is merged. -/
def of_arcs (node_count : ℕ) (arcs : List (ℕ × ℕ)) : Merged where
  roots := List.range node_count
  outs := (List.range node_count).map fun n => arcs.countP fun arc => arc.1 = n
  ins := (List.range node_count).map fun n => arcs.countP fun arc => arc.2 = n

end Merged

/-- The nodes that `remove_from_graph` counts with: those that start a token as
they are, the ends past them packed after. -/
def packed_arcs (arcs : List (ℕ × ℕ)) : List (ℕ × ℕ) × ℕ :=
  let started := (arcs.getLast?.map fun arc => arc.1 + 1).getD 0
  let ends := sort_dedup ((arcs.map Prod.snd).filter fun stop => started ≤ stop)
  let node := fun id => if id < started then id else started + numbers_below ends id
  (arcs.map fun arc => (node arc.1, node arc.2), started + ends.length)

/-- The kept tokens where they lie once the arcs of the others are gone. -/
def kept_out : Merged → List ((Token × (ℕ × ℕ)) × Bool) → List LaidOut
  | _, [] => []
  | merged, ((token, arc), kept) :: entries =>
    if kept then
      let (start, roots) := find_root merged.roots arc.1
      let (stop, roots) := find_root roots arc.2
      ⟨token, start, stop⟩ :: kept_out { merged with roots } entries
    else kept_out merged entries

/-- `remove_from_graph`. -/
def remove_from_graph (tokens : List Token) (kept : List Bool) : List Token :=
  let (arcs, node_count) := packed_arcs (token_arcs tokens)
  let removed := (arcs.zip kept).filterMap fun entry => if entry.2 then none else some entry.1
  let merged := removed.foldl Merged.contract (Merged.of_arcs node_count arcs)
  let entries := sort_by_start (kept_out merged ((tokens.zip arcs).zip kept))
  let classes := sort_dedup (entries.flatMap fun entry => [entry.start, entry.stop])
  renumber_from (numbers_below classes) none entries

/-- The loop of `remove_from_sequence`: whether this is the first token, and
whether the current node was started by a removed one. -/
def remove_loop : Bool → Bool → List (Token × Bool) → List Token
  | _, _, [] => []
  | first, node_removed, (token, kept) :: entries =>
    let starts_node := first || decide (0 < token.position_increment)
    if kept then
      { token with
        position_increment :=
          if node_removed && !starts_node then 1 else token.position_increment } ::
        remove_loop false false entries
    else remove_loop false (node_removed || starts_node) entries

/-- `remove_from_sequence`. -/
def remove_from_sequence (tokens : List Token) (kept : List Bool) : List Token :=
  remove_loop true false (tokens.zip kept)

/-- `remove_tokens`; `kept` is what `keep` says of the tokens in order. -/
def remove_tokens (tokens : List Token) (kept : List Bool) : List Token :=
  if kept.all id then tokens
  else if tokens.all fun token => token.position_length ≤ 1 then
    remove_from_sequence tokens kept
  else remove_from_graph tokens kept

end Laurus
