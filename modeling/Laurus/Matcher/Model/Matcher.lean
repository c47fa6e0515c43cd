import Laurus.Matcher.Model.PostingIter
import Mathlib.Data.Finset.Sort

/-!
# Matchers (`lexical/query/matcher.rs`)

The trait's calls are a record of functions over a state type, `none` for
a call that does not return; each combinator is written over the record
of its children, as the source writes it over `dyn Matcher`. The tree of
combinators is then one inductive type, and its dispatch is given for
trees of each depth. The loops that have no bound of their own in the
source get one turn more than there are document ids.

`cost` and `term_freq` steer scoring and are left out: no call here reads
them.
-/

namespace Laurus

/-- The trait `Matcher`. -/
structure MatcherOps (σ : Type) where
  doc_id : σ → ℕ
  is_exhausted : σ → Bool
  next : σ → Option (Bool × σ)
  skip_to : σ → ℕ → Option (Bool × σ)

/-! ## Leaves -/

/-- `AllMatcher`. -/
structure AllMatcher where
  current_doc : ℕ
  max_doc : ℕ
  deriving DecidableEq, Repr

namespace AllMatcher

def new (max_doc : ℕ) : AllMatcher := { current_doc := 0, max_doc }

def doc_id (m : AllMatcher) : ℕ := if m.max_doc ≤ m.current_doc then END else m.current_doc

def is_exhausted (m : AllMatcher) : Bool := decide (m.max_doc ≤ m.current_doc)

def next (m : AllMatcher) : Bool × AllMatcher :=
  if m.max_doc ≤ m.current_doc then (false, m)
  else
    let m := { m with current_doc := m.current_doc + 1 }
    (decide (m.current_doc < m.max_doc), m)

def skip_to (m : AllMatcher) (target : ℕ) : Bool × AllMatcher :=
  if m.max_doc ≤ target then (false, { m with current_doc := m.max_doc })
  else (true, { m with current_doc := target })

end AllMatcher

/-- `PostingMatcher`. -/
structure PostingMatcher where
  posting_iter : PostingIter
  exhausted : Bool
  deriving DecidableEq, Repr

namespace PostingMatcher

/-- `PostingMatcher::new` puts the iterator on its first document. -/
def new (posting_iter : PostingIter) : PostingMatcher :=
  let (more, posting_iter) := posting_iter.next
  { posting_iter, exhausted := !more }

def doc_id (m : PostingMatcher) : ℕ := if m.exhausted then END else m.posting_iter.doc_id

def next (m : PostingMatcher) : Bool × PostingMatcher :=
  if m.exhausted then (false, m)
  else
    let (has_next, posting_iter) := m.posting_iter.next
    (has_next, { posting_iter, exhausted := !has_next })

def skip_to (m : PostingMatcher) (target : ℕ) : Bool × PostingMatcher :=
  if m.exhausted then (false, m)
  else
    let (result, posting_iter) := m.posting_iter.skip_to target
    (result, { posting_iter, exhausted := !result })

end PostingMatcher

/-- `PreComputedMatcher`. -/
structure PreComputedMatcher where
  doc_ids : List ℕ
  current_index : ℕ
  exhausted : Bool
  deriving DecidableEq, Repr

namespace PreComputedMatcher

/-- `PreComputedMatcher::new`, which sorts and dedups its documents. -/
def new (doc_ids : List ℕ) : PreComputedMatcher :=
  let doc_ids := doc_ids.toFinset.sort (· ≤ ·)
  { doc_ids, current_index := 0, exhausted := doc_ids.isEmpty }

def doc_id (m : PreComputedMatcher) : ℕ :=
  if m.exhausted then END else m.doc_ids.getD m.current_index END

def next (m : PreComputedMatcher) : Bool × PreComputedMatcher :=
  if m.exhausted then (false, m)
  else
    let m := { m with current_index := m.current_index + 1 }
    if m.doc_ids.length ≤ m.current_index then (false, { m with exhausted := true })
    else (true, m)

/-- The binary search of `skip_to`, the window halving in each turn. -/
def search (doc_ids : List ℕ) (target : ℕ) : ℕ → ℕ → ℕ → ℕ
  | 0, left, _ => left
  | turns + 1, left, right =>
    if left < right then
      let mid := left + (right - left) / 2
      if target ≤ doc_ids.getD mid END then search doc_ids target turns left mid
      else search doc_ids target turns (mid + 1) right
    else left

def skip_to (m : PreComputedMatcher) (target : ℕ) : Bool × PreComputedMatcher :=
  if m.exhausted then (false, m)
  else
    let left := search m.doc_ids target m.doc_ids.length m.current_index m.doc_ids.length
    let m := { m with current_index := left }
    if m.doc_ids.length ≤ m.current_index then (false, { m with exhausted := true })
    else (true, m)

end PreComputedMatcher

/-! ## Combinators -/

section Combinators

variable {σ : Type} (ops : MatcherOps σ)

/-- `DisjunctionMatcher`. The `BinaryHeap` is its entries; which of several
least ones `pop` takes is not specified. -/
structure DisjunctionMatcher (σ : Type) where
  heap : List σ
  current_doc : ℕ
  exhausted : Bool

namespace DisjunctionMatcher

/-- `BinaryHeap::pop`: an entry with the least document, and the others. -/
def pop : List σ → Option (σ × List σ)
  | [] => none
  | entry :: heap =>
    match pop heap with
    | none => some (entry, [])
    | some (least, others) =>
      if ops.doc_id least < ops.doc_id entry then some (least, entry :: others)
      else some (entry, heap)

/-- `BinaryHeap::peek`, and what its entry's document sets. -/
def settle (heap : List σ) : DisjunctionMatcher σ :=
  match pop ops heap with
  | some (least, _) => { heap, current_doc := ops.doc_id least, exhausted := false }
  | none => { heap, current_doc := END, exhausted := true }

/-- `DisjunctionMatcher::new`. -/
def new (matchers : List σ) : DisjunctionMatcher σ :=
  settle ops (matchers.filter fun m => ! ops.is_exhausted m)

/-- The first loop of `advance_to_next_doc`, a popped entry a turn. -/
def advance_loop (current_doc : ℕ) : ℕ → List σ → List σ → Option (List σ × List σ)
  | 0, heap, buffer => some (heap, buffer)
  | turns + 1, heap, buffer =>
    match pop ops heap with
    | none => some (heap, buffer)
    | some (entry, others) =>
      if ops.doc_id entry = current_doc then do
        let (more, entry) ← ops.next entry
        if more && ! ops.is_exhausted entry then
          advance_loop current_doc turns others (entry :: buffer)
        else advance_loop current_doc turns others buffer
      else some (heap, buffer)

/-- `advance_to_next_doc`. -/
def advance_to_next_doc (m : DisjunctionMatcher σ) : Option (DisjunctionMatcher σ) :=
  if m.exhausted then some m
  else do
    let (heap, buffer) ← advance_loop ops m.current_doc m.heap.length m.heap []
    return settle ops (buffer ++ heap)

def next (m : DisjunctionMatcher σ) : Option (Bool × DisjunctionMatcher σ) :=
  if m.exhausted then some (false, m)
  else do
    let m ← m.advance_to_next_doc ops
    return (! m.exhausted, m)

/-- The first loop of `skip_to`: every entry skips. -/
def skip_loop (target : ℕ) : List σ → List σ → Option (List σ)
  | [], buffer => some buffer
  | entry :: heap, buffer => do
    let (found, entry) ← ops.skip_to entry target
    if found && ! ops.is_exhausted entry then skip_loop target heap (entry :: buffer)
    else skip_loop target heap buffer

def skip_to (m : DisjunctionMatcher σ) (target : ℕ) : Option (Bool × DisjunctionMatcher σ) :=
  if m.exhausted ∨ target ≤ m.current_doc then some (! m.exhausted, m)
  else do
    let buffer ← skip_loop ops target m.heap []
    let m := settle ops buffer
    return (! m.exhausted, m)

end DisjunctionMatcher

/-- `ConjunctionMatcher`. -/
structure ConjunctionMatcher (σ : Type) where
  matchers : List σ
  current_doc : ℕ
  exhausted : Bool

namespace ConjunctionMatcher

/-- The greatest document of the matchers, the first loop of a turn of
`advance_to_alignment`; `none` when one of them has ended. -/
def max_doc (matchers : List σ) : Option ℕ :=
  matchers.foldlM (fun max_doc matcher =>
    if ops.doc_id matcher = END then none else some (max max_doc (ops.doc_id matcher))) 0

/-- The second loop of a turn: the matchers behind skip to `max_doc`. The
first flag is whether every skip found a document, the second whether all
are aligned. -/
def align_loop (max_doc : ℕ) : List σ → Option (Bool × Bool × List σ)
  | [] => some (true, true, [])
  | matcher :: matchers =>
    if ops.doc_id matcher < max_doc then do
      let (found, matcher) ← ops.skip_to matcher max_doc
      if ! found then return (false, false, matcher :: matchers)
      let (found, aligned, matchers) ← align_loop max_doc matchers
      return (found, decide (ops.doc_id matcher = max_doc) && aligned, matcher :: matchers)
    else do
      let (found, aligned, matchers) ← align_loop max_doc matchers
      return (found, aligned, matcher :: matchers)

/-- The loop of `advance_to_alignment`. -/
def alignment_loop : ℕ → ConjunctionMatcher σ → Option (Bool × ConjunctionMatcher σ)
  | 0, _ => none
  | turns + 1, m =>
    match max_doc ops m.matchers with
    | none => some (false, { m with exhausted := true })
    | some max => do
      let (found, aligned, matchers) ← align_loop ops max m.matchers
      let m := { m with matchers }
      if ! found then return (false, { m with exhausted := true })
      if aligned then return (true, { m with current_doc := max })
      alignment_loop turns m

/-- `advance_to_alignment`. -/
def advance_to_alignment (m : ConjunctionMatcher σ) : Option (Bool × ConjunctionMatcher σ) :=
  if m.matchers.isEmpty ∨ m.exhausted then some (false, m)
  else alignment_loop ops (2 ^ 64) m

/-- `ConjunctionMatcher::new`. -/
def new (matchers : List σ) : Option (ConjunctionMatcher σ) :=
  if matchers.isEmpty then some { matchers := [], current_doc := END, exhausted := true }
  else do
    let (found, m) ← advance_to_alignment ops { matchers, current_doc := 0, exhausted := false }
    if found then return m
    else return { m with exhausted := true, current_doc := END }

def doc_id (m : ConjunctionMatcher σ) : ℕ := if m.exhausted then END else m.current_doc

/-- The call on `matchers[0]` that `next` and `skip_to` begin with, and the
alignment after it. -/
def lead (call : σ → Option (Bool × σ)) (m : ConjunctionMatcher σ) :
    Option (Bool × ConjunctionMatcher σ) :=
  match m.matchers with
  | [] => some (false, m)
  | first :: others => do
    let (found, first) ← call first
    let m := { m with matchers := first :: others }
    if ! found then return (false, { m with exhausted := true, current_doc := END })
    advance_to_alignment ops m

def next (m : ConjunctionMatcher σ) : Option (Bool × ConjunctionMatcher σ) :=
  if m.exhausted ∨ m.matchers.isEmpty then some (false, m)
  else m.lead ops ops.next

def skip_to (m : ConjunctionMatcher σ) (target : ℕ) : Option (Bool × ConjunctionMatcher σ) :=
  if m.exhausted ∨ target ≤ m.current_doc then
    some (! m.exhausted && decide (target ≤ m.current_doc), m)
  else m.lead ops fun first => ops.skip_to first target

end ConjunctionMatcher

/-- `ConjunctionNotMatcher`. -/
structure ConjunctionNotMatcher (σ : Type) where
  positive : σ
  negatives : List σ
  current_doc : ℕ
  exhausted : Bool

namespace ConjunctionNotMatcher

/-- A negative behind the document skips to it. -/
def catch_up (doc_id : ℕ) (negative : σ) : Option σ :=
  if ops.doc_id negative < doc_id then (ops.skip_to negative doc_id).map Prod.snd
  else some negative

/-- `is_excluded`: the first negative on the document ends the loop. -/
def is_excluded (doc_id : ℕ) : List σ → Option (Bool × List σ)
  | [] => some (false, [])
  | negative :: negatives => do
    let negative ← catch_up ops doc_id negative
    if ops.doc_id negative = doc_id then return (true, negative :: negatives)
    let (excluded, negatives) ← is_excluded doc_id negatives
    return (excluded, negative :: negatives)

/-- The state at the end. -/
def ended (m : ConjunctionNotMatcher σ) : ConjunctionNotMatcher σ :=
  { m with exhausted := true, current_doc := END }

/-- The loop of `advance_to_next_valid`. -/
def valid_loop : ℕ → ConjunctionNotMatcher σ → Option (Bool × ConjunctionNotMatcher σ)
  | 0, _ => none
  | turns + 1, m =>
    if ops.is_exhausted m.positive then some (false, m.ended)
    else
      let doc_id := ops.doc_id m.positive
      if doc_id = END then some (false, m.ended)
      else do
        let (excluded, negatives) ← is_excluded ops doc_id m.negatives
        let m := { m with negatives }
        if ! excluded then return (true, { m with current_doc := doc_id })
        let (found, positive) ← ops.next m.positive
        let m := { m with positive }
        if ! found then return (false, m.ended)
        valid_loop turns m

/-- `advance_to_next_valid`. -/
def advance_to_next_valid (m : ConjunctionNotMatcher σ) :
    Option (Bool × ConjunctionNotMatcher σ) := valid_loop ops (2 ^ 64) m

/-- `ConjunctionNotMatcher::new`. -/
def new (positive : σ) (negatives : List σ) : Option (ConjunctionNotMatcher σ) := do
  let (found, m) ← advance_to_next_valid ops
    { positive, negatives, current_doc := 0, exhausted := false }
  if found then return m else return m.ended

def doc_id (m : ConjunctionNotMatcher σ) : ℕ := if m.exhausted then END else m.current_doc

/-- The call on the positive matcher that `next` and `skip_to` begin with. -/
def lead (call : σ → Option (Bool × σ)) (m : ConjunctionNotMatcher σ) :
    Option (Bool × ConjunctionNotMatcher σ) := do
  let (found, positive) ← call m.positive
  let m := { m with positive }
  if ! found then return (false, m.ended)
  advance_to_next_valid ops m

def next (m : ConjunctionNotMatcher σ) : Option (Bool × ConjunctionNotMatcher σ) :=
  if m.exhausted then some (false, m) else m.lead ops ops.next

def skip_to (m : ConjunctionNotMatcher σ) (target : ℕ) :
    Option (Bool × ConjunctionNotMatcher σ) :=
  if m.exhausted ∨ target ≤ m.current_doc then
    some (! m.exhausted && decide (target ≤ m.current_doc), m)
  else m.lead ops fun positive => ops.skip_to positive target

end ConjunctionNotMatcher

/-- `NotMatcher`. -/
structure NotMatcher (σ : Type) where
  negative : σ
  max_doc : ℕ
  current_doc : ℕ
  exhausted : Bool

namespace NotMatcher

/-- The loop of `advance_to_next_valid`. -/
def valid_loop : ℕ → NotMatcher σ → Option (Bool × NotMatcher σ)
  | 0, _ => none
  | turns + 1, m =>
    if m.current_doc < m.max_doc then
      let neg_doc := ops.doc_id m.negative
      if m.current_doc < neg_doc ∨ neg_doc = END then some (true, m)
      else if neg_doc = m.current_doc then do
        let m := { m with current_doc := m.current_doc + 1 }
        if ops.doc_id m.negative < m.current_doc && ! ops.is_exhausted m.negative then
          let (_, negative) ← ops.skip_to m.negative m.current_doc
          valid_loop turns { m with negative }
        else valid_loop turns m
      else do
        -- the negative matcher is behind
        let (_, negative) ← ops.skip_to m.negative m.current_doc
        valid_loop turns { m with negative }
    else some (false, { m with current_doc := END, exhausted := true })

/-- `advance_to_next_valid`; a document takes two turns at most. -/
def advance_to_next_valid (m : NotMatcher σ) : Option (Bool × NotMatcher σ) :=
  valid_loop ops (2 ^ 65) m

/-- `NotMatcher::new`. -/
def new (negative : σ) (max_doc : ℕ) : Option (NotMatcher σ) := do
  let (found, m) ← advance_to_next_valid ops
    { negative, max_doc, current_doc := 0, exhausted := false }
  if found then return m else return { m with exhausted := true }

def doc_id (m : NotMatcher σ) : ℕ :=
  if m.exhausted ∨ m.max_doc ≤ m.current_doc then END else m.current_doc

def is_exhausted (m : NotMatcher σ) : Bool :=
  m.exhausted || decide (m.max_doc ≤ m.current_doc)

def next (m : NotMatcher σ) : Option (Bool × NotMatcher σ) :=
  if m.exhausted ∨ m.max_doc ≤ m.current_doc then some (false, m)
  else advance_to_next_valid ops { m with current_doc := m.current_doc + 1 }

def skip_to (m : NotMatcher σ) (target : ℕ) : Option (Bool × NotMatcher σ) :=
  if m.exhausted ∨ target ≤ m.current_doc then
    some (! m.exhausted && decide (m.current_doc < m.max_doc), m)
  else if m.max_doc ≤ target then
    some (false, { m with current_doc := m.max_doc, exhausted := true })
  else advance_to_next_valid ops { m with current_doc := target }

end NotMatcher

/-- `query_cache.rs`, `drain_matcher`: the documents a matcher visits. -/
def drain_matcher : ℕ → σ → Option (List ℕ)
  | 0, _ => none
  | turns + 1, matcher =>
    if ops.is_exhausted matcher then some []
    else
      let doc_id := ops.doc_id matcher
      if doc_id = END then some []
      else do
        let (more, matcher) ← ops.next matcher
        if ! more then return [doc_id]
        let rest ← drain_matcher turns matcher
        return doc_id :: rest

end Combinators

/-! ## The tree -/

/-- `dyn Matcher`: the implementations, their children boxed. -/
inductive Matcher
  | empty
  | all (m : AllMatcher)
  | posting (m : PostingMatcher)
  | precomputed (m : PreComputedMatcher)
  | disjunction (m : DisjunctionMatcher Matcher)
  | conjunction (m : ConjunctionMatcher Matcher)
  | conjunction_not (m : ConjunctionNotMatcher Matcher)
  | not (m : NotMatcher Matcher)

namespace Matcher

def doc_id : Matcher → ℕ
  | empty => END
  | all m => m.doc_id
  | posting m => m.doc_id
  | precomputed m => m.doc_id
  | disjunction m => m.current_doc
  | conjunction m => m.doc_id
  | conjunction_not m => m.doc_id
  | not m => m.doc_id

def is_exhausted : Matcher → Bool
  | empty => true
  | all m => m.is_exhausted
  | posting m => m.exhausted
  | precomputed m => m.exhausted
  | disjunction m => m.exhausted
  | conjunction m => m.exhausted
  | conjunction_not m => m.exhausted
  | not m => m.is_exhausted

/-- A call's answer, its state put back in the tree. -/
def wrap {α : Type} (node : α → Matcher) : Option (Bool × α) → Option (Bool × Matcher) :=
  Option.map fun (found, m) => (found, node m)

/-- `next`, the children answering by `ops`. -/
def next (ops : MatcherOps Matcher) : Matcher → Option (Bool × Matcher)
  | empty => some (false, empty)
  | all m => wrap all (some m.next)
  | posting m => wrap posting (some m.next)
  | precomputed m => wrap precomputed (some m.next)
  | disjunction m => wrap disjunction (m.next ops)
  | conjunction m => wrap conjunction (m.next ops)
  | conjunction_not m => wrap conjunction_not (m.next ops)
  | not m => wrap not (m.next ops)

/-- `skip_to`, the children answering by `ops`. -/
def skip_to (ops : MatcherOps Matcher) : Matcher → ℕ → Option (Bool × Matcher)
  | empty, _ => some (false, empty)
  | all m, target => wrap all (some (m.skip_to target))
  | posting m, target => wrap posting (some (m.skip_to target))
  | precomputed m, target => wrap precomputed (some (m.skip_to target))
  | disjunction m, target => wrap disjunction (m.skip_to ops target)
  | conjunction m, target => wrap conjunction (m.skip_to ops target)
  | conjunction_not m, target => wrap conjunction_not (m.skip_to ops target)
  | not m, target => wrap not (m.skip_to ops target)

/-- The calls on trees of depth at most `depth`. -/
def ops : ℕ → MatcherOps Matcher
  | 0 => { doc_id, is_exhausted, next := fun _ => none, skip_to := fun _ _ => none }
  | depth + 1 =>
    { doc_id, is_exhausted, next := next (ops depth), skip_to := skip_to (ops depth) }

end Matcher

/-!
## Building trees of matchers

A tree of the constructors' arguments, and the matcher the constructors make
of it. The bounds are `u64` and the documents of a posting list an ascending
list of `u32`, as its iterator has them.
-/

/-- The arguments of the constructors `AllMatcher::new`, `PostingMatcher::new`
over the iterator of a list, and so on. -/
inductive MatcherTree
  | all (max_doc : UInt64)
  | posting (doc_ids : { l : List UInt32 // l.Pairwise (· < ·) })
  | disjunction (matchers : List MatcherTree)
  | conjunction (matchers : List MatcherTree)
  | conjunction_not (positive : MatcherTree) (negatives : List MatcherTree)
  | not (negative : MatcherTree) (max_doc : UInt64)

namespace MatcherTree

mutual

/-- The depth of a tree, a leaf counting one. -/
def depth : MatcherTree → ℕ
  | all _ => 1
  | posting _ => 1
  | disjunction matchers => depths matchers + 1
  | conjunction matchers => depths matchers + 1
  | conjunction_not positive negatives => max positive.depth (depths negatives) + 1
  | not negative _ => negative.depth + 1

/-- The greatest depth. -/
def depths : List MatcherTree → ℕ
  | [] => 0
  | tree :: trees => max tree.depth (depths trees)

end

/-- The matcher of a tree of depth at most `depth`. -/
def build : ℕ → MatcherTree → Option Matcher
  | 0, _ => none
  | _ + 1, all max_doc => some (.all (AllMatcher.new max_doc.toNat))
  | _ + 1, posting doc_ids => some (.posting (PostingMatcher.new (PostingIter.new doc_ids.1)))
  | depth + 1, disjunction matchers => do
    let matchers ← matchers.mapM (build depth)
    return .disjunction (DisjunctionMatcher.new (Matcher.ops depth) matchers)
  | depth + 1, conjunction matchers => do
    let matchers ← matchers.mapM (build depth)
    let m ← ConjunctionMatcher.new (Matcher.ops depth) matchers
    return .conjunction m
  | depth + 1, conjunction_not positive negatives => do
    let positive ← build depth positive
    let negatives ← negatives.mapM (build depth)
    let m ← ConjunctionNotMatcher.new (Matcher.ops depth) positive negatives
    return .conjunction_not m
  | depth + 1, not negative max_doc => do
    let negative ← build depth negative
    let m ← NotMatcher.new (Matcher.ops depth) negative max_doc.toNat
    return .not m

end MatcherTree

end Laurus
