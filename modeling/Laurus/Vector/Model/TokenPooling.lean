import Mathlib.Data.List.Sort

/-!
# Token pooling (`vector/core/token_pooling.rs`)

The rows of a document are clustered by merging nearest neighbours, and each
cluster is replaced by its mean. The arithmetic on rows and distances is a
parameter: what is said here holds of any distances that are ordered and any
update of them that the results ask for. An index out of range, an `expect`
that fails and a loop that does not end are `none`. The memory budget and the
configuration of a field are left out.
-/

namespace Laurus

/-- `PROTECTED_ROWS`. -/
def PROTECTED_ROWS : ℕ := 1

/-- `cluster_count`. -/
def cluster_count (rest factor : ℕ) : ℕ := max (rest / max factor 1) 1

/-- `pooled_count`. -/
def pooled_count (rows factor : ℕ) : ℕ :=
  let protected_rows := min rows PROTECTED_ROWS
  let rest := rows - protected_rows
  let clusters := cluster_count rest factor
  if factor ≤ 1 ∨ rest ≤ clusters then rows else protected_rows + clusters

/-- `condensed_index`. -/
def condensed_index (n i j : ℕ) : ℕ := n * i - i * (i + 1) / 2 + (j - i - 1)

/-- The `index` of `ward_labels`: a pair in either order. -/
def pair_index (n a b : ℕ) : ℕ := if a < b then condensed_index n a b else condensed_index n b a

/-- The distances of each row to the later ones, as `cosine_distances` lists
them. -/
def condensed_distances {ρ α : Type} (distance : ρ → ρ → α) : List ρ → List α
  | [] => []
  | row :: rows => rows.map (distance row) ++ condensed_distances distance rows

/-- What the loops of `ward_labels` work on; the last of the chain comes
first. -/
structure Ward (α : Type) where
  size : List ℕ
  distances : List α
  chain : List ℕ
  merges : List (α × ℕ × ℕ)

namespace Ward

variable {α : Type} [LinearOrder α]

/-- One cluster `i` compared; with nothing found yet the distance is
infinite. -/
def nearer (n : ℕ) (w : Ward α) (x : ℕ) (best : Option (ℕ × α)) (i : ℕ) :
    Option (Option (ℕ × α)) := do
  let s ← w.size[i]?
  if s = 0 ∨ i = x then return best
  let distance ← w.distances[pair_index n x i]?
  return if best.all fun found => distance < found.2 then some (i, distance) else best

/-- The nearest cluster to `x`, where an earlier one is at least as near as
`best`. -/
def nearest (n : ℕ) (w : Ward α) (x : ℕ) (best : Option (ℕ × α)) : Option (Option (ℕ × α)) :=
  (List.range n).foldlM (nearer n w x) best

/-- The distance of `i` to a merged cluster, by `ward_update`. -/
def update_distance (update : α → α → α → ℕ → ℕ → ℕ → α) (n : ℕ) (size : List ℕ)
    (x y : ℕ) (height : α) (nx ny : ℕ) (distances : List α) (i : ℕ) : Option (List α) := do
  let ni ← size[i]?
  if ni = 0 ∨ i = y then return distances
  let d_xi ← distances[pair_index n i x]?
  let d_yi ← distances[pair_index n i y]?
  return distances.set (pair_index n i y) (update d_xi d_yi height nx ny ni)

/-- The merge of two clusters, which lives on at the larger index. -/
def merge (update : α → α → α → ℕ → ℕ → ℕ → α) (n : ℕ) (w : Ward α) (x y : ℕ) (height : α) :
    Option (Ward α) := do
  let low := min x y
  let high := max x y
  let nx ← w.size[low]?
  let ny ← w.size[high]?
  let size := (w.size.set low 0).set high (nx + ny)
  let distances ← (List.range n).foldlM
    (update_distance update n size low high height nx ny) w.distances
  return { size, distances, chain := w.chain.drop 2
           merges := w.merges ++ [(height, low, high)] }

/-- An empty chain starts with the first active cluster. -/
def start_chain (w : Ward α) : Option (Ward α) :=
  if w.chain.isEmpty then
    (w.size.findIdx? fun s => 0 < s).map fun i => { w with chain := [i] }
  else some w

/-- A turn of the loop that walks the chain; where it breaks, the merge. -/
def walk (update : α → α → α → ℕ → ℕ → ℕ → α) (n : ℕ) (w : Ward α) : Option (Ward α) :=
  match w.chain with
  | [] => none
  | [x] => do
    let best ← nearest n w x none
    let y ← best
    return { w with chain := [y.1, x] }
  | x :: previous :: rest => do
    let distance ← w.distances[pair_index n x previous]?
    let best ← nearest n w x (some (previous, distance))
    let y ← best
    if y.1 = previous then merge update n w x y.1 y.2
    else return { w with chain := y.1 :: x :: previous :: rest }

/-- A turn, with the chain started if it is empty. -/
def turn (update : α → α → α → ℕ → ℕ → ℕ → α) (n : ℕ) (w : Ward α) : Option (Ward α) :=
  w.start_chain.bind (walk update n)

/-- The turns until there are `n - 1` merges. -/
def run (update : α → α → α → ℕ → ℕ → ℕ → α) (n : ℕ) : ℕ → Ward α → Option (Ward α)
  | 0, w => if w.merges.length = n - 1 then some w else none
  | turns + 1, w =>
    if w.merges.length = n - 1 then some w else (turn update n w).bind (run update n turns)

/-- Every row a cluster of its own. -/
def new (n : ℕ) (distances : List α) : Ward α :=
  { size := List.replicate n 1, distances, chain := [], merges := [] }

end Ward

/-- `find`, with path halving. -/
def find : ℕ → List ℕ → ℕ → Option (ℕ × List ℕ)
  | 0, _, _ => none
  | turns + 1, parent, i => do
    let above ← parent[i]?
    if above = i then return (i, parent)
    let higher ← parent[above]?
    find turns (parent.set i higher) higher

/-- One merge applied. -/
def apply_merge {α : Type} (parent : List ℕ) (merge : α × ℕ × ℕ) : Option (List ℕ) := do
  let (root_x, parent) ← find parent.length parent merge.2.1
  let (root_y, parent) ← find parent.length parent merge.2.2
  return parent.set root_x root_y

/-- What the labels are given with: a root without a label has `none`. -/
structure Labels where
  parent : List ℕ
  label_of_root : List (Option ℕ)
  next : ℕ
  labels : List ℕ

namespace Labels

/-- The row gets the label of its root, the next one if it has none. -/
def label (l : Labels) (i : ℕ) : Option Labels := do
  let (root, parent) ← find l.parent.length l.parent i
  let known ← l.label_of_root[root]?
  return known.elim
    { parent, label_of_root := l.label_of_root.set root (some l.next), next := l.next + 1
      labels := l.labels ++ [l.next] }
    fun known => { l with parent, labels := l.labels ++ [known] }

end Labels

/-- The merges by height, those as high in the order they were made. -/
def sort_merges {α : Type} [LinearOrder α] (merges : List (α × ℕ × ℕ)) : List (α × ℕ × ℕ) :=
  merges.insertionSort fun a b => a.1 ≤ b.1

/-- `ward_labels`, of `n` rows with these distances. -/
def ward_labels {α : Type} [LinearOrder α] (update : α → α → α → ℕ → ℕ → ℕ → α) (n : ℕ)
    (distances : List α) (clusters : ℕ) : Option (List ℕ) := do
  let w ← (Ward.new n distances).run update n (4 * n)
  let parent ← ((sort_merges w.merges).take (n - clusters)).foldlM apply_merge (List.range n)
  let labelled ← (List.range n).foldlM Labels.label
    { parent, label_of_root := List.replicate n none, next := 0, labels := [] }
  return labelled.labels

/-- How rows are summed up, and what the mean of so many is, normalized if it
should be. -/
structure RowMean (ρ σ : Type) where
  zero : σ
  add : σ → ρ → σ
  mean : σ → ℕ → ρ

/-- The sum of each cluster's rows, and their number. -/
def add_rows {ρ σ : Type} (arithmetic : RowMean ρ σ) (clusters : ℕ) (rows : List ρ)
    (labels : List ℕ) : List (σ × ℕ) :=
  (rows.zip labels).foldl
    (fun sums entry => sums.modify entry.2 fun sum => (arithmetic.add sum.1 entry.1, sum.2 + 1))
    (List.replicate clusters (arithmetic.zero, 0))

/-- `pool`: `some none` if the rows are left unchanged. -/
def pool {ρ σ α : Type} [LinearOrder α] (arithmetic : RowMean ρ σ) (distance : ρ → ρ → α)
    (update : α → α → α → ℕ → ℕ → ℕ → α) (rows : List ρ) (factor : ℕ) :
    Option (Option (List ρ)) :=
  let protected_rows := min rows.length PROTECTED_ROWS
  let rest := rows.drop protected_rows
  let clusters := cluster_count (rows.length - protected_rows) factor
  if pooled_count rows.length factor = rows.length then some none
  else
    (ward_labels update rest.length (condensed_distances distance rest) clusters).map fun labels =>
      some (rows.take protected_rows ++
        (add_rows arithmetic clusters rest labels).map fun sum => arithmetic.mean sum.1 sum.2)

end Laurus
