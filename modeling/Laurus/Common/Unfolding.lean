import Mathlib.Data.Finset.Card
import Mathlib.Data.List.Forall2

/-!
# Unfolding a graph with two children a node

Following children from a root along a path of sides is a walk of the graph's
unfolding. Where every node is reached by one path (`OnePath`), the graph is a
tree: no path is longer than there are inner nodes (`OnePath.length_le_card`),
and a walk that takes each path at most once visits no node twice
(`Along.nodup`). A walk that takes all paths shows the converse
(`CoversTree.onePath`).
-/

namespace Laurus

namespace Unfolding

variable {α : Type*} (children : α → Option (α × α))

/-- The child on a side, the right one for `true`. -/
def child (a : α) (side : Bool) : Option α :=
  (children a).map fun both => if side then both.2 else both.1

/-- Where a path of sides leads. -/
def follow (root : α) (path : List Bool) : Option α :=
  path.foldlM (child children) root

/-- Every node is reached by one path. -/
def OnePath (root : α) : Prop :=
  ∀ p q a, follow children root p = some a → follow children root q = some a → p = q

variable {children} {root a l r : α} {p : List Bool}

@[simp] theorem follow_nil : follow children root [] = some root := rfl

theorem follow_append (q : List Bool) :
    follow children root (p ++ q) = (follow children root p).bind (follow children · q) := by
  rw [follow, List.foldlM_append]
  rfl

theorem follow_concat (h : follow children root p = some a) (side : Bool) :
    follow children root (p ++ [side]) = child children a side := by
  rw [follow_append, h, Option.bind_some, follow, List.foldlM_cons]
  simp

theorem follow_children (h : follow children root p = some a) (ha : children a = some (l, r)) :
    follow children root (p ++ [false]) = some l ∧ follow children root (p ++ [true]) = some r := by
  rw [follow_concat h, follow_concat h, child, child, ha]
  exact ⟨rfl, rfl⟩

theorem follow_take {a : α} (h : follow children root p = some a) {i : ℕ} (hi : i < p.length) :
    ∃ b, follow children root (p.take i) = some b ∧ (children b).isSome := by
  have hsplit : p = p.take i ++ p[i] :: p.drop (i + 1) := by simp
  rw [hsplit, follow_append] at h
  obtain ⟨b, hb, hrest⟩ := Option.bind_eq_some_iff.1 h
  refine ⟨b, hb, ?_⟩
  rw [follow, List.foldlM_cons, child] at hrest
  rcases hchildren : children b with _ | both
  · rw [hchildren] at hrest
    cases hrest
  · rfl

/-- **In a tree no path is longer than there are inner nodes.** -/
theorem OnePath.length_le_card {inner : Finset α} (hone : OnePath children root)
    (hinner : ∀ a, (children a).isSome → a ∈ inner) (h : follow children root p = some a) :
    p.length ≤ inner.card := by
  have hnode : ∀ i, i < p.length → ∃ b, follow children root (p.take i) = some b ∧ b ∈ inner := by
    intro i hi
    obtain ⟨b, hb, hsome⟩ := follow_take h hi
    exact ⟨b, hb, hinner b hsome⟩
  have hcard := Finset.card_le_card_of_injOn (s := Finset.range p.length) (t := inner)
    (fun i => (follow children root (p.take i)).getD root) ?_ ?_
  · rwa [Finset.card_range] at hcard
  · intro i hi
    grind
  · intro i hi j hj heq
    have hi' := Finset.mem_range.1 hi
    have hj' := Finset.mem_range.1 hj
    obtain ⟨b, hb, -⟩ := hnode i hi'
    obtain ⟨c, hc, -⟩ := hnode j hj'
    simp only [hb, hc, Option.getD_some] at heq
    have hlen := congrArg List.length (hone _ _ b hb (heq ▸ hc))
    grind

/-! ## Walks -/

/-- The nodes that lie at the ends of some paths. -/
def Ends (children : α → Option (α × α)) (root : α) (paths : List (List Bool)) (nodes : List α) :
    Prop :=
  List.Forall₂ (fun path a => follow children root path = some a) paths nodes

/-- The nodes are visited along paths that go on from `p`, each at most once. -/
def Along (children : α → Option (α × α)) (root : α) (p : List Bool) (nodes : List α) : Prop :=
  ∃ paths, Ends children root paths nodes ∧ paths.Nodup ∧ ∀ q ∈ paths, p <+: q

/-- The nodes are visited along all paths that go on from `p`, each once. -/
def CoversTree (children : α → Option (α × α)) (root : α) (p : List Bool) (nodes : List α) : Prop :=
  ∃ paths, Ends children root paths nodes ∧ paths.Nodup ∧
    ∀ q, q ∈ paths ↔ p <+: q ∧ (follow children root q).isSome

variable {nodes ls rs : List α}

theorem Along.nil : Along children root p [] :=
  ⟨[], List.Forall₂.nil, List.nodup_nil, fun _ h => absurd h List.not_mem_nil⟩

theorem Along.singleton (h : follow children root p = some a) : Along children root p [a] :=
  ⟨[p], List.Forall₂.cons h List.Forall₂.nil, List.nodup_singleton p, fun q hq => by
    rw [List.mem_singleton.1 hq]⟩

theorem prefix_concat_ne {q : List Bool} (h : p ++ [false] <+: q) : ¬ p ++ [true] <+: q := by
  rintro ⟨t, rfl⟩
  obtain ⟨s, hs⟩ := h
  rw [List.append_assoc, List.append_assoc] at hs
  have hhead := congrArg List.head? (List.append_cancel_left hs)
  simp at hhead

theorem node_paths {lpaths rpaths : List (List Bool)} (hlnodup : lpaths.Nodup)
    (hrnodup : rpaths.Nodup) (hl : ∀ q ∈ lpaths, p ++ [false] <+: q)
    (hr : ∀ q ∈ rpaths, p ++ [true] <+: q) :
    (p :: (lpaths ++ rpaths)).Nodup ∧ ∀ q ∈ p :: (lpaths ++ rpaths), p <+: q := by
  have hlonger : ∀ q ∈ lpaths ++ rpaths, p <+: q ∧ p.length < q.length := by
    intro q hq
    rcases List.mem_append.1 hq with hq | hq
    · obtain ⟨t, rfl⟩ := hl q hq
      simp
    · obtain ⟨t, rfl⟩ := hr q hq
      simp
  rw [List.nodup_cons, List.nodup_append, List.forall_mem_cons]
  grind [prefix_concat_ne]

/-- **A node, then its sides.** -/
theorem Along.node (h : follow children root p = some a)
    (hl : Along children root (p ++ [false]) ls) (hr : Along children root (p ++ [true]) rs) :
    Along children root p (a :: (ls ++ rs)) := by
  obtain ⟨lpaths, hlends, hlnodup, hlprefix⟩ := hl
  obtain ⟨rpaths, hrends, hrnodup, hrprefix⟩ := hr
  obtain ⟨hnodup, hinitial⟩ := node_paths hlnodup hrnodup hlprefix hrprefix
  exact ⟨_, List.Forall₂.cons h (List.rel_append hlends hrends), hnodup, hinitial⟩

/-- **In a tree no node is visited twice.** -/
theorem Along.nodup (h : Along children root p nodes) (hone : OnePath children root) :
    nodes.Nodup := by
  obtain ⟨paths, hends, hnodup, -⟩ := h
  induction hends with
  | nil => exact List.nodup_nil
  | @cons path a paths nodes hfirst hrest ih =>
      rw [List.nodup_cons] at hnodup ⊢
      refine ⟨fun hmem => hnodup.1 ?_, ih hnodup.2⟩
      obtain ⟨i, hi, rfl⟩ := List.mem_iff_getElem.1 hmem
      have hi' : i < paths.length := hrest.length_eq ▸ hi
      have hat := hrest.get hi' hi
      rw [hone _ _ _ hfirst hat]
      exact List.getElem_mem hi'

theorem prefix_iff_sides (h : follow children root p = some a) {q : List Bool}
    (hsome : (follow children root q).isSome) :
    p <+: q ↔ q = p ∨ (children a).isSome ∧ (p ++ [false] <+: q ∨ p ++ [true] <+: q) := by
  constructor
  · rintro ⟨t, rfl⟩
    rcases t with _ | ⟨side, t⟩
    · exact Or.inl (List.append_nil p)
    · obtain ⟨b, hb⟩ := Option.isSome_iff_exists.1 hsome
      obtain ⟨c, hc, hinner⟩ := follow_take hb (i := p.length) (by simp)
      rw [List.take_left, h] at hc
      obtain rfl := Option.some.inj hc
      refine Or.inr ⟨hinner, ?_⟩
      simp
  grind [List.prefix_append]

theorem CoversTree.leaf (h : follow children root p = some a) (ha : children a = none) :
    CoversTree children root p [a] := by
  refine ⟨[p], List.Forall₂.cons h List.Forall₂.nil, List.nodup_singleton p, fun q => ?_⟩
  rw [List.mem_singleton]
  constructor
  · grind
  · rintro ⟨hinitial, hsome⟩
    rcases (prefix_iff_sides h hsome).1 hinitial with heq | ⟨hinner, -⟩
    · exact heq
    · rw [ha] at hinner
      cases hinner

theorem CoversTree.node (h : follow children root p = some a) (ha : (children a).isSome)
    (hl : CoversTree children root (p ++ [false]) ls) (hr : CoversTree children root (p ++ [true]) rs) :
    CoversTree children root p (a :: (ls ++ rs)) := by
  obtain ⟨lpaths, hlends, hlnodup, hlmem⟩ := hl
  obtain ⟨rpaths, hrends, hrnodup, hrmem⟩ := hr
  obtain ⟨hnodup, -⟩ := node_paths hlnodup hrnodup (fun q hq => ((hlmem q).1 hq).1)
    fun q hq => ((hrmem q).1 hq).1
  refine ⟨_, List.Forall₂.cons h (List.rel_append hlends hrends), hnodup, fun q => ?_⟩
  rw [List.mem_cons, List.mem_append, hlmem, hrmem]
  constructor
  · rintro (rfl | ⟨hinitial, hsome⟩ | ⟨hinitial, hsome⟩)
    · grind
    · grind [prefix_iff_sides]
    grind [prefix_iff_sides]
  grind [prefix_iff_sides]

/-- **A walk of all paths that visits no node twice is of a tree.** -/
theorem CoversTree.onePath (h : CoversTree children root [] nodes) (hnodup : nodes.Nodup) :
    OnePath children root := by
  obtain ⟨paths, hends, -, hmem⟩ := h
  intro p q a hp hq
  have hfirst : p ∈ paths := (hmem p).2 ⟨List.nil_prefix, by rw [hp]; rfl⟩
  have hsecond : q ∈ paths := (hmem q).2 ⟨List.nil_prefix, by rw [hq]; rfl⟩
  obtain ⟨i, hi, rfl⟩ := List.mem_iff_getElem.1 hfirst
  obtain ⟨j, hj, rfl⟩ := List.mem_iff_getElem.1 hsecond
  have hlen : paths.length = nodes.length := List.Forall₂.length_eq hends
  have hi' : i < nodes.length := hlen ▸ hi
  have hj' : j < nodes.length := hlen ▸ hj
  have hat := Option.some.inj ((List.Forall₂.get hends hi hi').symm.trans hp)
  have hat' := Option.some.inj ((List.Forall₂.get hends hj hj').symm.trans hq)
  have hij := congrArg Fin.val (List.nodup_iff_injective_get.1 hnodup (hat.trans hat'.symm))
  subst hij
  rfl

end Unfolding

end Laurus
