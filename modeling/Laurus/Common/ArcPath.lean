import Mathlib

/-!
# Paths through arcs that go forward

Arcs join numbers, each a smaller one to a greater one. When they stand by
the number they leave, every arc into a number comes before those out of it,
so one pass over them meets every path: a path that uses the last arc ends
with it (`path_concat`), one that uses the first begins with it
(`path_cons`). What a pass reaches (`mem_reached`), what reaches a number
(`mem_reaching`) and whatever is carried along the arcs follow.
-/

namespace Laurus

namespace ArcPath

variable {α : Type}

/-- The arcs lead from a number to a number, one after the other. -/
def IsPath (source target : α → ℕ) : ℕ → List α → ℕ → Prop
  | m, [], n => m = n
  | m, a :: path, n => source a = m ∧ IsPath source target (target a) path n

/-- Arcs go forward. -/
def Forward (source target : α → ℕ) (arcs : List α) : Prop := ∀ a ∈ arcs, source a < target a

/-- A path through arcs of a list. -/
structure PathOf (source target : α → ℕ) (arcs : List α) (m : ℕ) (path : List α) (n : ℕ) :
    Prop where
  isPath : IsPath source target m path n
  sub : ∀ a ∈ path, a ∈ arcs

variable {source target : α → ℕ} {arcs path p q : List α} {a : α} {m n k : ℕ}

theorem isPath_append :
    IsPath source target m (p ++ q) n ↔
      ∃ k, IsPath source target m p k ∧ IsPath source target k q n := by
  induction p generalizing m with
  | nil => simp [IsPath]
  | cons a p ih =>
      rw [List.cons_append, IsPath, ih]
      simp only [IsPath]
      tauto

theorem isPath_concat :
    IsPath source target m (p ++ [a]) n ↔ IsPath source target m p (source a) ∧ target a = n := by
  rw [isPath_append]
  constructor
  · rintro ⟨k, hp, hsource, htarget⟩
    exact ⟨hsource ▸ hp, htarget⟩
  · rintro ⟨hp, htarget⟩
    exact ⟨source a, hp, rfl, htarget⟩

namespace PathOf

theorem nil (arcs : List α) (n : ℕ) : PathOf source target arcs n [] n :=
  ⟨rfl, fun _ h => absurd h List.not_mem_nil⟩

theorem mono {arcs' : List α} (h : PathOf source target arcs m p n)
    (hsub : ∀ a ∈ arcs, a ∈ arcs') : PathOf source target arcs' m p n :=
  ⟨h.isPath, fun a ha => hsub a (h.sub a ha)⟩

theorem append (hp : PathOf source target arcs m p k) (hq : PathOf source target arcs k q n) :
    PathOf source target arcs m (p ++ q) n where
  isPath := isPath_append.2 ⟨k, hp.isPath, hq.isPath⟩
  sub a ha := (List.mem_append.1 ha).elim (hp.sub a) (hq.sub a)

theorem single (ha : a ∈ arcs) : PathOf source target arcs (source a) [a] (target a) where
  isPath := ⟨rfl, rfl⟩
  sub b hb := by rwa [List.mem_singleton.1 hb]

theorem le (hforward : Forward source target arcs) (h : PathOf source target arcs m p n) :
    m ≤ n := by
  obtain ⟨hpath, hsub⟩ := h
  induction p generalizing m with
  | nil => exact le_of_eq hpath
  | cons a p ih =>
      rw [List.forall_mem_cons] at hsub
      have hlt := hforward a hsub.1
      have hle := ih hpath.2 hsub.2
      have hsource := hpath.1
      omega

theorem split (h : PathOf source target arcs m p n) (ha : a ∈ p) :
    ∃ before after, p = before ++ a :: after ∧ PathOf source target arcs m before (source a) ∧
      PathOf source target arcs (target a) after n := by
  obtain ⟨before, after, rfl⟩ := List.append_of_mem ha
  obtain ⟨k, hbefore, hsource, hafter⟩ := isPath_append.1 h.isPath
  exact ⟨before, after, rfl,
    ⟨hsource ▸ hbefore, fun b hb => h.sub b (List.mem_append_left _ hb)⟩,
    ⟨hafter, fun b hb => h.sub b (List.mem_append_right _ (List.mem_cons_of_mem a hb))⟩⟩

theorem source_lt (hforward : Forward source target arcs) (h : PathOf source target arcs m p n)
    (ha : a ∈ p) : m ≤ source a ∧ source a < n := by
  obtain ⟨before, after, rfl, hbefore, hafter⟩ := h.split ha
  have hlow := hbefore.le hforward
  have hhigh := hafter.le hforward
  have hlt := hforward a (h.sub a ha)
  omega

theorem ne_nil (h : PathOf source target arcs m p n) (hne : m ≠ n) : p ≠ [] := by
  rintro rfl
  exact hne h.isPath

end PathOf

theorem pathOf_map_iff {β : Type} {f : α → β} {source' target' : β → ℕ} {ρ : ℕ → ℕ}
    {nodes : Set ℕ} (hsource : ∀ a ∈ arcs, source' (f a) = ρ (source a))
    (htarget : ∀ a ∈ arcs, target' (f a) = ρ (target a))
    (hnodes : ∀ a ∈ arcs, source a ∈ nodes ∧ target a ∈ nodes) (hinj : Set.InjOn ρ nodes)
    (hm : m ∈ nodes) (hn : n ∈ nodes) {p' : List β} :
    PathOf source' target' (arcs.map f) (ρ m) p' (ρ n) ↔
      ∃ p, PathOf source target arcs m p n ∧ p.map f = p' := by
  constructor
  · rintro ⟨hpath, hsub⟩
    induction p' generalizing m with
    | nil => exact ⟨[], hinj hm hn hpath ▸ .nil arcs m, rfl⟩
    | cons b p' ih =>
        rw [List.forall_mem_cons] at hsub
        obtain ⟨a, ha, rfl⟩ := List.mem_map.1 hsub.1
        obtain ⟨hfirst, hrest⟩ := hpath
        rw [hsource a ha] at hfirst
        rw [htarget a ha] at hrest
        obtain rfl := hinj (hnodes a ha).1 hm hfirst
        obtain ⟨p, hp, rfl⟩ := ih (hnodes a ha).2 hrest hsub.2
        exact ⟨a :: p, (PathOf.single ha).append hp, rfl⟩
  · rintro ⟨p, ⟨hpath, hsub⟩, rfl⟩
    refine ⟨?_, fun b hb => ?_⟩
    · clear hm
      induction p generalizing m with
      | nil => exact congrArg ρ hpath
      | cons a p ih =>
          grind [IsPath]
    grind

/-- **A path that uses the last arc ends with it.** -/
theorem path_concat (hforward : Forward source target (arcs ++ [a]))
    (hlast : ∀ b ∈ arcs, source b ≤ source a) (h : PathOf source target (arcs ++ [a]) m p n) :
    PathOf source target arcs m p n ∨
      ∃ q, p = q ++ [a] ∧ PathOf source target arcs m q (source a) ∧ target a = n := by
  have hle : ∀ b ∈ arcs ++ [a], source b ≤ source a := by grind
  by_cases hall : ∀ b ∈ p, b ∈ arcs
  · exact Or.inl ⟨h.isPath, hall⟩
  · right
    push Not at hall
    obtain ⟨b, hb, hnot⟩ := hall
    obtain rfl : b = a := List.mem_singleton.1 ((List.mem_append.1 (h.sub b hb)).resolve_left hnot)
    obtain ⟨before, after, rfl, hbefore, hafter⟩ := h.split hb
    -- an arc after it would leave a greater number
    have hnil : after = [] := by
      rcases after with _ | ⟨c, after⟩
      · rfl
      · have hc := hle c (hafter.sub c List.mem_cons_self)
        have hlt := hforward b (h.sub b hb)
        have hsource : source c = target b := hafter.isPath.1
        omega
    subst hnil
    refine ⟨before, rfl, ⟨hbefore.isPath, fun c hc => ?_⟩, hafter.isPath⟩
    refine (List.mem_append.1 (hbefore.sub c hc)).resolve_right fun hcb => ?_
    have hlt := (hbefore.source_lt hforward hc).2
    grind

/-- **A path that uses the first arc begins with it.** -/
theorem path_cons (hforward : Forward source target (a :: arcs))
    (hfirst : ∀ b ∈ arcs, source a ≤ source b) (h : PathOf source target (a :: arcs) m p n) :
    PathOf source target arcs m p n ∨
      ∃ q, p = a :: q ∧ source a = m ∧ PathOf source target arcs (target a) q n := by
  by_cases hall : ∀ b ∈ p, b ∈ arcs
  · exact Or.inl ⟨h.isPath, hall⟩
  · right
    push Not at hall
    obtain ⟨b, hb, hnot⟩ := hall
    obtain rfl : b = a := (List.mem_cons.1 (h.sub b hb)).resolve_right hnot
    obtain ⟨before, after, rfl, hbefore, hafter⟩ := h.split hb
    -- an arc before it would leave a smaller number
    have hnil : before = [] := by
      rcases before with _ | ⟨c, before⟩
      · rfl
      · have hlt := (hbefore.source_lt hforward List.mem_cons_self).2
        grind [PathOf.sub]
    subst hnil
    refine ⟨after, rfl, (hbefore.isPath : m = source b).symm, hafter.isPath, fun c hc => ?_⟩
    refine (List.mem_cons.1 (hafter.sub c hc)).resolve_left fun hcb => ?_
    have hle := (hafter.source_lt hforward hc).1
    have hlt := hforward b (h.sub b hb)
    rw [hcb] at hle
    omega

/-! ## Arcs one after the other -/

/-- **Arcs that are one path have no other** between its ends. -/
theorem pathOf_chain (hforward : Forward source target arcs)
    (hchain : IsPath source target m arcs n) :
    PathOf source target arcs m p n ↔ p = arcs := by
  constructor
  · intro h
    induction arcs generalizing m p with
    | nil =>
        rcases p with _ | ⟨a, p⟩
        · rfl
        · exact absurd (h.sub a List.mem_cons_self) List.not_mem_nil
    | cons a arcs ih =>
        obtain ⟨rfl, hrest⟩ := hchain
        have hforward' : Forward source target arcs := fun b hb =>
          hforward b (List.mem_cons_of_mem a hb)
        have hlt := hforward a List.mem_cons_self
        have hafter : PathOf source target arcs (target a) arcs n := ⟨hrest, fun _ hb => hb⟩
        have hlater : ∀ b ∈ arcs, target a ≤ source b := fun b hb =>
          (hafter.source_lt hforward' hb).1
        rcases path_cons hforward (fun b hb => hlt.le.trans (hlater b hb)) h with
          hp | ⟨q, rfl, -, hq⟩
        · -- a path that leaves the first number leaves along the first arc
          rcases p with _ | ⟨b, p⟩
          · have hends : source a = n := hp.isPath
            have hle := hafter.le hforward'
            omega
          · have hsource : source b = source a := hp.isPath.1
            have hle := hlater b (hp.sub b List.mem_cons_self)
            omega
        · rw [ih hforward' hrest hq]
  · rintro rfl
    exact ⟨hchain, fun _ ha => ha⟩

theorem exists_isPath (hne : arcs ≠ [])
    (hlinked : ∀ pair ∈ arcs.zip arcs.tail, target pair.1 = source pair.2) :
    ∃ m n, IsPath source target m arcs n := by
  induction arcs with
  | nil => exact absurd rfl hne
  | cons a arcs ih =>
      rcases arcs with _ | ⟨b, arcs⟩
      · exact ⟨source a, target a, rfl, rfl⟩
      · rw [List.tail_cons, List.zip_cons_cons, List.forall_mem_cons] at hlinked
        obtain ⟨m, n, hpath⟩ := ih (List.cons_ne_nil b arcs) hlinked.2
        refine ⟨source a, n, rfl, ?_⟩
        have hsource : source b = m := hpath.1
        grind

theorem linked_of_isPath (h : IsPath source target m arcs n) :
    ∀ pair ∈ arcs.zip arcs.tail, target pair.1 = source pair.2 := by
  induction arcs generalizing m with
  | nil => simp
  | cons a arcs ih =>
      rcases arcs with _ | ⟨b, arcs⟩
      · simp
      · rw [List.tail_cons, List.zip_cons_cons, List.forall_mem_cons]
        exact ⟨h.2.1.symm, ih h.2⟩

/-! ## What is reached, and what reaches -/

/-- One pass from `first`. -/
def reached (source target : α → ℕ) (first : ℕ) (arcs : List α) : Finset ℕ :=
  arcs.foldl (fun reached a => if source a ∈ reached then insert (target a) reached else reached)
    {first}

/-- One pass back from `last`. -/
def reaching (source target : α → ℕ) (last : ℕ) (arcs : List α) : Finset ℕ :=
  arcs.reverse.foldl
    (fun reaching a => if target a ∈ reaching then insert (source a) reaching else reaching) {last}

theorem mem_reached (hforward : Forward source target arcs)
    (hsorted : arcs.Pairwise fun a b => source a ≤ source b) :
    n ∈ reached source target m arcs ↔ ∃ p, PathOf source target arcs m p n := by
  induction arcs using List.reverseRecOn generalizing n with
  | nil =>
      simp only [reached, List.foldl_nil, Finset.mem_singleton]
      constructor
      · rintro rfl
        exact ⟨[], .nil _ _⟩
      · rintro ⟨p, hp⟩
        rcases p with _ | ⟨a, p⟩
        · exact hp.isPath.symm
        · exact absurd (hp.sub a List.mem_cons_self) List.not_mem_nil
  | append_singleton arcs a ih =>
      obtain ⟨hsorted', -, hlast⟩ := List.pairwise_append.1 hsorted
      have hlast' : ∀ b ∈ arcs, source b ≤ source a := fun b hb =>
        hlast b hb a (List.mem_singleton_self a)
      have hforward' : Forward source target arcs := fun b hb =>
        hforward b (List.mem_append_left _ hb)
      have hmem : a ∈ arcs ++ [a] := List.mem_append_right _ (List.mem_singleton_self a)
      have hleft : ∀ b ∈ arcs, b ∈ arcs ++ [a] := fun b hb => List.mem_append_left _ hb
      have hsplit : (∃ p, PathOf source target (arcs ++ [a]) m p n) ↔
          (∃ p, PathOf source target arcs m p n) ∨
            ((∃ p, PathOf source target arcs m p (source a)) ∧ target a = n) := by
        constructor
        · rintro ⟨p, hp⟩
          rcases path_concat hforward hlast' hp with hp | ⟨q, rfl, hq, htarget⟩
          · exact Or.inl ⟨p, hp⟩
          grind
        · rintro (⟨p, hp⟩ | ⟨⟨q, hq⟩, rfl⟩)
          · exact ⟨p, hp.mono hleft⟩
          · exact ⟨q ++ [a], (hq.mono hleft).append (.single hmem)⟩
      rw [reached, List.foldl_append, List.foldl_cons, List.foldl_nil, ← reached]
      grind

theorem mem_reaching (hforward : Forward source target arcs)
    (hsorted : arcs.Pairwise fun a b => source a ≤ source b) :
    m ∈ reaching source target n arcs ↔ ∃ p, PathOf source target arcs m p n := by
  induction arcs generalizing m with
  | nil =>
      simp only [reaching, List.reverse_nil, List.foldl_nil, Finset.mem_singleton]
      constructor
      · rintro rfl
        exact ⟨[], .nil _ _⟩
      · rintro ⟨p, hp⟩
        rcases p with _ | ⟨a, p⟩
        · exact hp.isPath
        · exact absurd (hp.sub a List.mem_cons_self) List.not_mem_nil
  | cons a arcs ih =>
      obtain ⟨hfirst, hsorted'⟩ := List.pairwise_cons.1 hsorted
      have hforward' : Forward source target arcs := fun b hb =>
        hforward b (List.mem_cons_of_mem a hb)
      have hright : ∀ b ∈ arcs, b ∈ a :: arcs := fun b hb => List.mem_cons_of_mem a hb
      have hsplit : (∃ p, PathOf source target (a :: arcs) m p n) ↔
          (∃ p, PathOf source target arcs m p n) ∨
            (source a = m ∧ ∃ p, PathOf source target arcs (target a) p n) := by
        constructor
        · rintro ⟨p, hp⟩
          rcases path_cons hforward hfirst hp with hp | ⟨q, rfl, hsource, hq⟩
          · exact Or.inl ⟨p, hp⟩
          · exact Or.inr ⟨hsource, q, hq⟩
        · rintro (⟨p, hp⟩ | ⟨rfl, q, hq⟩)
          · exact ⟨p, hp.mono hright⟩
          · exact ⟨a :: q, (PathOf.single List.mem_cons_self).append (hq.mono hright)⟩
      rw [reaching, List.reverse_cons, List.foldl_append, List.foldl_cons, List.foldl_nil,
        ← reaching]
      grind

theorem source_mem_reached (hpath : IsPath source target m arcs n) (ha : a ∈ arcs) :
    source a ∈ reached source target m arcs := by
  have hkeeps : ∀ (arcs : List α) (S : Finset ℕ), S ⊆ arcs.foldl (fun reached a =>
      if source a ∈ reached then insert (target a) reached else reached) S := by
    intro arcs
    induction arcs with
    | nil => exact fun S => Finset.Subset.refl S
    | cons a arcs ih =>
        grind
  have hall : ∀ (arcs : List α) (S : Finset ℕ) (m : ℕ), m ∈ S → IsPath source target m arcs n →
      ∀ a ∈ arcs, source a ∈ arcs.foldl (fun reached a =>
        if source a ∈ reached then insert (target a) reached else reached) S := by
    intro arcs
    induction arcs with
    | nil => simp
    | cons b arcs ih =>
        rintro S m hm ⟨rfl, hrest⟩
        grind
  exact hall arcs _ m (Finset.mem_singleton_self m) hpath a ha

theorem target_mem_reaching (hpath : IsPath source target m arcs n) :
    m ∈ reaching source target n arcs ∧ ∀ a ∈ arcs, target a ∈ reaching source target n arcs := by
  induction arcs generalizing m with
  | nil =>
      obtain rfl : m = n := hpath
      exact ⟨Finset.mem_singleton_self m, fun a ha => absurd ha List.not_mem_nil⟩
  | cons a arcs ih =>
      obtain ⟨rfl, hrest⟩ := hpath
      obtain ⟨hmem, hall⟩ := ih hrest
      have hstep : reaching source target n (a :: arcs) =
          insert (source a) (reaching source target n arcs) := by
        rw [reaching, List.reverse_cons, List.foldl_append, List.foldl_cons, List.foldl_nil,
          ← reaching, if_pos hmem]
      grind

end ArcPath

/-!
## The depth of a node

Steps only go forward, from a number to a greater one, so a path from 0 has no
more steps than the number it comes to. The depth of a number is the most steps of
a path to it (`isGreatest_depth`): one more than the deepest that steps to it
(`depth_eq`).
-/

namespace Depth

/-- A path of so many steps comes from 0 to a node. -/
inductive Comes (Step : ℕ → ℕ → Prop) : ℕ → ℕ → Prop
  | start : Comes Step 0 0
  | step {steps node next : ℕ} : Comes Step steps node → Step node next →
      Comes Step (steps + 1) next

/-- Steps go forward. -/
def Forward (Step : ℕ → ℕ → Prop) : Prop := ∀ m n, Step m n → m < n

variable {Step : ℕ → ℕ → Prop} {steps node next : ℕ}

theorem Comes.le (hforward : Forward Step) (h : Comes Step steps node) :
    steps ≤ node := by
  induction h with
  | start => exact Nat.le_refl 0
  | step _ hstep ih =>
      have hlt := hforward _ _ hstep
      omega

/-- A node that a path comes to. -/
def Reached (Step : ℕ → ℕ → Prop) (node : ℕ) : Prop := ∃ steps, Comes Step steps node

theorem Reached.start : Reached Step 0 := ⟨0, .start⟩

theorem Reached.step (h : Reached Step node) (hstep : Step node next) : Reached Step next := by
  obtain ⟨steps, h⟩ := h
  exact ⟨steps + 1, h.step hstep⟩

/-- The most steps of a path to a node. -/
noncomputable def depth (Step : ℕ → ℕ → Prop) (node : ℕ) : ℕ := sSup {steps | Comes Step steps node}

/-- **The depth is the length of a longest path.** -/
theorem isGreatest_depth (hforward : Forward Step) (h : Reached Step node) :
    IsGreatest {steps | Comes Step steps node} (depth Step node) := by
  have hbounded : BddAbove {steps | Comes Step steps node} := ⟨node, fun _ h => Comes.le hforward h⟩
  exact ⟨Nat.sSup_mem h hbounded, fun _ h => le_csSup hbounded h⟩

theorem depth_eq_of_isGreatest {most : ℕ} (h : IsGreatest {steps | Comes Step steps node} most) :
    depth Step node = most := h.csSup_eq

theorem depth_le (hforward : Forward Step) (h : Reached Step node) :
    depth Step node ≤ node := Comes.le hforward (isGreatest_depth hforward h).1

theorem depth_zero (hforward : Forward Step) : depth Step 0 = 0 :=
  Nat.le_zero.1 (depth_le hforward Reached.start)

theorem depth_lt (hforward : Forward Step) (h : Reached Step node)
    (hstep : Step node next) : depth Step node < depth Step next :=
  (isGreatest_depth hforward (h.step hstep)).2
    (Comes.step (isGreatest_depth hforward h).1 hstep)

theorem exists_step (hforward : Forward Step) (h : Reached Step next)
    (hne : next ≠ 0) :
    ∃ node, Step node next ∧ Reached Step node ∧ depth Step next = depth Step node + 1 := by
  have hmost := (isGreatest_depth hforward h).1
  generalize hsteps : depth Step next = steps at hmost
  rcases hmost with _ | ⟨hnode, hstep⟩
  · exact absurd rfl hne
  · rename_i steps node
    refine ⟨node, hstep, ⟨steps, hnode⟩, ?_⟩
    have hle := (isGreatest_depth hforward ⟨steps, hnode⟩).2 hnode
    have hlt := depth_lt hforward ⟨steps, hnode⟩ hstep
    omega

/-- **The depth from the steps to a node.** -/
theorem depth_eq (hforward : Forward Step) {most : ℕ}
    (hall : ∀ node, Step node next → Reached Step node → depth Step node + 1 ≤ most)
    (hsome : ∃ node, Step node next ∧ Reached Step node ∧ most ≤ depth Step node + 1) :
    depth Step next = most := by
  obtain ⟨node, hstep, hnode, hmost⟩ := hsome
  have hne : next ≠ 0 := fun h => by
    have hlt := hforward _ _ hstep
    omega
  obtain ⟨node', hstep', hnode', heq⟩ := exists_step hforward (hnode.step hstep) hne
  have hle := hall node' hstep' hnode'
  have hlt := depth_lt hforward hnode hstep
  omega

end Depth

end Laurus
