import Laurus.Common.ArcPath
import Mathlib.Data.List.Flatten
import Mathlib.Data.List.Forall2
import Mathlib.Data.List.TakeWhile
import Mathlib.Order.Bounds.Basic

/-!
# Bundles of paths, in series

A bundle joins two numbers by arcs that all lie on a path from one to the other,
each of whose paths spells a word of its own (`Bundle`). Chains side by side, with
numbers inside that no other has, are a bundle (`bundle_of_chains`). Bundles in
series spell a word of each in turn, every choice on one path (`InSeries.spells`),
and their longest path is a longest one through each (`InSeries.longest`).
-/

namespace Laurus

namespace ArcPath

variable {α β : Type} {source target : α → ℕ} {label : α → β} {arcs xs ys p q : List α} {a : α}
  {m n k s e : ℕ}

theorem PathOf.unique (hforward : Forward source target arcs)
    (hsources : ∀ a ∈ arcs, ∀ b ∈ arcs, source a = source b → a = b)
    (hp : PathOf source target arcs m p n) (hq : PathOf source target arcs m q n) : p = q := by
  induction p generalizing m q with
  | nil =>
      obtain rfl : m = n := hp.isPath
      rcases q with _ | ⟨b, q⟩
      · rfl
      · have hlt := hq.source_lt hforward List.mem_cons_self
        omega
  | cons a p ih =>
      rcases q with _ | ⟨b, q⟩
      · obtain rfl : m = n := hq.isPath
        have hlt := hp.source_lt hforward List.mem_cons_self
        omega
      · obtain ⟨⟨ha, hpath⟩, hsub⟩ := hp
        obtain ⟨⟨hb, hpath'⟩, hsub'⟩ := hq
        rw [List.forall_mem_cons] at hsub hsub'
        obtain rfl := hsources a hsub.1 b hsub'.1 (ha.trans hb.symm)
        rw [ih ⟨hpath, hsub.2⟩ ⟨hpath', hsub'.2⟩]

theorem PathOf.length_le (hforward : Forward source target arcs)
    (h : PathOf source target arcs m p n) : m + p.length ≤ n := by
  obtain ⟨hpath, hsub⟩ := h
  induction p generalizing m with
  | nil => exact le_of_eq hpath
  | cons a p ih =>
      rw [List.forall_mem_cons] at hsub
      have hlt := hforward a hsub.1
      have hle := ih hpath.2 hsub.2
      rw [hpath.1] at hlt
      rw [List.length_cons]
      omega

theorem pathOf_append_iff (hforward : Forward source target (xs ++ ys))
    (hxs : ∀ a ∈ xs, target a ≤ k) (hys : ∀ a ∈ ys, k ≤ source a) (hm : m ≤ k) (hn : k ≤ n) :
    PathOf source target (xs ++ ys) m p n ↔ ∃ p₁ p₂, p = p₁ ++ p₂ ∧
      PathOf source target xs m p₁ k ∧ PathOf source target ys k p₂ n := by
  constructor
  · intro h
    induction p generalizing m with
    | nil =>
        have heq : m = n := h.isPath
        obtain rfl : m = k := by omega
        subst heq
        exact ⟨[], [], rfl, .nil _ _, .nil _ _⟩
    | cons a p ih =>
        have hsource : source a = m := h.isPath.1
        have hmem := h.sub a List.mem_cons_self
        by_cases hmk : m = k
        · -- nothing of the first part is left
          subst hmk
          refine ⟨[], a :: p, rfl, .nil _ _, h.isPath, fun b hb => ?_⟩
          refine (List.mem_append.1 (h.sub b hb)).resolve_left fun hbx => ?_
          have hle := (h.source_lt hforward hb).1
          have hlt := hforward b (h.sub b hb)
          have hstop := hxs b hbx
          omega
        · have hax : a ∈ xs := by grind
          obtain ⟨p₁, p₂, rfl, hp₁, hp₂⟩ := ih (hxs a hax)
            ⟨h.isPath.2, fun b hb => h.sub b (List.mem_cons_of_mem a hb)⟩
          refine ⟨a :: p₁, p₂, rfl, ?_, hp₂⟩
          rw [← hsource]
          exact (PathOf.single hax).append hp₁
  · rintro ⟨p₁, p₂, rfl, hp₁, hp₂⟩
    exact (hp₁.mono fun b hb => List.mem_append_left _ hb).append
      (hp₂.mono fun b hb => List.mem_append_right _ hb)

/-! ## Bundles -/

/-- **A bundle**: all arcs lie on a path from `s` to `e`, and the paths spell the
words, one each; there is one. -/
structure Bundle (source target : α → ℕ) (label : α → β) (arcs : List α) (s e : ℕ)
    (words : Set (List β)) : Prop where
  lt : s < e
  forward : Forward source target arcs
  on_path : ∀ a ∈ arcs, ∃ p, PathOf source target arcs s p e ∧ a ∈ p
  nonempty : words.Nonempty
  spells : Set.BijOn (List.map label) {p | PathOf source target arcs s p e} words

variable {words : Set (List β)}

theorem Bundle.source_mem (h : Bundle source target label arcs s e words) (ha : a ∈ arcs) :
    s ≤ source a ∧ source a < e := by
  obtain ⟨p, hp, hap⟩ := h.on_path a ha
  exact hp.source_lt h.forward hap

theorem Bundle.target_le (h : Bundle source target label arcs s e words) (ha : a ∈ arcs) :
    target a ≤ e := by
  obtain ⟨p, hp, hap⟩ := h.on_path a ha
  obtain ⟨before, after, -, -, hafter⟩ := hp.split hap
  exact hafter.le h.forward

theorem Bundle.exists_path (h : Bundle source target label arcs s e words) :
    ∃ p, PathOf source target arcs s p e := by
  obtain ⟨w, hw⟩ := h.nonempty
  obtain ⟨p, hp, -⟩ := h.spells.surjOn hw
  exact ⟨p, hp⟩

theorem Bundle.reached (h : Bundle source target label arcs s e words) (ha : a ∈ arcs) :
    source a = s ∨ ∃ b ∈ arcs, target b = source a := by
  obtain ⟨p, hp, hap⟩ := h.on_path a ha
  obtain ⟨before, after, -, hbefore, -⟩ := hp.split hap
  rcases List.eq_nil_or_concat' before with rfl | ⟨before, b, rfl⟩
  · exact Or.inl hbefore.isPath.symm
  · exact Or.inr ⟨b, hbefore.sub b (List.mem_append_right _ (List.mem_singleton_self b)),
      (isPath_concat.1 hbefore.isPath).2⟩

theorem Bundle.exists_stop (h : Bundle source target label arcs s e words) :
    ∃ b ∈ arcs, target b = e := by
  obtain ⟨p, hp⟩ := h.exists_path
  rcases List.eq_nil_or_concat' p with rfl | ⟨p, b, rfl⟩
  · exact absurd hp.isPath (Nat.ne_of_lt h.lt)
  · exact ⟨b, hp.sub b (List.mem_append_right _ (List.mem_singleton_self b)),
      (isPath_concat.1 hp.isPath).2⟩

theorem bundle_singleton (hforward : source a < target a) :
    Bundle source target label [a] (source a) (target a) {[label a]} := by
  have hpath : ∀ p, PathOf source target [a] (source a) p (target a) ↔ p = [a] := by
    intro p
    constructor
    · intro hp
      have hf : Forward source target [a] := fun b hb => List.mem_singleton.1 hb ▸ hforward
      refine hp.unique hf (fun b hb c hc _ => ?_) (.single (List.mem_singleton_self a))
      grind
    · rintro rfl
      exact .single (List.mem_singleton_self a)
  have heq : {p | PathOf source target [a] (source a) p (target a)} = {[a]} := Set.ext hpath
  refine ⟨hforward, fun b hb => List.mem_singleton.1 hb ▸ hforward, fun b hb =>
    ⟨[a], (hpath [a]).2 rfl, hb⟩, Set.singleton_nonempty _, ?_⟩
  rw [heq, Set.bijOn_singleton]
  rfl

/-! ## Chains side by side -/

/-- The arcs of chains: the first of each, then each one's others. -/
def side_by_side (chains : List (List α)) : List α :=
  chains.filterMap List.head? ++ chains.flatMap List.tail

variable {chains : List (List α)}

theorem mem_side_by_side : a ∈ side_by_side chains ↔ ∃ c ∈ chains, a ∈ c := by
  rw [side_by_side, List.mem_append, List.mem_filterMap, List.mem_flatMap]
  constructor
  · grind [List.mem_of_head?, List.mem_of_mem_tail]
  · rintro ⟨c, hc, ha⟩
    rcases c with _ | ⟨b, c⟩
    · exact absurd ha List.not_mem_nil
    grind

/-- **The paths of chains side by side are the chains.** -/
theorem pathOf_side_by_side (hlt : s < e)
    (hpath : ∀ c ∈ chains, IsPath source target s c e)
    (hforward : ∀ c ∈ chains, Forward source target c)
    (hinner : ∀ c ∈ chains, ∀ b ∈ c.tail, s < source b)
    (hsources : ((chains.flatMap List.tail).map source).Nodup) :
    PathOf source target (side_by_side chains) s p e ↔ p ∈ chains := by
  have hf : Forward source target (side_by_side chains) := by
    intro b hb
    obtain ⟨c, hc, hbc⟩ := mem_side_by_side.1 hb
    exact hforward c hc b hbc
  constructor
  · intro hp
    rcases p with _ | ⟨a, p⟩
    · exact absurd hp.isPath (Nat.ne_of_lt hlt)
    · have hsource : source a = s := hp.isPath.1
      have hmem := hp.sub a List.mem_cons_self
      -- the first arc begins a chain, whose others are then the only way on
      have hhead : a ∈ chains.filterMap List.head? := by
        refine (List.mem_append.1 hmem).resolve_right fun htail => ?_
        grind
      obtain ⟨c, hc, hhead⟩ := List.mem_filterMap.1 hhead
      obtain ⟨c', rfl⟩ := List.head?_eq_some_iff.1 hhead
      have hp' : PathOf source target (side_by_side chains) (target a) p e :=
        ⟨hp.isPath.2, fun b hb => hp.sub b (List.mem_cons_of_mem a hb)⟩
      have hrest : PathOf source target (chains.flatMap List.tail) (target a) p e := by
        refine ⟨hp'.isPath, fun b hb => ?_⟩
        refine (List.mem_append.1 (hp'.sub b hb)).resolve_left fun hfirst => ?_
        obtain ⟨d, hd, hb'⟩ := List.mem_filterMap.1 hfirst
        obtain ⟨d', rfl⟩ := List.head?_eq_some_iff.1 hb'
        have hle := (hp'.source_lt hf hb).1
        have hstart : source b = s := (hpath _ hd).1
        have hlt' := hf a hmem
        omega
      have hchain : PathOf source target (chains.flatMap List.tail) (target a) c' e :=
        ⟨(hpath _ hc).2, fun b hb => List.mem_flatMap.2 ⟨_, hc, hb⟩⟩
      have hf' : Forward source target (chains.flatMap List.tail) := fun b hb =>
        hf b (List.mem_append_right _ hb)
      rwa [hrest.unique hf' (fun b hb c hc => List.inj_on_of_nodup_map hsources hb hc) hchain]
  · exact fun hp => ⟨hpath p hp, fun b hb => mem_side_by_side.2 ⟨p, hp, hb⟩⟩

/-- **Chains side by side are a bundle.** -/
theorem bundle_of_chains (hlt : s < e)
    (hpath : ∀ c ∈ chains, IsPath source target s c e)
    (hforward : ∀ c ∈ chains, Forward source target c)
    (hinner : ∀ c ∈ chains, ∀ b ∈ c.tail, s < source b)
    (hsources : ((chains.flatMap List.tail).map source).Nodup) (hne : chains ≠ [])
    (hwords : (chains.map (List.map label)).Nodup) :
    Bundle source target label (side_by_side chains) s e {w | w ∈ chains.map (List.map label)} := by
  have hiff : ∀ p, PathOf source target (side_by_side chains) s p e ↔ p ∈ chains := fun p =>
    pathOf_side_by_side hlt hpath hforward hinner hsources
  refine ⟨hlt, fun b hb => ?_, fun b hb => ?_, ?_, ?_⟩
  · obtain ⟨c, hc, hbc⟩ := mem_side_by_side.1 hb
    exact hforward c hc b hbc
  · grind [mem_side_by_side]
  · obtain ⟨c, hc⟩ := List.exists_mem_of_ne_nil chains hne
    exact ⟨c.map label, List.mem_map_of_mem hc⟩
  · refine ⟨fun p hp => List.mem_map_of_mem ((hiff p).1 hp), fun p hp q hq heq => ?_, ?_⟩
    · grind [List.inj_on_of_nodup_map]
    · intro w hw
      grind

/-! ## In series -/

/-- A bundle of a series: its arcs, where it ends and its words. -/
structure Stage (α β : Type) where
  arcs : List α
  stop : ℕ
  words : Set (List β)

/-- Bundles one after the other, the first from `m` on. -/
def InSeries (source target : α → ℕ) (label : α → β) : ℕ → List (Stage α β) → Prop
  | _, [] => True
  | m, stage :: stages =>
    Bundle source target label stage.arcs m stage.stop stage.words ∧
      InSeries source target label stage.stop stages

/-- Where a series ends. -/
def series_stop : ℕ → List (Stage α β) → ℕ
  | m, [] => m
  | _, stage :: stages => series_stop stage.stop stages

/-- The words that a path spells, bundle by bundle. -/
def pick (source : α → ℕ) (label : α → β) : List (Stage α β) → List α → List (List β)
  | [], _ => []
  | stage :: stages, p =>
    (p.takeWhile fun a => source a < stage.stop).map label ::
      pick source label stages (p.dropWhile fun a => source a < stage.stop)

variable {stage : Stage α β} {stages before after : List (Stage α β)}

namespace InSeries

theorem le_stop (h : InSeries source target label m stages) : m ≤ series_stop m stages := by
  induction stages generalizing m with
  | nil => exact le_refl m
  | cons stage stages ih => exact h.1.lt.le.trans (ih h.2)

theorem append : InSeries source target label m (before ++ after) ↔
    InSeries source target label m before ∧
      InSeries source target label (series_stop m before) after := by
  induction before generalizing m with
  | nil => exact ⟨fun h => ⟨trivial, h⟩, fun h => h.2⟩
  | cons stage before ih =>
      rw [List.cons_append, InSeries, ih, InSeries, series_stop, and_assoc]

theorem source_le (h : InSeries source target label m stages)
    (ha : a ∈ stages.flatMap Stage.arcs) : m ≤ source a := by
  induction stages generalizing m with
  | nil => exact absurd ha List.not_mem_nil
  | cons stage stages ih =>
      rcases List.mem_append.1 ha with ha | ha
      · exact (h.1.source_mem ha).1
      · exact h.1.lt.le.trans (ih h.2 ha)

theorem forward (h : InSeries source target label m stages) :
    Forward source target (stages.flatMap Stage.arcs) := by
  induction stages generalizing m with
  | nil => exact fun a ha => absurd ha List.not_mem_nil
  | cons stage stages ih =>
      intro a ha
      rcases List.mem_append.1 ha with ha | ha
      · exact h.1.forward a ha
      · exact ih h.2 a ha

/-- A path through a series goes through its first bundle, then through the others. -/
theorem path_iff (h : InSeries source target label m (stage :: stages)) :
    PathOf source target ((stage :: stages).flatMap Stage.arcs) m p
        (series_stop m (stage :: stages)) ↔
      ∃ p₁ p₂, p = p₁ ++ p₂ ∧ PathOf source target stage.arcs m p₁ stage.stop ∧
        PathOf source target (stages.flatMap Stage.arcs) stage.stop p₂
          (series_stop stage.stop stages) := by
  exact pathOf_append_iff h.forward (fun a ha => h.1.target_le ha) (fun a ha => h.2.source_le ha)
    h.1.lt.le h.2.le_stop

theorem reached (h : InSeries source target label m stages)
    (ha : a ∈ stages.flatMap Stage.arcs) :
    source a = m ∨ ∃ b ∈ stages.flatMap Stage.arcs, target b = source a := by
  induction stages generalizing m with
  | nil => exact absurd ha List.not_mem_nil
  | cons stage stages ih =>
      rcases List.mem_append.1 ha with ha | ha
      · exact (h.1.reached ha).imp_right fun ⟨b, hb, heq⟩ => ⟨b, List.mem_append_left _ hb, heq⟩
      · rcases ih h.2 ha with hsource | ⟨b, hb, heq⟩
        · obtain ⟨b, hb, hstop⟩ := h.1.exists_stop
          grind
        grind

theorem target_le (h : InSeries source target label m stages)
    (ha : a ∈ stages.flatMap Stage.arcs) : target a ≤ series_stop m stages := by
  induction stages generalizing m with
  | nil => exact absurd ha List.not_mem_nil
  | cons stage stages ih =>
      rcases List.mem_append.1 ha with ha | ha
      · exact (h.1.target_le ha).trans h.2.le_stop
      · exact ih h.2 ha

theorem exists_stop (h : InSeries source target label m stages) (hne : stages ≠ []) :
    ∃ b ∈ stages.flatMap Stage.arcs, target b = series_stop m stages := by
  induction stages generalizing m with
  | nil => exact absurd rfl hne
  | cons stage stages ih =>
      rcases stages with _ | ⟨stage', stages⟩
      · obtain ⟨b, hb, hstop⟩ := h.1.exists_stop
        exact ⟨b, List.mem_append_left _ hb, hstop⟩
      · obtain ⟨b, hb, hstop⟩ := ih h.2 (List.cons_ne_nil _ _)
        exact ⟨b, List.mem_append_right _ hb, hstop⟩

/-- A path into a series that stops before another part of it does not leave it. -/
theorem path_left (h : InSeries source target label m (before ++ after)) :
    PathOf source target ((before ++ after).flatMap Stage.arcs) m p (series_stop m before) ↔
      PathOf source target (before.flatMap Stage.arcs) m p (series_stop m before) := by
  have hafter := (append.1 h).2
  have hforward := h.forward
  rw [List.flatMap_append] at hforward ⊢
  refine ⟨fun hp => ⟨hp.isPath, fun a ha => ?_⟩, fun hp =>
    hp.mono fun a ha => List.mem_append_left _ ha⟩
  refine (List.mem_append.1 (hp.sub a ha)).resolve_right fun hright => ?_
  have hlt := (hp.source_lt hforward ha).2
  have hle := hafter.source_le hright
  omega

/-! ### Numbers that rise along arcs -/

end InSeries

variable {rank : ℕ → ℕ}

theorem PathOf.rises (hrank : ∀ a ∈ arcs, rank (source a) < rank (target a))
    (h : PathOf source target arcs m p n) : rank m ≤ rank n := by
  obtain ⟨hpath, hsub⟩ := h
  induction p generalizing m with
  | nil => exact le_of_eq (congrArg rank hpath)
  | cons a p ih =>
      rw [List.forall_mem_cons] at hsub
      have hlt := hrank a hsub.1
      have hle := ih hpath.2 hsub.2
      rw [hpath.1] at hlt
      omega

theorem Bundle.rises (h : Bundle source target label arcs s e words)
    (hrank : ∀ a ∈ arcs, rank (source a) < rank (target a)) (ha : a ∈ arcs) :
    rank s ≤ rank (source a) ∧ rank (source a) < rank e := by
  obtain ⟨p, hp, hap⟩ := h.on_path a ha
  obtain ⟨before, after, -, hbefore, hafter⟩ := hp.split hap
  exact ⟨hbefore.rises hrank, (hrank a ha).trans_le (hafter.rises hrank)⟩

namespace InSeries

theorem rises_stop (h : InSeries source target label m stages)
    (hrank : ∀ a ∈ stages.flatMap Stage.arcs, rank (source a) < rank (target a)) :
    rank m ≤ rank (series_stop m stages) := by
  induction stages generalizing m with
  | nil => exact le_refl _
  | cons stage stages ih =>
      obtain ⟨p, hp⟩ := h.1.exists_path
      exact (hp.rises fun a ha => hrank a (List.mem_append_left _ ha)).trans
        (ih h.2 fun a ha => hrank a (List.mem_append_right _ ha))

theorem rises (h : InSeries source target label m stages)
    (hrank : ∀ a ∈ stages.flatMap Stage.arcs, rank (source a) < rank (target a))
    (ha : a ∈ stages.flatMap Stage.arcs) :
    rank m ≤ rank (source a) ∧ rank (source a) < rank (series_stop m stages) := by
  induction stages generalizing m with
  | nil => exact absurd ha List.not_mem_nil
  | cons stage stages ih =>
      have hfirst : ∀ a ∈ stage.arcs, rank (source a) < rank (target a) := fun a ha =>
        hrank a (List.mem_append_left _ ha)
      have hrest : ∀ a ∈ stages.flatMap Stage.arcs, rank (source a) < rank (target a) :=
        fun a ha => hrank a (List.mem_append_right _ ha)
      rcases List.mem_append.1 ha with ha | ha
      · obtain ⟨hle, hlt⟩ := h.1.rises hfirst ha
        exact ⟨hle, hlt.trans_le (h.2.rises_stop hrest)⟩
      · obtain ⟨p, hp⟩ := h.1.exists_path
        obtain ⟨hle, hlt⟩ := ih h.2 hrest ha
        exact ⟨(hp.rises hfirst).trans hle, hlt⟩

theorem exists_path (h : InSeries source target label m stages) :
    ∃ p, PathOf source target (stages.flatMap Stage.arcs) m p (series_stop m stages) := by
  induction stages generalizing m with
  | nil => exact ⟨[], .nil _ _⟩
  | cons stage stages ih =>
      obtain ⟨p₁, hp₁⟩ := h.1.exists_path
      obtain ⟨p₂, hp₂⟩ := ih h.2
      exact ⟨p₁ ++ p₂, h.path_iff.2 ⟨p₁, p₂, rfl, hp₁, hp₂⟩⟩

/-! ### Words -/

theorem pick_append {p₁ p₂ : List α} (h : InSeries source target label m (stage :: stages))
    (hp₁ : PathOf source target stage.arcs m p₁ stage.stop)
    (hp₂ : PathOf source target (stages.flatMap Stage.arcs) stage.stop p₂
      (series_stop stage.stop stages)) :
    pick source label (stage :: stages) (p₁ ++ p₂) =
      p₁.map label :: pick source label stages p₂ := by
  have hbefore : ∀ a ∈ p₁, (decide (source a < stage.stop)) = true := fun a ha =>
    decide_eq_true (hp₁.source_lt h.1.forward ha).2
  have htake : (p₂.takeWhile fun a => source a < stage.stop) = [] ∧
      (p₂.dropWhile fun a => source a < stage.stop) = p₂ := by
    rcases p₂ with _ | ⟨b, p₂⟩
    · exact ⟨rfl, rfl⟩
    · have hsource : source b = stage.stop := hp₂.isPath.1
      have hnot : ¬ (decide (source b < stage.stop)) = true := by grind
      exact ⟨List.takeWhile_cons_of_neg hnot, List.dropWhile_cons_of_neg hnot⟩
  rw [pick, List.takeWhile_append_of_pos hbefore, List.dropWhile_append_of_pos hbefore, htake.1,
    htake.2, List.append_nil]

/-- **Every choice of words is on one path through the series.** -/
theorem spells (h : InSeries source target label m stages) :
    Set.BijOn (pick source label stages)
      {p | PathOf source target (stages.flatMap Stage.arcs) m p (series_stop m stages)}
      {choice | List.Forall₂ (fun w stage => w ∈ stage.words) choice stages} := by
  induction stages generalizing m with
  | nil =>
      refine ⟨fun p _ => List.Forall₂.nil, fun p hp q hq _ => ?_, fun c hc => ?_⟩
      · have hnil : ∀ p : List α, (∀ a ∈ p, a ∈ ([] : List α)) → p = [] := fun p hp =>
          List.eq_nil_iff_forall_not_mem.2 fun a ha => absurd (hp a ha) List.not_mem_nil
        rw [hnil p hp.sub, hnil q hq.sub]
      · exact ⟨[], .nil _ _, (List.forall₂_nil_right_iff.1 hc).symm⟩
  | cons stage stages ih =>
      have hrest := ih h.2
      refine ⟨fun p hp => ?_, fun p hp q hq heq => ?_, fun c hc => ?_⟩
      · obtain ⟨p₁, p₂, rfl, hp₁, hp₂⟩ := h.path_iff.1 hp
        rw [h.pick_append hp₁ hp₂]
        exact List.Forall₂.cons (h.1.spells.mapsTo hp₁) (hrest.mapsTo hp₂)
      · obtain ⟨p₁, p₂, rfl, hp₁, hp₂⟩ := h.path_iff.1 hp
        obtain ⟨q₁, q₂, rfl, hq₁, hq₂⟩ := h.path_iff.1 hq
        rw [h.pick_append hp₁ hp₂, h.pick_append hq₁ hq₂] at heq
        obtain ⟨hfirst, hothers⟩ := List.cons.inj heq
        rw [h.1.spells.injOn hp₁ hq₁ hfirst, hrest.injOn hp₂ hq₂ hothers]
      · obtain ⟨w, c', hw, hothers, rfl⟩ := List.forall₂_cons_right_iff.1 hc
        obtain ⟨p₁, hp₁, rfl⟩ := h.1.spells.surjOn hw
        obtain ⟨p₂, hp₂, rfl⟩ := hrest.surjOn hothers
        exact ⟨p₁ ++ p₂, h.path_iff.2 ⟨p₁, p₂, rfl, hp₁, hp₂⟩, h.pick_append hp₁ hp₂⟩

theorem flatten_pick (h : InSeries source target label m stages)
    (hp : PathOf source target (stages.flatMap Stage.arcs) m p (series_stop m stages)) :
    (pick source label stages p).flatten = p.map label := by
  induction stages generalizing m p with
  | nil =>
      rcases p with _ | ⟨a, p⟩
      · rfl
      · exact absurd (hp.sub a List.mem_cons_self) List.not_mem_nil
  | cons stage stages ih =>
      obtain ⟨p₁, p₂, rfl, hp₁, hp₂⟩ := h.path_iff.1 hp
      rw [h.pick_append hp₁ hp₂, List.flatten_cons, ih h.2 hp₂, List.map_append]

/-- **A longest path through the series** is a longest one through each bundle. -/
theorem longest {most : List ℕ} (h : InSeries source target label m stages)
    (hmost : List.Forall₂ (fun stage k => IsGreatest (Set.image List.length stage.words) k)
      stages most) :
    IsGreatest {k | ∃ p, PathOf source target (stages.flatMap Stage.arcs) m p
      (series_stop m stages) ∧ p.length = k} most.sum := by
  induction hmost generalizing m with
  | nil =>
      refine ⟨⟨[], .nil _ _, rfl⟩, ?_⟩
      rintro k ⟨p, hp, rfl⟩
      rcases p with _ | ⟨a, p⟩
      · exact le_refl _
      · exact absurd (hp.sub a List.mem_cons_self) List.not_mem_nil
  | cons hfirst _ ih =>
      obtain ⟨⟨p₂, hp₂, hlength₂⟩, hle₂⟩ := ih h.2
      obtain ⟨⟨w, hw, hlength₁⟩, hle₁⟩ := hfirst
      obtain ⟨p₁, hp₁, rfl⟩ := h.1.spells.surjOn hw
      constructor
      · exact ⟨p₁ ++ p₂, h.path_iff.2 ⟨p₁, p₂, rfl, hp₁, hp₂⟩, by grind⟩
      · rintro k ⟨p, hp, rfl⟩
        obtain ⟨q₁, q₂, rfl, hq₁, hq₂⟩ := h.path_iff.1 hp
        have hfirst := hle₁ ⟨_, h.1.spells.mapsTo hq₁, rfl⟩
        have hothers := hle₂ ⟨q₂, hq₂, rfl⟩
        grind

end InSeries

end ArcPath

end Laurus
