import Mathlib

/-!
# A chain of nearest neighbours

Each element of the chain is nearest to the one before it, and nearer than
that one was to its own. So no element comes twice (`Descends.nodup`), the
chain can go on with anything nearer than the last step (`Descends.push`),
and what is left of it stays a chain as long as nothing comes nearer
(`Descends.transfer`).
-/

namespace Laurus

namespace NearestChain

variable {κ α : Type} [LinearOrder α] {D D' : κ → κ → α} {active active' : κ → Prop}
variable {x y z : κ} {rest chain : List κ}

/-- A chain of nearest neighbours, the last one first. -/
inductive Descends (D : κ → κ → α) (active : κ → Prop) : List κ → Prop
  | nil : Descends D active []
  | single {x : κ} : active x → Descends D active [x]
  | push {x y : κ} {rest : List κ} : Descends D active (y :: rest) → active x → x ≠ y →
      (∀ i, active i → i ≠ y → D y x ≤ D y i) → (∀ z ∈ rest.head?, D y x < D z y) →
      Descends D active (x :: y :: rest)

theorem Descends.active_of_mem (h : Descends D active chain) : ∀ c ∈ chain, active c := by
  induction h with
  | nil => exact fun c hc => absurd hc List.not_mem_nil
  | single hx =>
      grind
  | push _ hx _ _ _ ih =>
      grind

theorem Descends.tail (h : Descends D active (x :: chain)) : Descends D active chain := by
  rcases h with _ | _ | ⟨h, -, -, -, -⟩
  · exact .nil
  · exact h

theorem Descends.nearest (h : Descends D active (x :: y :: rest)) {i : κ} (hi : active i)
    (hne : i ≠ y) : D y x ≤ D y i := by
  rcases h with _ | _ | ⟨-, -, -, hnear, -⟩
  exact hnear i hi hne

theorem Descends.ne (h : Descends D active (x :: y :: rest)) : x ≠ y := by
  rcases h with _ | _ | ⟨-, -, hne, -, -⟩
  exact hne

/-- **The last step is shorter than any way from an element further down.** -/
theorem Descends.lt_of_mem (h : Descends D active (x :: y :: rest)) (hz : z ∈ rest) {i : κ}
    (hi : active i) (hne : i ≠ z) : D y x < D z i := by
  induction rest generalizing x y with
  | nil => exact absurd hz List.not_mem_nil
  | cons first rest ih =>
      have hstep : D y x < D first y := by
        rcases h with _ | _ | ⟨-, -, -, -, hless⟩
        exact hless first rfl
      rcases List.mem_cons.1 hz with rfl | hz
      · exact hstep.trans_le (h.tail.nearest hi hne)
      · exact hstep.trans (ih h.tail hz)

/-- **No element comes twice.** -/
theorem Descends.nodup (hsymm : ∀ a b, D a b = D b a) (h : Descends D active chain) :
    chain.Nodup := by
  induction chain with
  | nil => exact List.nodup_nil
  | cons x chain ih =>
      refine List.nodup_cons.2 ⟨fun hx => ?_, ih h.tail⟩
      rcases chain with _ | ⟨y, rest⟩
      · exact List.not_mem_nil hx
      · rcases List.mem_cons.1 hx with rfl | hx
        · exact h.ne rfl
        · have hy : y ∉ rest := (List.nodup_cons.1 (ih h.tail)).1
          have hne : y ≠ x := by
            rintro rfl
            exact hy hx
          have hlt := h.lt_of_mem hx (h.active_of_mem y (by simp)) hne
          grind

/-- **A step shorter than the last one**, to what is nearest, goes on. -/
theorem Descends.push_nearer (hsymm : ∀ a b, D a b = D b a) (h : Descends D active (x :: y :: rest))
    (hz : active z) (hne : z ≠ x) (hnear : ∀ i, active i → i ≠ x → D x z ≤ D x i)
    (hlt : D x z < D x y) : Descends D active (z :: x :: y :: rest) := by
  refine .push h hz hne hnear fun w hw => ?_
  grind

/-- **A chain stays one** while its own distances stay and nothing comes
nearer to its elements. -/
theorem Descends.transfer (h : Descends D active chain) (hactive : ∀ c ∈ chain, active' c)
    (hsame : ∀ a ∈ chain, ∀ b ∈ chain, a ≠ b → D' a b = D a b)
    (hfar : ∀ c ∈ chain, ∀ i, active' i → i ≠ c → ∃ i', active i' ∧ i' ≠ c ∧ D c i' ≤ D' c i) :
    Descends D' active' chain := by
  induction h with
  | nil => exact .nil
  | single _ => exact .single (hactive _ List.mem_cons_self)
  | @push x y rest h _ hne hnear hless ih =>
      have htail : ∀ c ∈ y :: rest, c ∈ x :: y :: rest := fun c hc => List.mem_cons_of_mem _ hc
      have hxy : D' y x = D y x := hsame y (by simp) x (by simp) hne.symm
      refine .push (ih (fun c hc => hactive c (htail c hc))
        (fun a ha b hb => hsame a (htail a ha) b (htail b hb)) fun c hc => hfar c (htail c hc))
        (hactive x List.mem_cons_self) hne (fun i hi hi' => ?_) fun z hz => ?_
      · grind
      · have hmem : z ∈ rest := List.mem_of_mem_head? hz
        rw [hxy]
        by_cases hzy : z = y
        · subst hzy
          rcases rest with _ | ⟨w, rest⟩
          · exact absurd hmem List.not_mem_nil
          grind [ne]
        grind

end NearestChain

end Laurus
