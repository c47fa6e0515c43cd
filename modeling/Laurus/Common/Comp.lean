import Mathlib.Data.List.Basic
import Mathlib.Data.List.Forall2

/-!
# Failing computations over a state, and two ways to reason about them

`Comp ε σ α` runs from a state to a value and a state, or fails. Two
judgements are derived for it. `Triple bad P p Q` is partial correctness
with a forbidden class of failures: from `P` a success meets `Q`, and no
failure is `bad`. `Reads p bs a` is for computations that consume an
input: on any input that begins with `bs`, `p` takes exactly `bs` and
returns `a`. Each has one rule for each way a computation is built, so a
proof follows the program text.
-/

namespace Laurus

/-- A computation over `σ` that may fail with `ε`. -/
abbrev Comp (ε σ α : Type) := StateT σ (Except ε) α

namespace Comp

variable {ε σ α β : Type}

theorem bind_apply (p : Comp ε σ α) (f : α → Comp ε σ β) (s : σ) :
    (p >>= f) s = match p s with
      | .ok (a, s') => f a s'
      | .error e => .error e := by
  simp only [bind, StateT.bind, Except.bind]
  grind

theorem pure_apply (a : α) (s : σ) : (pure a : Comp ε σ α) s = .ok (a, s) := rfl

theorem throw_apply (e : ε) (s : σ) : (throw e : Comp ε σ α) s = .error e := rfl

theorem get_apply (s : σ) : (get : Comp ε σ σ) s = .ok (s, s) := rfl

theorem set_apply (s s' : σ) : (set s' : Comp ε σ PUnit) s = .ok (⟨⟩, s') := rfl

/-- **Inversion of a sequence**: what succeeds as a whole succeeds in
parts. -/
theorem bind_eq_ok {p : Comp ε σ α} {f : α → Comp ε σ β} {s t : σ} {b : β}
    (h : (p >>= f) s = .ok (b, t)) : ∃ a s', p s = .ok (a, s') ∧ f a s' = .ok (b, t) := by
  rw [bind_apply] at h
  grind

/-! ## Triples -/

/-- From `P`, a success of `p` meets `Q`, and no failure is `bad`. -/
def Triple (bad : ε → Prop) (P : σ → Prop) (p : Comp ε σ α) (Q : α → σ → Prop) : Prop :=
  ∀ s, P s → (∀ a s', p s = .ok (a, s') → Q a s') ∧ (∀ e, p s = .error e → ¬ bad e)

namespace Triple

variable {bad : ε → Prop} {P P' : σ → Prop} {Q Q' : α → σ → Prop} {R : β → σ → Prop}

theorem pure {a : α} (h : ∀ s, P s → Q a s) : Triple bad P (pure a) Q := by
  intro s hs
  refine ⟨fun b s' hb => ?_, fun e he => ?_⟩
  · cases hb; exact h s hs
  · cases he

theorem throw {e : ε} (h : ¬ bad e) : Triple bad P (throw e) Q := by
  intro s _
  refine ⟨fun b s' hb => ?_, fun e' he => ?_⟩
  · cases hb
  · cases he; exact h

variable {p : Comp ε σ α}

theorem bind {f : α → Comp ε σ β} (hp : Triple bad P p Q)
    (hf : ∀ a, Triple bad (Q a) (f a) R) : Triple bad P (p >>= f) R := by
  intro s hs
  rw [bind_apply]
  cases h : p s with
  | error e =>
      refine ⟨fun b s' hb => ?_, fun e' he => ?_⟩
      · cases hb
      · cases he; exact (hp s hs).2 e h
  | ok r => exact hf r.1 r.2 ((hp s hs).1 r.1 r.2 h)

theorem get_bind {f : σ → Comp ε σ β} (h : ∀ s, P s → Triple bad P (f s) R) :
    Triple bad P (get >>= f) R := by
  intro s hs
  exact h s hs s hs

theorem mono (h : Triple bad P p Q) (hP : ∀ s, P' s → P s)
    (hQ : ∀ a s, Q a s → Q' a s) : Triple bad P' p Q' := by
  intro s hs
  exact ⟨fun a s' ha => hQ a s' ((h s (hP s hs)).1 a s' ha), (h s (hP s hs)).2⟩

theorem pre (h : Triple bad P p Q) (hP : ∀ s, P' s → P s) :
    Triple bad P' p Q := h.mono hP fun _ _ hq => hq

theorem post (h : Triple bad P p Q) (hQ : ∀ a s, Q a s → Q' a s) :
    Triple bad P p Q' := h.mono (fun _ hs => hs) hQ

theorem ite {c : Prop} [Decidable c] {q : Comp ε σ α} (hp : c → Triple bad P p Q)
    (hq : ¬ c → Triple bad P q Q) : Triple bad P (if c then p else q) Q := by grind

theorem assume {φ : Prop} (h : φ → Triple bad P p Q) :
    Triple bad (fun s => φ ∧ P s) p Q := fun s hs => h hs.1 s hs.2

/-- Two results about one computation are one, though they forbid different
failures. -/
theorem and {bad' : ε → Prop} (h : Triple bad P p Q)
    (h' : Triple bad' P p Q') : Triple bad P p fun a s => Q a s ∧ Q' a s := fun s hs =>
  ⟨fun a s' ha => ⟨(h s hs).1 a s' ha, (h' s hs).1 a s' ha⟩, (h s hs).2⟩

theorem weaken {bad' : ε → Prop} (h : Triple bad P p Q)
    (hbad : ∀ e, bad' e → bad e) : Triple bad' P p Q := fun s hs =>
  ⟨(h s hs).1, fun e he hb => (h s hs).2 e he (hbad e hb)⟩

theorem ok (h : Triple bad P p Q) {s s' : σ} {a : α} (hs : P s)
    (ha : p s = .ok (a, s')) : Q a s' := (h s hs).1 a s' ha

theorem error (h : Triple bad P p Q) {s : σ} {e : ε} (hs : P s)
    (he : p s = .error e) : ¬ bad e := (h s hs).2 e he

end Triple

/-! ## Reading an input

The state carries an unread input; consuming a prefix of it is the one
way it moves. -/

/-- A state with an unread input of `β`s. -/
class Input (σ : Type) (β : outParam Type) where
  /-- What is still unread. -/
  rest : σ → List β
  /-- The state after consuming a prefix of what is unread. -/
  advance : σ → List β → σ
  advance_nil : ∀ s, advance s [] = s
  advance_append : ∀ s bs cs, advance (advance s bs) cs = advance s (bs ++ cs)
  rest_advance : ∀ {s bs t}, rest s = bs ++ t → rest (advance s bs) = t

variable {γ : Type} [Input σ γ]

/-- On an input that begins with `bs`, `p` takes exactly `bs` and returns
`a`. -/
def Reads (p : Comp ε σ α) (bs : List γ) (a : α) : Prop :=
  ∀ s t, Input.rest s = bs ++ t → p s = .ok (a, Input.advance s bs)

namespace Reads

theorem pure (a : α) : Reads (σ := σ) (ε := ε) (pure a) [] a := by
  intro s t _
  rw [pure_apply, Input.advance_nil]

variable {p : Comp ε σ α} {f : α → Comp ε σ β} {bs : List γ} {a : α} {b : β}

/-- **Readers compose as their inputs concatenate.** -/
theorem bind {cs : List γ}
    (hp : Reads p bs a) (hf : Reads (f a) cs b) : Reads (p >>= f) (bs ++ cs) b := by
  intro s t hs
  rw [List.append_assoc] at hs
  rw [bind_apply, hp s _ hs]
  exact (hf _ t (Input.rest_advance hs)).trans (by rw [Input.advance_append])

theorem bind_nil
    (hp : Reads p bs a) (hf : Reads (f a) ([] : List γ) b) : Reads (p >>= f) bs b := by
  simpa using hp.bind hf

theorem nil_bind
    (hp : Reads p ([] : List γ) a) (hf : Reads (f a) bs b) : Reads (p >>= f) bs b := by
  simpa using hp.bind hf

/-- A failure-free step before the reader proper: `pre` returns `a` and
leaves the state. -/
theorem of_step
    (h : ∀ s t, Input.rest s = bs ++ t → ∃ a, p s = .ok (a, s) ∧ Reads (f a) bs b) :
    Reads (p >>= f) bs b := by
  intro s t hs
  obtain ⟨a, ha, hf⟩ := h s t hs
  rw [bind_apply, ha]
  exact hf s t hs

end Reads

/-- Whatever the input, a success of `p` has taken a beginning of it that
meets `S` with the value returned. -/
def Takes (p : Comp ε σ α) (S : α → List γ → Prop) : Prop :=
  ∀ s a s', p s = .ok (a, s') → ∃ bs t, Input.rest s = bs ++ t ∧ s' = Input.advance s bs ∧ S a bs

namespace Takes

variable {S S' : α → List γ → Prop} {T : β → List γ → Prop}

theorem pure {a : α} (h : S a []) : Takes (pure a : Comp ε σ α) S := by
  intro s a' s' heq
  cases heq
  exact ⟨[], Input.rest s, rfl, (Input.advance_nil s).symm, h⟩

theorem throw (e : ε) : Takes (throw e : Comp ε σ α) S := by
  intro s a s' heq
  cases heq

theorem bind {p : Comp ε σ α} {f : α → Comp ε σ β} (hp : Takes p S)
    (hf : ∀ a bs, S a bs → Takes (f a) fun b cs => T b (bs ++ cs)) : Takes (p >>= f) T := by
  intro s b s' heq
  obtain ⟨a, s₁, hfirst, hsecond⟩ := bind_eq_ok heq
  obtain ⟨bs, t, hrest, rfl, hS⟩ := hp s a s₁ hfirst
  obtain ⟨cs, u, hrest', rfl, hT⟩ := hf a bs hS _ b s' hsecond
  grind [Input.advance_append, Input.rest_advance]

theorem get_bind {f : σ → Comp ε σ β} (hf : ∀ s, Takes (f s) T) : Takes (get >>= f) T := by
  intro s b s' heq
  exact hf s s b s' heq

theorem post {p : Comp ε σ α} (h : Takes p S) (hS : ∀ a bs, S a bs → S' a bs) : Takes p S' := by
  intro s a s' heq
  obtain ⟨bs, t, hrest, hadvance, hs⟩ := h s a s' heq
  grind

end Takes

/-! ## Writing an output

The dual: appending to the output is the one way the state moves. -/

/-- A state with an output of `β`s. -/
class Output (σ : Type) (β : outParam Type) where
  /-- The states appending is described from. -/
  Ready : σ → Prop
  /-- The state after appending. -/
  emit : σ → List β → σ
  emit_nil : ∀ s, emit s [] = s
  emit_append : ∀ s bs cs, emit (emit s bs) cs = emit s (bs ++ cs)
  ready_emit : ∀ {s bs}, Ready s → Ready (emit s bs)

variable {τ δ : Type} [Output τ δ]

/-- From a ready state, `p` appends exactly `bs` and returns `a`. -/
def Emits (p : Comp ε τ α) (bs : List δ) (a : α) : Prop :=
  ∀ s, Output.Ready s → p s = .ok (a, Output.emit s bs)

namespace Emits

theorem pure (a : α) : Emits (τ := τ) (ε := ε) (pure a) [] a := by
  intro s _
  rw [pure_apply, Output.emit_nil]

/-- **Writers compose as their outputs concatenate.** -/
theorem bind {p : Comp ε τ α} {f : α → Comp ε τ β} {bs cs : List δ} {a : α} {b : β}
    (hp : Emits p bs a) (hf : Emits (f a) cs b) : Emits (p >>= f) (bs ++ cs) b := by
  intro s hs
  rw [bind_apply, hp s hs]
  exact (hf _ (Output.ready_emit hs)).trans (by rw [Output.emit_append])

end Emits

/-! ## Round trips

A writer and the reader of what it writes, built alike, are proved inverse
side by side: one rule for each way both are built. -/

variable {κ ω η ζ : Type} [Output ω γ]

/-- What `p` writes, at least `least` symbols, `q` takes; they return `a` and
`b`. -/
def Carries (least : ℕ) (p : Comp ε ω α) (a : α) (q : Comp κ σ β) (b : β) : Prop :=
  ∃ bs : List γ, least ≤ bs.length ∧ Emits p bs a ∧ Reads q bs b

namespace Carries

variable {p : Comp ε ω α} {q : Comp κ σ β} {a : α} {b : β} {least k : ℕ}

theorem pure (a : α) (b : β) :
    Carries 0 (pure a : Comp ε ω α) a (Pure.pure b : Comp κ σ β) b :=
  ⟨[], Nat.le_refl _, Emits.pure a, Reads.pure b⟩

theorem bind {f : α → Comp ε ω η} {g : β → Comp κ σ ζ} {c : η} {d : ζ} {m : ℕ}
    (h : Carries least p a q b) (hf : Carries k (f a) c (g b) d) (hm : m ≤ least + k) :
    Carries m (p >>= f) c (q >>= g) d := by
  obtain ⟨bs, hbs, hp, hq⟩ := h
  obtain ⟨cs, hcs, hp', hq'⟩ := hf
  exact ⟨bs ++ cs, by rw [List.length_append]; omega, hp.bind hp', hq.bind hq'⟩

theorem mono (h : Carries least p a q b) (hk : k ≤ least) : Carries k p a q b :=
  let ⟨bs, hbs, hp, hq⟩ := h
  ⟨bs, Nat.le_trans hk hbs, hp, hq⟩

theorem map {f : β → Comp κ σ ζ} {d : ζ} (h : Carries least p a q b)
    (hf : f b = Pure.pure d) : Carries least p a (q >>= f) d := by
  obtain ⟨bs, hbs, hp, hq⟩ := h
  exact ⟨bs, hbs, hp, hq.bind_nil (hf ▸ Reads.pure d)⟩

theorem get_bind {g : σ → Comp κ σ β} (h : Carries least p a q b)
    (hg : ∀ s, least ≤ (Input.rest s).length → g s = q) : Carries least p a (get >>= g) b := by
  obtain ⟨bs, hbs, hp, hq⟩ := h
  refine ⟨bs, hbs, hp, fun s t hs => ?_⟩
  have hlen : least ≤ (Input.rest s).length := by rw [hs, List.length_append]; omega
  exact (congrFun (hg s hlen) s).trans (hq s t hs)

end Carries

end Comp

/-!
## Recognisers

A reader recognises a grammar — a relation between values and the inputs
that spell them — when what it accepts is a beginning of its input that
spells the value returned, and when it accepts every such beginning. The
second half is asked up to a length: a reader that compares the counts it
meets with the input it has left accepts what the input holds in full.
-/

namespace Comp

variable {ε σ α β γ ι : Type}

/-- Run `f` on each item, in order, and collect what it returns. -/
def each (f : ι → Comp ε σ α) : List ι → Comp ε σ (List α)
  | [] => pure []
  | i :: is => do
    let a ← f i
    let as ← each f is
    return a :: as

/-- Run `p` so many times. -/
def times (count : ℕ) (p : Comp ε σ α) : Comp ε σ (List α) :=
  each (fun _ => p) (List.replicate count ())

/-! ## Grammars -/

/-- One input after the other, the second grammar chosen by the first
value. -/
def Then (S : α → List γ → Prop) (T : α → β → List γ → Prop) (b : β) (bs : List γ) : Prop :=
  ∃ a l r, bs = l ++ r ∧ S a l ∧ T a b r

/-- An input for each item. -/
def Each (S : ι → α → List γ → Prop) : List ι → List α → List γ → Prop
  | [], as, bs => as = [] ∧ bs = []
  | i :: is, as, bs => Then (S i) (fun a as r => ∃ rest, as = a :: rest ∧ Each S is rest r) as bs

theorem each_spelled {S : ι → α → List γ → Prop} {ok : ι → α → Prop} {spell : α → List γ}
    (h : ∀ i a bs, S i a bs ↔ ok i a ∧ bs = spell a) {is : List ι} {as : List α} {bs : List γ} :
    Each S is as bs ↔ List.Forall₂ ok is as ∧ bs = as.flatMap spell := by
  induction is generalizing as bs with
  | nil =>
      simp only [Each, List.forall₂_nil_left_iff]
      grind
  | cons i is ih =>
      simp only [Each, Then, h, ih, List.forall₂_cons_left_iff]
      grind

theorem forall₂_replicate {ok : α → Prop} {count : ℕ} {as : List α} :
    List.Forall₂ (fun _ => ok) (List.replicate count ()) as ↔
      as.length = count ∧ ∀ a ∈ as, ok a := by
  induction count generalizing as with
  | zero =>
      simp only [List.replicate_zero, List.forall₂_nil_left_iff, List.length_eq_zero_iff,
        iff_self_and]
      grind
  | succ count ih =>
      simp only [List.replicate_succ, List.forall₂_cons_left_iff, ih]
      constructor
      · grind
      · rintro ⟨hlen, has⟩
        obtain ⟨a, as, rfl⟩ := List.exists_cons_of_length_eq_add_one hlen
        grind

/-! ## Recognisers -/

variable [Input σ γ]

/-- `p` accepts exactly the beginnings of its input that spell a value in
`S`, those longer than `room` apart. -/
def Recognises (room : ℕ) (p : Comp ε σ α) (S : α → List γ → Prop) : Prop :=
  Takes p S ∧ ∀ a bs, S a bs → bs.length ≤ room → Reads p bs a

namespace Recognises

variable {room : ℕ} {S S' : α → List γ → Prop} {T : α → β → List γ → Prop}
variable {p : Comp ε σ α} {f : α → Comp ε σ β}

theorem pure (a : α) :
    Recognises room (pure a : Comp ε σ α) fun b (bs : List γ) => b = a ∧ bs = [] := by
  refine ⟨Takes.pure ⟨rfl, rfl⟩, ?_⟩
  rintro _ _ ⟨rfl, rfl⟩ _
  exact Reads.pure _

theorem fails (h : ∀ s, ∃ e, p s = .error e) (hS : ∀ a bs, ¬ S a bs) :
    Recognises room p S := by
  refine ⟨fun s a s' hrun => ?_, fun a bs hs => absurd hs (hS a bs)⟩
  obtain ⟨e, he⟩ := h s
  rw [he] at hrun
  cases hrun

theorem congr (h : Recognises room p S) (hS : ∀ a bs, S a bs ↔ S' a bs) :
    Recognises room p S' :=
  ⟨h.1.post fun a bs => (hS a bs).1, fun a bs hs => h.2 a bs ((hS a bs).2 hs)⟩

theorem ite {c : Prop} [Decidable c] {q : Comp ε σ α} (hp : c → Recognises room p S)
    (hq : ¬ c → Recognises room q S) : Recognises room (if c then p else q) S := by grind

/-- **Recognisers compose as their inputs concatenate.** -/
theorem bind (hp : Recognises room p S)
    (hf : ∀ a l, S a l → Recognises room (f a) (T a)) : Recognises room (p >>= f) (Then S T) := by
  constructor
  · exact hp.1.bind fun a l hl => (hf a l hl).1.post fun b r hr => ⟨a, l, r, rfl, hl, hr⟩
  · rintro b _ ⟨a, l, r, rfl, hl, hr⟩ hroom
    rw [List.length_append] at hroom
    exact (hp.2 a l hl (by omega)).bind ((hf a l hl).2 b r hr (by omega))

/-- A check that moves nothing, and passes wherever what follows is there
in full. -/
theorem check {c : α} {U : β → List γ → Prop}
    (hok : ∀ s a s', p s = .ok (a, s') → a = c ∧ s' = s)
    (hpass : ∀ s t b bs, U b bs → bs.length ≤ room → Input.rest s = bs ++ t → p s = .ok (c, s))
    (hf : Recognises room (f c) U) : Recognises room (p >>= f) U := by
  constructor
  · intro s b s' hrun
    obtain ⟨a, s₁, hfirst, hsecond⟩ := bind_eq_ok hrun
    obtain ⟨rfl, rfl⟩ := hok s a s₁ hfirst
    exact hf.1 s₁ b s' hsecond
  · intro b bs hb hroom s t hs
    rw [bind_apply, hpass s t b bs hb hroom hs]
    exact hf.2 b bs hb hroom s t hs

theorem each {S : ι → α → List γ → Prop} {f : ι → Comp ε σ α}
    (hf : ∀ i, Recognises room (f i) (S i)) (is : List ι) :
    Recognises room (each f is) (Each S is) := by
  induction is with
  | nil => exact Recognises.pure []
  | cons i is ih =>
      refine (hf i).bind fun a l _ => ?_
      refine (ih.bind fun as _ _ => Recognises.pure (a :: as)).congr fun as bs => ?_
      constructor
      · rintro ⟨rest, l, _, rfl, hl, rfl, rfl⟩
        grind
      · rintro ⟨rest, rfl, hrest⟩
        exact ⟨rest, bs, [], (List.append_nil bs).symm, hrest, rfl, rfl⟩

theorem times {ok : α → Prop} {spell : α → List γ}
    (hp : Recognises room p fun a bs => ok a ∧ bs = spell a) (count : ℕ) :
    Recognises room (times count p) fun as bs =>
      (as.length = count ∧ ∀ a ∈ as, ok a) ∧ bs = as.flatMap spell := by
  refine (Recognises.each (fun _ => hp) (List.replicate count ())).congr fun as bs => ?_
  have hspell : ∀ (i : Unit) a bs, (ok a ∧ bs = spell a) ↔ (fun _ a => ok a) i a ∧ bs = spell a :=
    fun _ _ _ => Iff.rfl
  rw [each_spelled hspell, forall₂_replicate]

theorem get_bind {f : σ → Comp ε σ β} {U : β → List γ → Prop}
    (hf : ∀ s, Recognises (Input.rest s).length (f s) U) : Recognises room (get >>= f) U := by
  constructor
  · exact Takes.get_bind fun s => (hf s).1
  · intro b bs hb _ s t hs
    have hroom : bs.length ≤ (Input.rest s).length := by
      rw [hs, List.length_append]
      omega
    exact (hf s).2 b bs hb hroom s t hs

/-- **What a recogniser returns**, on an input within the room. -/
theorem eq_ok_iff (h : Recognises room p S) {s s' : σ} {a : α}
    (hroom : (Input.rest s).length ≤ room) :
    p s = .ok (a, s') ↔ ∃ bs t, Input.rest s = bs ++ t ∧ s' = Input.advance s bs ∧ S a bs := by
  constructor
  · exact h.1 s a s'
  · rintro ⟨bs, t, hrest, rfl, hS⟩
    have hlen : bs.length ≤ room := by grind
    exact h.2 a bs hS hlen s t hrest

end Recognises

end Comp

end Laurus
