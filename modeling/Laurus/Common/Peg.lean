import Mathlib.Data.List.Basic
import Mathlib.Data.List.TakeWhile

/-!
# Parsing expressions

A parsing expression reads a beginning of its input, or does not match. Choice is ordered:
what one expression matches, no later one is asked for. A repetition reads as much as it
can. So an input is read in one way only, and what is read is a beginning: the rest is an
end of the input (`Takes`).
-/

namespace Laurus

/-- A parsing expression: what it reads of an input, and the rest of the input. -/
structure Peg (σ α : Type) where
  run : List σ → Option (α × List σ)

namespace Peg

variable {σ α β : Type}

instance : Monad (Peg σ) where
  pure a := ⟨fun s => some (a, s)⟩
  bind p f := ⟨fun s => (p.run s).bind fun r => (f r.1).run r.2⟩

/-- Ordered choice. -/
instance : OrElse (Peg σ α) where
  orElse p q := ⟨fun s => (p.run s).or ((q ()).run s)⟩

/-- What never matches. -/
def never : Peg σ α := ⟨fun _ => none⟩

/-- One item. -/
def item_run (ok : σ → Bool) : List σ → Option (σ × List σ)
  | [] => none
  | c :: s => if ok c then some (c, s) else none

@[inherit_doc item_run]
def item (ok : σ → Bool) : Peg σ σ := ⟨item_run ok⟩

/-- A word, up to `same`. -/
def word_run (same : σ → σ → Bool) : List σ → List σ → Option (Unit × List σ)
  | [], s => some ((), s)
  | _ :: _, [] => none
  | c :: cs, d :: s => if same c d then word_run same cs s else none

@[inherit_doc word_run]
def word (same : σ → σ → Bool) (w : List σ) : Peg σ Unit := ⟨word_run same w⟩

/-- A negative predicate. -/
def absent (p : Peg σ α) : Peg σ Unit := ⟨fun s => if (p.run s).isSome then none else some ((), s)⟩

/-- At most once. -/
def optional (p : Peg σ α) : Peg σ (Option α) := (some <$> p) <|> pure none

/-- As many items as there are. -/
def span (ok : σ → Bool) : Peg σ (List σ) := ⟨fun s => some (s.takeWhile ok, s.dropWhile ok)⟩

/-- At least one of them. -/
def span_one (ok : σ → Bool) : Peg σ (List σ) := do
  let c ← item ok
  let cs ← span ok
  return c :: cs

/-- As often as it matches, at most `fuel` times. -/
def many_run (p : Peg σ α) : ℕ → List σ → List α × List σ
  | 0, s => ([], s)
  | fuel + 1, s =>
    match p.run s with
    | none => ([], s)
    | some (a, rest) =>
      let more := many_run p fuel rest
      (a :: more.1, more.2)

/-- As often as it matches; what always reads something does so once an item at most. -/
def many (p : Peg σ α) : Peg σ (List α) := ⟨fun s => some (many_run p s.length s)⟩

/-- At least once. -/
def many_one (p : Peg σ α) : Peg σ (List α) := do
  let a ← p
  let as ← many p
  return a :: as

/-- The items that an expression reads. -/
def text (p : Peg σ α) : Peg σ (List σ) :=
  ⟨fun s => (p.run s).map fun r => (s.take (s.length - r.2.length), r.2)⟩

/-! ## What is read -/

variable {p q : Peg σ α} {f : α → Peg σ β} {s rest : List σ} {a : α} {b : β} {ok : σ → Bool}

theorem run_bind : (p >>= f).run s = (p.run s).bind fun r => (f r.1).run r.2 := rfl

theorem bind_of_some {r : α × List σ} (h : p.run s = some r) :
    (p >>= f).run s = (f r.1).run r.2 := by
  rw [run_bind, h, Option.bind_some]

theorem bind_of_none (h : p.run s = none) : (p >>= f).run s = none := by
  rw [run_bind, h, Option.bind_none]

theorem bind_eq_some : (p >>= f).run s = some (b, rest) ↔
    ∃ a mid, p.run s = some (a, mid) ∧ (f a).run mid = some (b, rest) := by
  rw [run_bind, Option.bind_eq_some_iff]
  simp

theorem run_orElse : (p <|> q).run s = (p.run s).or (q.run s) := rfl

theorem orElse_of_some {r : α × List σ} (h : p.run s = some r) : (p <|> q).run s = some r := by
  rw [run_orElse, h, Option.some_or]

theorem orElse_of_none (h : p.run s = none) : (p <|> q).run s = q.run s := by
  rw [run_orElse, h, Option.none_or]

theorem orElse_eq_some {r : α × List σ} :
    (p <|> q).run s = some r ↔ p.run s = some r ∨ p.run s = none ∧ q.run s = some r := by
  rw [run_orElse, Option.or_eq_some_iff]

theorem run_item_cons {c : σ} :
    (item ok).run (c :: s) = if ok c then some (c, s) else none := rfl

theorem run_item_of_head (h : ∀ c ∈ s.head?, ok c = false) : (item ok).run s = none := by
  rcases s with _ | ⟨c, s⟩
  · rfl
  · rw [run_item_cons, h c rfl]
    rfl

theorem run_absent_bind {f : Unit → Peg σ β} :
    (absent p >>= f).run s = if (p.run s).isSome then none else (f ()).run s := by
  change (if (p.run s).isSome then none else some ((), s)).bind _ = _
  split_ifs <;> rfl

theorem optional_of_none (h : p.run s = none) : (optional p).run s = some (none, s) :=
  orElse_of_none (bind_of_none h)

theorem optional_of_some (h : p.run s = some (a, rest)) :
    (optional p).run s = some (some a, rest) :=
  orElse_of_some (bind_of_some h)

theorem exists_optional (p : Peg σ α) (s : List σ) :
    ∃ found rest, (optional p).run s = some (found, rest) := by
  rcases hp : p.run s with _ | ⟨a, rest⟩
  · exact ⟨_, _, optional_of_none hp⟩
  · exact ⟨_, _, optional_of_some hp⟩

theorem text_of_some {front : List σ} (h : p.run (front ++ rest) = some (a, rest)) :
    (text p).run (front ++ rest) = some (front, rest) := by
  change (p.run (front ++ rest)).map _ = _
  rw [h, Option.map_some, List.length_append, Nat.add_sub_cancel, List.take_left' rfl]

theorem text_of_none (h : p.run s = none) : (text p).run s = none := by
  change (p.run s).map _ = _
  rw [h, Option.map_none]

/-! ## What is read is a beginning -/

/-- What an expression reads is a beginning of its input, of items that are `ok`. -/
def Takes (ok : σ → Prop) (p : Peg σ α) : Prop :=
  ∀ ⦃s a rest⦄, p.run s = some (a, rest) → ∃ front, s = front ++ rest ∧ ∀ c ∈ front, ok c

section Takes

variable {ok : σ → Prop} {test : σ → Bool}

theorem takes_pure : Takes ok (pure a : Peg σ α) := by
  rintro s b rest h
  obtain ⟨rfl, rfl⟩ := Prod.mk.inj (Option.some.inj h)
  simp

theorem Takes.bind (hp : Takes ok p) (hf : ∀ a, Takes ok (f a)) : Takes ok (p >>= f) := by
  rintro s b rest h
  obtain ⟨a, mid, hps, hfs⟩ := bind_eq_some.1 h
  obtain ⟨front, rfl, hfront⟩ := hp hps
  obtain ⟨back, rfl, hback⟩ := hf a hfs
  grind

theorem Takes.orElse (hp : Takes ok p) (hq : Takes ok q) : Takes ok (p <|> q) := by
  rintro s a rest h
  rcases orElse_eq_some.1 h with h | ⟨_, h⟩
  · exact hp h
  · exact hq h

theorem Takes.map {g : α → β} (hp : Takes ok p) : Takes ok (g <$> p) :=
  hp.bind fun _ => takes_pure

theorem Takes.optional (hp : Takes ok p) : Takes ok (optional p) := hp.map.orElse takes_pure

theorem Takes.mono {ok' : σ → Prop} (hp : Takes ok p) (h : ∀ c, ok c → ok' c) : Takes ok' p := by
  rintro s a rest hs
  obtain ⟨front, hfront, hall⟩ := hp hs
  grind

theorem takes_item (h : ∀ c, test c = true → ok c) : Takes ok (item test) := by
  rintro s a rest hs
  rcases s with _ | ⟨c, s⟩
  · exact absurd hs.symm (Option.some_ne_none _)
  · rw [run_item_cons] at hs
    split_ifs at hs with hc
    obtain ⟨rfl, rfl⟩ := Prod.mk.inj (Option.some.inj hs)
    exact ⟨[c], rfl, fun d hd => h d (List.mem_singleton.1 hd ▸ hc)⟩

theorem takes_word {same : σ → σ → Bool} {w : List σ} (h : ∀ c ∈ w, ∀ d, same c d = true → ok d) :
    Takes ok (word same w) := by
  induction w with
  | nil => exact takes_pure
  | cons c w ih =>
      rintro s a rest hs
      rcases s with _ | ⟨d, s⟩
      · exact absurd hs.symm (Option.some_ne_none _)
      · change (if same c d then word_run same w s else none) = _ at hs
        split_ifs at hs with hcd
        obtain ⟨front, rfl, hfront⟩ := ih (fun e he => h e (List.mem_cons_of_mem _ he)) hs
        grind

theorem takes_span (h : ∀ c, test c = true → ok c) : Takes ok (span test) := by
  rintro s a rest hs
  obtain ⟨-, rfl⟩ := Prod.mk.inj (Option.some.inj hs)
  exact ⟨s.takeWhile test, List.takeWhile_append_dropWhile.symm,
    fun c hc => h c (List.mem_takeWhile_imp hc)⟩

theorem takes_span_one (h : ∀ c, test c = true → ok c) : Takes ok (span_one test) :=
  (takes_item h).bind fun _ => (takes_span h).bind fun _ => takes_pure

theorem Takes.many_run (hp : Takes ok p) (fuel : ℕ) (s : List σ) :
    ∃ front, s = front ++ (many_run p fuel s).2 ∧ ∀ c ∈ front, ok c := by
  induction fuel generalizing s with
  | zero => exact ⟨[], rfl, fun c hc => absurd hc List.not_mem_nil⟩
  | succ fuel ih =>
      rw [Peg.many_run]
      rcases hps : p.run s with _ | ⟨a, mid⟩
      · simp
      · obtain ⟨front, rfl, hfront⟩ := hp hps
        obtain ⟨back, hback, hall⟩ := ih mid
        grind

theorem Takes.many (hp : Takes ok p) : Takes ok (many p) := by
  rintro s as rest h
  obtain ⟨-, rfl⟩ := Prod.mk.inj (Option.some.inj h)
  exact hp.many_run _ _

theorem Takes.many_one (hp : Takes ok p) : Takes ok (many_one p) :=
  hp.bind fun _ => hp.many.bind fun _ => takes_pure

theorem Takes.text (hp : Takes ok p) : Takes ok (text p) := by
  rintro s as rest h
  obtain ⟨⟨a, mid⟩, hps, heq⟩ := Option.map_eq_some_iff.1 h
  obtain ⟨-, rfl⟩ := Prod.mk.inj heq
  exact hp hps

theorem Takes.text_eq_some (hp : Takes ok p) {front : List σ}
    (h : (Peg.text p).run s = some (front, rest)) :
    s = front ++ rest ∧ (∀ c ∈ front, ok c) ∧ ∃ a, p.run s = some (a, rest) := by
  obtain ⟨⟨a, mid⟩, hps, heq⟩ := Option.map_eq_some_iff.1 h
  obtain ⟨hfront, rfl⟩ := Prod.mk.inj heq
  obtain ⟨taken, rfl, hok⟩ := hp hps
  rw [List.length_append, Nat.add_sub_cancel, List.take_left' rfl] at hfront
  grind

end Takes

/-! ## Where a repetition ends -/

/-- An expression never matches without reading. -/
def Consumes (p : Peg σ α) : Prop := ∀ ⦃s a rest⦄, p.run s = some (a, rest) → rest.length < s.length

theorem Consumes.many_run (hp : Consumes p) {fuel : ℕ} (h : s.length ≤ fuel) :
    p.run (many_run p fuel s).2 = none := by
  induction fuel generalizing s with
  | zero =>
      rcases hps : p.run s with _ | ⟨a, mid⟩
      · exact hps
      · have hlt := hp hps
        omega
  | succ fuel ih =>
      rw [Peg.many_run]
      rcases hps : p.run s with _ | ⟨a, mid⟩
      · exact hps
      · have hlt := hp hps
        exact ih (by omega)

/-- **A repetition ends where its expression does not match.** -/
theorem Consumes.many_one (hp : Consumes p) {as : List α}
    (h : (many_one p).run s = some (as, rest)) : p.run rest = none := by
  obtain ⟨a, mid, _, h⟩ := bind_eq_some.1 h
  obtain ⟨more, last, hmany, h⟩ := bind_eq_some.1 h
  obtain ⟨-, rfl⟩ := Prod.mk.inj (Option.some.inj h)
  obtain ⟨-, rfl⟩ := Prod.mk.inj (Option.some.inj hmany)
  exact hp.many_run le_rfl

end Peg

end Laurus
