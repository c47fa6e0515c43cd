import Mathlib.Data.List.Basic

/-!
# Scanning a file of frames

A `Framing` reads a record off the front of a string and says how much of
it the record took; what follows the record plays no part. `scan` reads
records until none is left at the front, as a log is read back after a
crash. `scan_frames` and `scan_longest` say which records these are: the
ones of the longest beginning that is made of whole frames.
-/

namespace Laurus

/-- How a record is read off the front of a string. -/
structure Framing (β ρ : Type*) where
  read : List β → Option (ρ × ℕ)
  /-- A record takes something, and no more than there is. -/
  bounds : ∀ {bs r n}, read bs = some (r, n) → 0 < n ∧ n ≤ bs.length
  /-- Only the record's own symbols are read. -/
  local_read : ∀ {bs r n} (t : List β), read bs = some (r, n) → read (bs.take n ++ t) = some (r, n)

namespace Framing

variable {β ρ : Type*} (F : Framing β ρ)

/-- `f` is one whole frame, of `r`. -/
def IsFrame (f : List β) (r : ρ) : Prop := F.read f = some (r, f.length)

/-- A string of whole frames, and their records. -/
inductive Frames : List ρ → List β → Prop
  /-- No frame. -/
  | nil : Frames [] []
  /-- A frame, then frames. -/
  | cons {f bs : List β} {r : ρ} {rs : List ρ} :
      F.IsFrame f r → Frames rs bs → Frames (r :: rs) (f ++ bs)

/-- The records at the front, and how much they take. -/
def scan : ℕ → List β → List ρ × ℕ
  | 0, _ => ([], 0)
  | fuel + 1, bs =>
    match F.read bs with
    | none => ([], 0)
    | some (r, n) => (r :: (scan fuel (bs.drop n)).1, n + (scan fuel (bs.drop n)).2)

variable {F} {f t xs ys : List β} {r : ρ} {rs ss : List ρ}

theorem IsFrame.read_append (h : F.IsFrame f r) (t : List β) :
    F.read (f ++ t) = some (r, f.length) := by
  simpa using F.local_read t h

theorem IsFrame.pos (h : F.IsFrame f r) : 0 < f.length := (F.bounds h).1

theorem IsFrame.read_take (h : F.IsFrame f r) {k : ℕ} (hk : k < f.length) :
    F.read (f.take k) = none := by
  cases hread : F.read (f.take k) with
  | none => rfl
  | some out =>
      obtain ⟨r', n⟩ := out
      have hn := (F.bounds hread).2
      have hlen : (f.take k).length = k := by
        rw [List.length_take]
        omega
      have hwhole := F.local_read (f.drop n) hread
      have hjoin : (f.take k).take n ++ f.drop n = f := by
        rw [List.take_take, Nat.min_eq_left (by omega), List.take_append_drop]
      rw [hjoin, h] at hwhole
      grind

theorem isFrame_take {bs : List β} {n : ℕ} (h : F.read bs = some (r, n)) :
    F.IsFrame (bs.take n) r := by
  have hlen : (bs.take n).length = n := by
    have := (F.bounds h).2
    rw [List.length_take]
    omega
  have hread := F.local_read [] h
  rw [List.append_nil] at hread
  rw [IsFrame, hread, hlen]

theorem Frames.append (h : F.Frames rs xs) (h' : F.Frames ss ys) : F.Frames (rs ++ ss) (xs ++ ys) := by
  induction h with
  | nil => exact h'
  | cons hf _ ih =>
      rw [List.append_assoc]
      exact Frames.cons hf ih

theorem IsFrame.frames (h : F.IsFrame f r) : F.Frames [r] f := by
  have := Frames.cons h Frames.nil
  rwa [List.append_nil] at this

theorem Frames.eq_of_append (h : F.Frames rs xs) :
    ∀ {ys t u : List β}, F.Frames rs ys → xs ++ t = ys ++ u → xs = ys := by
  induction h with
  | nil =>
      rintro ys t u ⟨⟩ -
      rfl
  | @cons f bs r rs hf _ ih =>
      rintro ys t u (_ | @⟨f', bs', _, _, hf', hrest⟩) heq
      rw [List.append_assoc, List.append_assoc] at heq
      have hread := hf.read_append (bs ++ t)
      rw [heq, hf'.read_append] at hread
      grind [List.append_inj]

/-- **What a scan takes is whole frames, and no frame is left at the
front.** -/
theorem scan_frames {fuel : ℕ} {bs : List β} (hfuel : bs.length < fuel) :
    F.Frames (F.scan fuel bs).1 (bs.take (F.scan fuel bs).2) ∧
      F.read (bs.drop (F.scan fuel bs).2) = none ∧ (F.scan fuel bs).2 ≤ bs.length := by
  induction fuel generalizing bs with
  | zero => omega
  | succ fuel ih =>
      unfold scan
      cases hread : F.read bs with
      | none => exact ⟨by simpa using Frames.nil, by simpa using hread, Nat.zero_le _⟩
      | some out =>
          obtain ⟨r, n⟩ := out
          obtain ⟨hpos, hle⟩ := F.bounds hread
          have hdrop : (bs.drop n).length = bs.length - n := List.length_drop
          have hshort : (bs.drop n).length < fuel := by omega
          obtain ⟨hframes, hnone, hrest⟩ := ih hshort
          refine ⟨?_, ?_, by dsimp only; omega⟩
          · have htake : bs.take (n + (F.scan fuel (bs.drop n)).2) =
                bs.take n ++ (bs.drop n).take (F.scan fuel (bs.drop n)).2 := List.take_add
            rw [htake]
            exact Frames.cons (isFrame_take hread) hframes
          · rw [List.drop_drop] at hnone
            exact hnone

/-- **A scan of frames with none after them** finds exactly these. -/
theorem scan_eq (h : F.Frames rs xs) (hnone : F.read t = none) :
    ∀ {fuel : ℕ}, (xs ++ t).length < fuel → F.scan fuel (xs ++ t) = (rs, xs.length) := by
  induction h with
  | nil =>
      intro fuel hfuel
      obtain ⟨k, rfl⟩ : ∃ k, fuel = k + 1 := ⟨fuel - 1, by omega⟩
      rw [List.nil_append, scan, hnone]
      rfl
  | @cons f bs r rs hf _ ih =>
      intro fuel hfuel
      obtain ⟨k, rfl⟩ : ∃ k, fuel = k + 1 := ⟨fuel - 1, by omega⟩
      have hpos := hf.pos
      rw [List.append_assoc, List.length_append] at hfuel
      rw [List.append_assoc, scan, hf.read_append]
      grind

/-- **They are the longest beginning of whole frames.** -/
theorem scan_longest {fuel : ℕ} {bs : List β} (hfuel : bs.length < fuel) (h : F.Frames rs xs)
    (hbs : bs = xs ++ t) : rs <+: (F.scan fuel bs).1 ∧ xs.length ≤ (F.scan fuel bs).2 := by
  induction h generalizing fuel bs with
  | nil => exact ⟨List.nil_prefix, Nat.zero_le _⟩
  | @cons f ys r rs hf _ ih =>
      obtain ⟨k, rfl⟩ : ∃ k, fuel = k + 1 := ⟨fuel - 1, by omega⟩
      have hpos := hf.pos
      have hlen : bs.length = f.length + (ys ++ t).length := by grind
      rw [hbs, List.append_assoc, scan, hf.read_append]
      grind

end Framing

end Laurus
