import Laurus.Vector.Model.ReaderCache
import Mathlib.Data.List.Induction

/-!
# Cached readers and the bitmap that is current

A build that finds a reader in the cache does not know which build loaded it.
One that began before the bitmap was made may put a reader without it into a
cache that a later build has cleared already, and that build returns it
(`sealed_readers_current_counterexample`). Where no such reader is loaded
(`LoadsCurrent`), what any build past its comparison can find is as new as
its epoch (`Inv`), so a build that sees the epoch unchanged returns readers of
the current bitmap (`sealed_readers_current`).
-/

namespace Laurus

open CacheState

variable {slot slot' : BitmapSlot} {cache : SegmentedReaderCache} {s t : CacheState}
variable {action : CacheAction} {b e epoch : ℕ} {o : Option ℕ}

/-! ## The bitmap -/

namespace BitmapSlot

/-- There is no file left to load. -/
def Loaded (slot : BitmapSlot) : Prop := slot.deletion.isSome ∨ slot.delmap = none

/-- **What a change of the bitmap does**: once loaded, the bitmap is another one
only in a later epoch. -/
structure Follows (slot slot' : BitmapSlot) : Prop where
  loaded : slot.Loaded → slot'.Loaded
  epoch : slot.bitmap_epoch < slot'.bitmap_epoch ∨
    slot.bitmap_epoch = slot'.bitmap_epoch ∧ (slot.Loaded → slot'.deletion = slot.deletion)

theorem Follows.refl (slot : BitmapSlot) : slot.Follows slot :=
  ⟨id, Or.inr ⟨rfl, fun _ => rfl⟩⟩

theorem Follows.trans {slot'' : BitmapSlot} (h : slot.Follows slot') (h' : slot'.Follows slot'') :
    slot.Follows slot'' := by
  refine ⟨fun hl => h'.loaded (h.loaded hl), ?_⟩
  rcases h.epoch with hlt | ⟨heq, hsame⟩ <;> rcases h'.epoch with hlt' | ⟨heq', hsame'⟩
  · exact Or.inl (hlt.trans hlt')
  · exact Or.inl (heq' ▸ hlt)
  · exact Or.inl (heq ▸ hlt')
  · exact Or.inr ⟨heq.trans heq', fun hl => (hsame' (h.loaded hl)).trans (hsame hl)⟩

theorem Follows.epoch_le (h : slot.Follows slot') : slot.bitmap_epoch ≤ slot'.bitmap_epoch := by
  rcases h.epoch with hlt | ⟨heq, -⟩
  · exact hlt.le
  · exact heq.le

theorem follows_of_same (hdeletion : slot'.deletion = slot.deletion)
    (hepoch : slot'.bitmap_epoch = slot.bitmap_epoch) (hdelmap : slot'.delmap = slot.delmap) :
    slot.Follows slot' := by
  refine ⟨fun hl => ?_, Or.inr ⟨hepoch.symm, fun _ => hdeletion⟩⟩
  rw [Loaded, hdeletion, hdelmap]
  exact hl

theorem follows_load_into (slot : BitmapSlot) (create_if_missing read : Bool) :
    slot.Follows (slot.load_into create_if_missing read).1 := by
  rw [load_into]
  split
  · exact Follows.refl slot
  · rename_i hnone
    rcases hdelmap : slot.delmap with _ | marks
    · dsimp only
      split
      · exact ⟨fun _ => Or.inl rfl, Or.inl (Nat.lt_succ_self _)⟩
      · exact Follows.refl slot
    · dsimp only
      split
      · -- a file to load is a bitmap that was not loaded
        refine ⟨fun _ => Or.inl rfl, Or.inr ⟨rfl, fun hl => ?_⟩⟩
        rcases hl with hl | hl
        · exact absurd hl hnone
        grind
      · exact Follows.refl slot

theorem loaded_load_into {create_if_missing read : Bool}
    (h : (slot.load_into create_if_missing read).2 = true) :
    (slot.load_into create_if_missing read).1.Loaded := by
  rw [load_into] at h ⊢
  split
  · rename_i hsome
    exact Or.inl hsome
  · rename_i hnone
    rw [if_neg hnone] at h
    rcases hdelmap : slot.delmap with _ | marks
    · dsimp only
      split
      · exact Or.inl rfl
      · exact Or.inr hdelmap
    · rw [hdelmap] at h
      dsimp only at h ⊢
      split at h
      · rename_i hread
        rw [if_pos hread]
        exact Or.inl rfl
      · cases h

theorem follows_change_bitmap (slot : BitmapSlot) (create_if_missing read : Bool)
    (change : Finset ℕ → Finset ℕ) :
    slot.Follows (slot.change_bitmap create_if_missing read change) := by
  refine (follows_load_into slot create_if_missing read).trans ?_
  grind [change_bitmap, follows_of_same]

theorem follows_forget_deletions (slot : BitmapSlot) (reclaimed : Option (Finset ℕ))
    (writes : Bool) : slot.Follows (slot.forget_deletions reclaimed writes) := by
  rcases reclaimed with _ | reclaimed
  · exact Follows.refl slot
  rcases hdeletion : slot.deletion with _ | bitmap
  · rw [forget_deletions, hdeletion]
    exact Follows.refl slot
  · rw [forget_deletions, hdeletion]
    dsimp only
    split
    · refine ⟨fun _ => ?_, Or.inl (Nat.lt_succ_self _)⟩
      -- a bitmap without marks is forgotten with its file
      rw [Loaded]
      dsimp only
      rw [written]
      grind
    · exact Follows.refl slot

theorem follows_write_deletions (slot : BitmapSlot) (writes : Bool) :
    slot.Follows (slot.write_deletions writes) := by
  rw [write_deletions]
  split
  · rename_i bitmap hbitmap
    split
    · exact ⟨fun _ => Or.inl (by rw [hbitmap]; rfl), Or.inr ⟨rfl, fun _ => rfl⟩⟩
    · exact Follows.refl slot
  · exact Follows.refl slot

/-- A bitmap read in the epoch `e` or later, if that is the epoch still, is the
current one. -/
structure Fresh (slot : BitmapSlot) (e : ℕ) (o : Option ℕ) : Prop where
  loaded : slot.Loaded
  current : e = slot.bitmap_epoch → o = slot.deletion

theorem Fresh.follows (h : slot.Fresh e o) (hle : e ≤ slot.bitmap_epoch)
    (hf : slot.Follows slot') : slot'.Fresh e o := by
  refine ⟨hf.loaded h.loaded, fun he => ?_⟩
  rcases hf.epoch with hlt | ⟨heq, hsame⟩
  · omega
  · rw [hsame h.loaded]
    exact h.current (he.trans heq.symm)

theorem Fresh.mono (h : slot.Fresh epoch o) (hle : e ≤ epoch) (hepoch : epoch ≤ slot.bitmap_epoch) :
    slot.Fresh e o :=
  ⟨h.loaded, fun he => h.current (by omega)⟩

end BitmapSlot

/-! ## The invariant -/

namespace CacheState

open BitmapSlot

/-- All readers in the cache are as new as the epoch `e`. -/
def CacheFresh (s : CacheState) (e : ℕ) : Prop :=
  ∀ segment_id reader, s.cache.inner segment_id = some reader → s.core.Fresh e reader.bitmap

/-- What a build counts on. -/
def BuildFresh (s : CacheState) : ReaderBuild → Prop
  | .comparing _ epoch => epoch ≤ s.core.bitmap_epoch
  | .storing _ epoch | .reading_bitmap _ epoch =>
    epoch ≤ s.core.bitmap_epoch ∧ CacheFresh s epoch
  | .loading _ epoch bitmap _ readers =>
    (epoch ≤ s.core.bitmap_epoch ∧ CacheFresh s epoch) ∧ s.core.Fresh epoch bitmap ∧
      ∀ r ∈ readers, s.core.Fresh epoch r.bitmap
  | _ => True

/-- The invariant: neither the cache nor a build past its comparison can come
upon a reader older than its epoch. -/
structure Inv (s : CacheState) : Prop where
  epoch_le : s.cache.bitmap_epoch ≤ s.core.bitmap_epoch
  cached : CacheFresh s s.cache.bitmap_epoch
  builds : ∀ b, BuildFresh s (s.builds b)

theorem inv_opened (delmap : Option (Finset ℕ)) : Inv (opened delmap) where
  epoch_le := le_rfl
  cached := fun _ _ h => by cases h
  builds := fun _ => trivial

/-- The epoch of a build that may look into the cache as it is. -/
def compared : ReaderBuild → Option ℕ
  | .storing _ epoch | .reading_bitmap _ epoch | .loading _ epoch _ _ _ => some epoch
  | _ => none

/-- **A build loads a reader** the cache does not have only with the bitmap that
is still current, unless neither the cache nor any build past its comparison
is of a later epoch than its own. -/
def LoadsCurrent (s : CacheState) (action : CacheAction) : Prop :=
  ∀ b segments epoch bitmap segment_id left readers, action = .build b true →
    s.builds b = .loading segments epoch bitmap (segment_id :: left) readers →
    s.cache.inner segment_id = none →
    bitmap = s.core.deletion ∨
      s.cache.bitmap_epoch ≤ epoch ∧ ∀ b', ∀ e ∈ compared (s.builds b'), e ≤ epoch

/-! ## Steps -/

variable {at_ : ReaderBuild}

theorem BuildFresh.compared (h : BuildFresh s at_) (he : e ∈ compared at_) :
    e ≤ s.core.bitmap_epoch ∧ CacheFresh s e := by
  rcases at_ with _ | _ | _ | ⟨_, epoch⟩ | ⟨_, epoch⟩ | ⟨_, epoch, _, _, _⟩ | _ | _ | _
  case storing => exact Option.some.inj he ▸ h
  case reading_bitmap => exact Option.some.inj he ▸ h
  case loading => exact Option.some.inj he ▸ h.1
  all_goals cases he

theorem CacheFresh.with_core (h : CacheFresh s e) (hle : e ≤ s.core.bitmap_epoch)
    (hf : s.core.Follows slot) : CacheFresh { s with core := slot } e :=
  fun segment_id reader hr => (h segment_id reader hr).follows hle hf

theorem BuildFresh.with_core (h : BuildFresh s at_) (hf : s.core.Follows slot) :
    BuildFresh { s with core := slot } at_ := by
  rcases at_ with _ | _ | ⟨_, epoch⟩ | ⟨_, epoch⟩ | ⟨_, epoch⟩ |
    ⟨_, epoch, bitmap, left, readers⟩ | _ | _ | _
  case comparing => exact le_trans h hf.epoch_le
  case storing => exact ⟨h.1.trans hf.epoch_le, h.2.with_core h.1 hf⟩
  case reading_bitmap => exact ⟨h.1.trans hf.epoch_le, h.2.with_core h.1 hf⟩
  case loading =>
    exact ⟨⟨h.1.1.trans hf.epoch_le, h.1.2.with_core h.1.1 hf⟩, h.2.1.follows h.1.1 hf,
      fun r hr => (h.2.2 r hr).follows h.1.1 hf⟩
  all_goals trivial

theorem Inv.with_core (h : Inv s) (hf : s.core.Follows slot) : Inv { s with core := slot } :=
  ⟨h.epoch_le.trans hf.epoch_le, h.cached.with_core h.epoch_le hf,
    fun b => (h.builds b).with_core hf⟩

theorem BuildFresh.with_cache (h : BuildFresh s at_)
    (hcache : ∀ e ∈ CacheState.compared at_, CacheFresh { s with cache } e) :
    BuildFresh { s with cache } at_ := by
  rcases at_ with _ | _ | ⟨_, epoch⟩ | ⟨_, epoch⟩ | ⟨_, epoch⟩ |
    ⟨_, epoch, bitmap, left, readers⟩ | _ | _ | _
  case comparing => exact h
  case storing => exact ⟨h.1, hcache epoch rfl⟩
  case reading_bitmap => exact ⟨h.1, hcache epoch rfl⟩
  case loading => exact ⟨⟨h.1.1, hcache epoch rfl⟩, h.2⟩
  all_goals trivial

theorem Inv.with_cache (h : Inv s) (hepoch : cache.bitmap_epoch ≤ s.core.bitmap_epoch)
    (hself : CacheFresh { s with cache } cache.bitmap_epoch)
    (hbuilds : ∀ b, ∀ e ∈ compared (s.builds b), CacheFresh { s with cache } e) :
    Inv { s with cache } :=
  ⟨hepoch, hself, fun b => (h.builds b).with_cache (hbuilds b)⟩

theorem Inv.goto (h : Inv s) (hat : BuildFresh s at_) : Inv (s.goto b at_) := by
  refine ⟨h.epoch_le, h.cached, fun b' => ?_⟩
  have hsame : ∀ at_', BuildFresh (s.goto b at_) at_' ↔ BuildFresh s at_' := by
    intro at_'
    rcases at_' with _ | _ | _ | _ | _ | _ | _ | _ | _ <;> rfl
  rw [hsame]
  show BuildFresh s (Function.update s.builds b at_ b')
  grind [builds]

theorem cacheFresh_clear (s : CacheState) (e : ℕ) :
    CacheFresh { s with cache := s.cache.clear } e := fun _ _ h => by cases h

theorem Inv.clear (h : Inv s) : Inv { s with cache := s.cache.clear } :=
  h.with_cache h.epoch_le (cacheFresh_clear s _) fun _ e _ => cacheFresh_clear s e

theorem Inv.invalidate (h : Inv s) (segment_id : String) :
    Inv { s with cache := s.cache.invalidate segment_id } := by
  have hsub : ∀ e, CacheFresh s e →
      CacheFresh { s with cache := s.cache.invalidate segment_id } e := by
    intro e hfresh id reader hr
    change Function.update s.cache.inner segment_id none id = some reader at hr
    by_cases hid : id = segment_id
    · grind
    · rw [Function.update_of_ne hid] at hr
      exact hfresh id reader hr
  exact h.with_cache h.epoch_le (hsub _ h.cached) fun b e he => hsub e ((h.builds b).compared he).2

theorem Inv.insert (h : Inv s) {segment_id : String} {bitmap : Option ℕ}
    (hself : s.core.Fresh s.cache.bitmap_epoch bitmap)
    (hbuilds : ∀ b, ∀ e ∈ compared (s.builds b), s.core.Fresh e bitmap) :
    Inv { s with cache := { s.cache with
      inner := Function.update s.cache.inner segment_id (some { segment_id, bitmap }) } } := by
  have hadd : ∀ e, CacheFresh s e → s.core.Fresh e bitmap →
      CacheFresh { s with cache := { s.cache with
        inner := Function.update s.cache.inner segment_id (some { segment_id, bitmap }) } } e := by
    intro e hfresh hnew id reader hr
    change Function.update s.cache.inner segment_id _ id = some reader at hr
    by_cases hid : id = segment_id
    · grind
    · rw [Function.update_of_ne hid] at hr
      exact hfresh id reader hr
  exact h.with_cache h.epoch_le (hadd _ h.cached hself) fun b e he =>
    hadd e ((h.builds b).compared he).2 (hbuilds b e he)

/-- **What a build finds or loads** is as new as all who look into the cache. -/
theorem Inv.get_or_load (h : Inv s) {segments left : List String} {bitmap : Option ℕ}
    {segment_id : String} {readers : List CachedReader} {reader : CachedReader} {ok : Bool}
    (hload : LoadsCurrent s (.build b ok))
    (hb : s.builds b = .loading segments epoch bitmap (segment_id :: left) readers)
    (hget : s.cache.get_or_load segment_id bitmap ok = (some reader, cache)) :
    Inv { s with cache } ∧ s.core.Fresh epoch reader.bitmap := by
  have hat := h.builds b
  rw [hb] at hat
  obtain ⟨⟨hle, hcache⟩, hbitmap, -⟩ := hat
  rw [SegmentedReaderCache.get_or_load] at hget
  rcases hinner : s.cache.inner segment_id with _ | found
  · rw [hinner] at hget
    rcases ok with _ | _
    · cases hget
    · obtain ⟨hreader, rfl⟩ := Prod.mk.inj hget
      obtain rfl := Option.some.inj hreader
      have hfresh : ∀ e, bitmap = s.core.deletion ∨ e ≤ epoch → s.core.Fresh e bitmap := by
        rintro e (hcurrent | hle')
        · exact ⟨hbitmap.loaded, fun _ => hcurrent⟩
        · exact hbitmap.mono hle' hle
      have hguard := hload b segments epoch bitmap segment_id left readers rfl hb hinner
      refine ⟨h.insert (hfresh _ (hguard.imp_right And.left)) fun b' e he => hfresh e ?_, hbitmap⟩
      grind
  · rw [hinner] at hget
    obtain ⟨hreader, rfl⟩ := Prod.mk.inj hget
    obtain rfl := Option.some.inj hreader
    exact ⟨h, hcache segment_id found hinner⟩

/-- **A step of a build keeps the invariant.** -/
theorem Inv.advance (h : Inv s) {ok : Bool} (hload : LoadsCurrent s (.build b ok))
    (hstep : s.advance b ok = some t) : Inv t := by
  have hat := h.builds b
  rcases hb : s.builds b with _ | segments | ⟨segments, epoch⟩ | ⟨segments, epoch⟩ |
    ⟨segments, epoch⟩ | ⟨segments, epoch, bitmap, _ | ⟨segment_id, left⟩, readers⟩ | segments | _ |
    _ <;> rw [CacheState.advance, hb] at hstep <;> rw [hb] at hat
  case reading_epoch => exact Option.some.inj hstep ▸ h.goto le_rfl
  case comparing =>
    dsimp only at hstep
    split at hstep
    · -- an epoch that the cache has is one its readers are as new as
      rename_i heq
      exact Option.some.inj hstep ▸ h.goto ⟨hat, heq ▸ h.cached⟩
    · exact Option.some.inj hstep ▸ h.clear.goto ⟨hat, cacheFresh_clear s epoch⟩
  case storing =>
    have hstored : Inv { s with cache := { s.cache with bitmap_epoch := epoch } } :=
      h.with_cache hat.1 hat.2 fun b' e he => ((h.builds b').compared he).2
    exact Option.some.inj hstep ▸ hstored.goto hat
  case reading_bitmap =>
    dsimp only at hstep
    split at hstep
    · rename_i hloaded
      have hf := follows_load_into s.core false ok
      refine Option.some.inj hstep ▸ (h.with_core hf).goto
        ⟨⟨hat.1.trans hf.epoch_le, hat.2.with_core hat.1 hf⟩,
          ⟨loaded_load_into hloaded, fun _ => rfl⟩, fun _ hr => absurd hr List.not_mem_nil⟩
    · exact Option.some.inj hstep ▸ h.goto trivial
  case loading.nil =>
    dsimp only at hstep
    split at hstep
    · exact Option.some.inj hstep ▸ h.goto trivial
    · exact Option.some.inj hstep ▸ h.goto trivial
  case loading.cons =>
    dsimp only at hstep
    rcases hget : s.cache.get_or_load segment_id bitmap ok with ⟨_ | reader, cache⟩
    · rw [hget] at hstep
      exact Option.some.inj hstep ▸ h.goto trivial
    · rw [hget] at hstep
      obtain ⟨hinv, hreader⟩ := h.get_or_load hload hb hget
      have hbuild := hinv.builds b
      rw [hb] at hbuild
      refine Option.some.inj hstep ▸ hinv.goto ⟨hbuild.1, hbuild.2.1, fun r hr => ?_⟩
      rcases List.mem_append.1 hr with hr | hr
      · exact hbuild.2.2 r hr
      grind
  case clearing => exact Option.some.inj hstep ▸ h.clear.goto trivial
  all_goals cases hstep

/-- **Every step keeps the invariant**, as long as no reader of an older bitmap
is loaded. -/
theorem Inv.step (h : Inv s) (hload : LoadsCurrent s action) (hstep : s.step action = some t) :
    Inv t := by
  rcases action with ⟨b, segments⟩ | ⟨b, ok⟩ | read | ⟨doc_id, read⟩ | ⟨doc_ids, read⟩ |
    ⟨reclaimed, writes⟩ | writes | segment_id
  case begin_build =>
    rw [CacheState.step] at hstep
    split at hstep
    · exact Option.some.inj hstep ▸ h.goto trivial
    · cases hstep
  case build => exact h.advance hload hstep
  case bitmap => exact Option.some.inj hstep ▸ h.with_core (follows_load_into s.core false read)
  case mark_deleted =>
    exact Option.some.inj hstep ▸ h.with_core (follows_change_bitmap s.core true read _)
  case unmark_deleted =>
    exact Option.some.inj hstep ▸ h.with_core (follows_change_bitmap s.core false read _)
  case forget_deletions =>
    exact Option.some.inj hstep ▸ h.with_core (follows_forget_deletions s.core reclaimed writes)
  case write_deletions =>
    exact Option.some.inj hstep ▸ h.with_core (follows_write_deletions s.core writes)
  case invalidate => exact Option.some.inj hstep ▸ h.invalidate segment_id

/-! ## Runs -/

variable {delmap : Option (Finset ℕ)} {actions : List CacheAction}

theorem run_of_run (h : Run (Step.guarded LoadsCurrent Steps) s actions t) :
    s.run actions = some t := by
  induction h with
  | nil s => rfl
  | cons hstep _ ih =>
      rw [CacheState.run, List.foldlM_cons, hstep.2]
      exact ih

theorem inv_run (h : Run (Step.guarded LoadsCurrent Steps) (opened delmap) actions s) : Inv s :=
  h.invariant Inv (fun hs hstep => hs.step hstep.1 hstep.2) (inv_opened delmap)

/-- A bitmap that was current after the first `i` actions. -/
def CurrentAt (delmap : Option (Finset ℕ)) (actions : List CacheAction) (i : ℕ) (o : Option ℕ) :
    Prop :=
  ∃ s, (opened delmap).run (actions.take i) = some s ∧ s.core.deletion = o

/-- A build reads its epoch with the action at `k`. -/
def ReadsEpoch (delmap : Option (Finset ℕ)) (actions : List CacheAction) (k b : ℕ) : Prop :=
  ∃ ok s segments, actions[k]? = some (.build b ok) ∧
    (opened delmap).run (actions.take k) = some s ∧ s.builds b = .reading_epoch segments

/-- **What is asked of a build that returns**: each of its readers holds the
bitmap that was current at some moment after the build read its epoch. -/
def ReturnsCurrent (delmap : Option (Finset ℕ)) (actions : List CacheAction) : Prop :=
  ∀ s t b ok readers k, (opened delmap).run actions = some s → s.advance b ok = some t →
    t.builds b = .returned readers → ReadsEpoch delmap actions k b →
    ∀ r ∈ readers, ∃ i, k < i ∧ i ≤ actions.length ∧ CurrentAt delmap actions i r.bitmap

/-- A build that runs. -/
def running : ReaderBuild → Bool
  | .idle | .returned _ | .failed => false
  | _ => true

/-- **What is asked of the cache** when no build runs: a reader in it holds the
current bitmap, or the next build drops it before it looks. -/
def CacheCurrent (s : CacheState) : Prop :=
  (∀ b, running (s.builds b) = false) → ∀ segment_id reader,
    s.cache.inner segment_id = some reader →
      reader.bitmap = s.core.deletion ∨
        ∀ b segments, s.builds b = .idle →
          ∃ t, s.run [.begin_build b segments, .build b true, .build b true] = some t ∧
            t.cache.inner segment_id = none

theorem returned_of_advance {readers : List CachedReader} {ok : Bool}
    (hstep : s.advance b ok = some t) (hreturned : t.builds b = .returned readers) :
    ∃ segments epoch bitmap, s.builds b = .loading segments epoch bitmap [] readers ∧
      s.core.bitmap_epoch = epoch := by
  have hgoto : ∀ {u : CacheState} {at_ : ReaderBuild},
      u.goto b at_ = t → at_ = .returned readers := by
    rintro u at_ rfl
    rw [← hreturned]
    exact (Function.update_self b at_ u.builds).symm
  rcases hb : s.builds b with _ | segments | ⟨segments, epoch⟩ | ⟨segments, epoch⟩ |
    ⟨segments, epoch⟩ | ⟨segments, epoch, bitmap, _ | ⟨segment_id, left⟩, readers'⟩ | segments | _ |
    _ <;> rw [CacheState.advance, hb] at hstep <;> dsimp only at hstep
  case reading_epoch => cases hgoto (Option.some.inj hstep)
  case comparing =>
    grind
  case storing => cases hgoto (Option.some.inj hstep)
  case reading_bitmap =>
    grind
  case loading.nil =>
    grind
  case loading.cons =>
    grind
  case clearing => cases hgoto (Option.some.inj hstep)
  all_goals cases hstep

theorem cleared_of_epoch_ne (hne : s.cache.bitmap_epoch ≠ s.core.bitmap_epoch)
    (hidle : s.builds b = .idle) (segments : List String) (segment_id : String) :
    ∃ t, s.run [.begin_build b segments, .build b true, .build b true] = some t ∧
      t.cache.inner segment_id = none := by
  set s₁ := s.goto b (.reading_epoch segments) with hs₁
  set s₂ := s₁.goto b (.comparing segments s.core.bitmap_epoch) with hs₂
  set s₃ := ({ s₂ with cache := s₂.cache.clear } : CacheState).goto b
    (.storing segments s.core.bitmap_epoch) with hs₃
  have h₁ : s₁.builds b = .reading_epoch segments := Function.update_self _ _ _
  have h₂ : s₂.builds b = .comparing segments s.core.bitmap_epoch := Function.update_self _ _ _
  have hstep₁ : s.step (.begin_build b segments) = some s₁ := if_pos hidle
  have hstep₂ : s₁.step (.build b true) = some s₂ := by
    rw [CacheState.step, CacheState.advance, h₁]
    rfl
  have hstep₃ : s₂.step (.build b true) = some s₃ := by
    rw [CacheState.step, CacheState.advance, h₂]
    exact if_neg hne
  refine ⟨s₃, ?_, rfl⟩
  rw [CacheState.run, List.foldlM_cons, hstep₁]
  show (s₁.step (.build b true) >>= fun s => List.foldlM step s [.build b true]) = some s₃
  grind

/-- **Cached readers hold the current bitmap** where builds load current ones:
in every run, a build that returns has no reader but of the bitmap current
when it read the epoch again, and the cache keeps no other past the next
build. -/
theorem sealed_readers_current
    (h : Run (Step.guarded LoadsCurrent Steps) (opened delmap) actions s) :
    ReturnsCurrent delmap actions ∧ CacheCurrent s := by
  have hinv := inv_run h
  refine ⟨fun s' t b ok readers k hrun hstep hreturned hepoch r hr => ?_,
    fun _ segment_id reader hreader => ?_⟩
  · obtain rfl := Option.some.inj ((run_of_run h).symm.trans hrun)
    obtain ⟨segments, epoch, bitmap, hb, heq⟩ := returned_of_advance hstep hreturned
    have hat := hinv.builds b
    rw [hb] at hat
    obtain ⟨_, _, _, hk, _⟩ := hepoch
    refine ⟨actions.length, (List.getElem?_eq_some_iff.1 hk).1, le_rfl, s, ?_,
      ((hat.2.2 r hr).current heq.symm).symm⟩
    rw [List.take_length]
    exact run_of_run h
  · by_cases hepoch : s.cache.bitmap_epoch = s.core.bitmap_epoch
    · exact Or.inl ((hinv.cached segment_id reader hreader).current hepoch)
    · exact Or.inr fun b segments hidle => cleared_of_epoch_ne hepoch hidle segments segment_id

/-- A build that starts after a deletion, up to its first reader. -/
def after_deletion : List CacheAction :=
  [.mark_deleted 7 true, .begin_build 0 ["s"], .build 0 true, .build 0 true, .build 0 true,
    .build 0 true, .build 0 true]

theorem sealed_readers_current_after :
    ∃ s, ReturnsCurrent none after_deletion ∧ CacheCurrent s := by
  refine ⟨_, @sealed_readers_current _ none after_deletion (Run.cons ⟨?_, rfl⟩
    (Run.cons ⟨?_, rfl⟩ (Run.cons ⟨?_, rfl⟩ (Run.cons ⟨?_, rfl⟩ (Run.cons ⟨?_, rfl⟩
      (Run.cons ⟨?_, rfl⟩ (Run.cons ⟨?_, rfl⟩ (Run.nil _))))))))⟩
  all_goals
    intro b segments epoch bitmap segment_id left readers haction hb _
    cases haction
  case refine_7 =>
    cases hb
    exact Or.inl rfl
  all_goals cases hb

/-- A build without the bitmap goes on after one that saw it made. -/
def racing : List CacheAction :=
  [.begin_build 0 ["s"], .build 0 true, .build 0 true, .build 0 true, .mark_deleted 7 true,
    .begin_build 1 ["s"], .build 1 true, .build 1 true, .build 1 true, .build 0 true,
    .build 1 true, .build 1 true]

/-- The same, but for a second segment of the first build whose load fails. -/
def leaving : List CacheAction :=
  [.begin_build 0 ["s", "t"], .build 0 true, .build 0 true, .build 0 true, .mark_deleted 7 true,
    .begin_build 1 [], .build 1 true, .build 1 true, .build 1 true, .build 0 true,
    .build 1 true, .build 1 true, .build 0 false]

/-- A build returns a reader without the bitmap, though it has been there since
before the build read its epoch; and such a reader is left for all builds to
come where the build that loaded it fails. -/
theorem sealed_readers_current_counterexample :
    ¬ ReturnsCurrent none racing ∧ ∃ s, (opened none).run leaving = some s ∧ ¬ CacheCurrent s := by
  constructor
  · intro h
    obtain ⟨s, hs⟩ := Option.isSome_iff_exists.1
      (show ((opened none).run racing).isSome = true from rfl)
    obtain ⟨t, ht⟩ := Option.isSome_iff_exists.1
      (show (((opened none).run racing).bind fun s => s.advance 1 true).isSome = true from rfl)
    have hreturned : ((((opened none).run racing).bind fun s => s.advance 1 true).map
        fun t => t.builds 1) = some (.returned [{ segment_id := "s", bitmap := none }]) := rfl
    rw [ht] at hreturned
    rw [hs] at ht
    have hepoch : ReadsEpoch none racing 6 1 := ⟨true, _, ["s"], rfl, rfl, rfl⟩
    obtain ⟨i, hi, hle, s', hs', hnone⟩ := h s t 1 true _ 6 hs ht (Option.some.inj hreturned) hepoch
      _ List.mem_cons_self
    -- from the build's epoch on, there is a bitmap
    have hsome : ∀ i ≤ racing.length, 6 < i →
        (((opened none).run (racing.take i)).map fun s => s.core.deletion) = some (some 0) := by
      decide
    have hthere := hsome i hle hi
    rw [hs', Option.map_some, hnone] at hthere
    cases hthere
  · refine ⟨_, rfl, fun h => ?_⟩
    have hdone := h (fun b => by rcases b with _ | _ | b <;> rfl) "s" ⟨"s", none⟩ rfl
    rcases hdone with hcurrent | hdrop
    · cases hcurrent
    · obtain ⟨t, ht, hnone⟩ := hdrop 2 [] rfl
      obtain rfl := Option.some.inj ht
      cases hnone

end CacheState

end Laurus
