import Laurus.Common.Run
import Mathlib.Data.Finset.Basic
import Mathlib.Logic.Function.Basic
import Mathlib.Tactic.Ring

/-!
# The reader cache (`vector/index/segment/reader_cache.rs`, `segmented_core.rs`)

The deletion bitmap of a segmented index, the cache of its segments' readers,
and the builds that run over both. What a lock protects, or one atomic
access, is one step. A bitmap object is its number among all that were ever
made, as an `Arc` is its address; of a reader the bitmap it holds matters.
Whether storage does what it is asked is a step's own parameter.
-/

namespace Laurus

/-! ## The bitmap -/

/-- `SegmentedCore`, as far as the bitmap goes. -/
structure BitmapSlot where
  /-- The bitmaps ever made, each with its marks. -/
  bitmaps : List (Finset ℕ)
  deletion : Option ℕ
  bitmap_epoch : ℕ
  /-- `{name}.delmap`. -/
  delmap : Option (Finset ℕ)

namespace BitmapSlot

/-- The marks of a bitmap. -/
def marks (slot : BitmapSlot) (bitmap : ℕ) : Finset ℕ := slot.bitmaps.getD bitmap ∅

/-- What `write_delmap` leaves of a bitmap with these marks. -/
def written (marks : Finset ℕ) : Option (Finset ℕ) := if marks.Nonempty then some marks else none

/-- `load_into`; `read` is false where reading the file fails. -/
def load_into (slot : BitmapSlot) (create_if_missing read : Bool) : BitmapSlot × Bool :=
  if slot.deletion.isSome then (slot, true)
  else match slot.delmap with
    | some marks =>
      if read then
        ({ slot with bitmaps := slot.bitmaps ++ [marks], deletion := some slot.bitmaps.length },
          true)
      else (slot, false)
    | none =>
      if create_if_missing then
        ({ slot with
            bitmaps := slot.bitmaps ++ [∅]
            deletion := some slot.bitmaps.length
            bitmap_epoch := slot.bitmap_epoch + 1 }, true)
      else (slot, true)

/-- `change_bitmap`. -/
def change_bitmap (slot : BitmapSlot) (create_if_missing read : Bool)
    (change : Finset ℕ → Finset ℕ) : BitmapSlot :=
  let (slot, loaded) := slot.load_into create_if_missing read
  match slot.deletion with
  | some bitmap =>
    if loaded then { slot with bitmaps := slot.bitmaps.set bitmap (change (slot.marks bitmap)) }
    else slot
  | none => slot

/-- `mark_deleted`; the last id of 64 bits is out of a bitmap's range. -/
def mark_deleted (slot : BitmapSlot) (doc_id : ℕ) (read : Bool) : BitmapSlot :=
  slot.change_bitmap true read fun marks =>
    if doc_id < 2 ^ 64 - 1 then insert doc_id marks else marks

/-- `unmark_deleted`. -/
def unmark_deleted (slot : BitmapSlot) (doc_ids : Finset ℕ) (read : Bool) : BitmapSlot :=
  slot.change_bitmap false read fun marks => marks \ doc_ids

/-- `forget_deletions`; `writes` is false where writing the file fails. -/
def forget_deletions (slot : BitmapSlot) (reclaimed : Option (Finset ℕ)) (writes : Bool) :
    BitmapSlot :=
  match reclaimed with
  | none => slot
  | some reclaimed =>
    match slot.deletion with
    | none => slot
    | some bitmap =>
      let remaining := slot.marks bitmap \ reclaimed
      if writes then
        { bitmaps := slot.bitmaps ++ [remaining]
          deletion := if remaining.Nonempty then some slot.bitmaps.length else none
          bitmap_epoch := slot.bitmap_epoch + 1
          delmap := written remaining }
      else slot

/-- `write_deletions`. -/
def write_deletions (slot : BitmapSlot) (writes : Bool) : BitmapSlot :=
  match slot.deletion with
  | some bitmap =>
    if writes then { slot with delmap := written (slot.marks bitmap) } else slot
  | none => slot

end BitmapSlot

/-! ## The cache -/

/-- A segment's reader: the bitmap it was loaded with. -/
structure CachedReader where
  segment_id : String
  bitmap : Option ℕ
  deriving DecidableEq, Repr

/-- `SegmentedReaderCache`. -/
structure SegmentedReaderCache where
  inner : String → Option CachedReader
  bitmap_epoch : ℕ

namespace SegmentedReaderCache

/-- `invalidate`. -/
def invalidate (cache : SegmentedReaderCache) (segment_id : String) : SegmentedReaderCache :=
  { cache with inner := Function.update cache.inner segment_id none }

/-- `clear`. -/
def clear (cache : SegmentedReaderCache) : SegmentedReaderCache :=
  { cache with inner := fun _ => none }

/-- `get_or_load`; `loads` is false where loading the reader fails. -/
def get_or_load (cache : SegmentedReaderCache) (segment_id : String) (bitmap : Option ℕ)
    (loads : Bool) : Option CachedReader × SegmentedReaderCache :=
  match cache.inner segment_id with
  | some reader => (some reader, cache)
  | none =>
    if loads then
      (some { segment_id, bitmap },
        { cache with
          inner := Function.update cache.inner segment_id (some { segment_id, bitmap }) })
    else (none, cache)

end SegmentedReaderCache

/-! ## Builds -/

/-- A call of `sealed_readers_newest_first`, by what it does next. -/
inductive ReaderBuild
  | idle
  | reading_epoch (segments : List String)
  | comparing (segments : List String) (epoch : ℕ)
  | storing (segments : List String) (epoch : ℕ)
  | reading_bitmap (segments : List String) (epoch : ℕ)
  /-- The segments left to look up, and the readers it has. -/
  | loading (segments : List String) (epoch : ℕ) (bitmap : Option ℕ) (left : List String)
      (readers : List CachedReader)
  | clearing (segments : List String)
  | returned (readers : List CachedReader)
  | failed
  deriving DecidableEq, Repr

/-- An index under concurrent calls. -/
structure CacheState where
  core : BitmapSlot
  cache : SegmentedReaderCache
  builds : ℕ → ReaderBuild

/-- A step of some thread. -/
inductive CacheAction
  | begin_build (b : ℕ) (segments : List String)
  /-- The next step of a build; `ok` is false where storage fails it. -/
  | build (b : ℕ) (ok : Bool)
  /-- Some other caller reads the bitmap. -/
  | bitmap (read : Bool)
  | mark_deleted (doc_id : ℕ) (read : Bool)
  | unmark_deleted (doc_ids : Finset ℕ) (read : Bool)
  | forget_deletions (reclaimed : Option (Finset ℕ)) (writes : Bool)
  | write_deletions (writes : Bool)
  | invalidate (segment_id : String)
  deriving DecidableEq

namespace CacheState

/-- An index just opened. -/
def opened (delmap : Option (Finset ℕ)) : CacheState where
  core := { bitmaps := [], deletion := none, bitmap_epoch := 0, delmap }
  cache := { inner := fun _ => none, bitmap_epoch := 0 }
  builds := fun _ => .idle

/-- A build goes on. -/
def goto (s : CacheState) (b : ℕ) (at_ : ReaderBuild) : CacheState :=
  { s with builds := Function.update s.builds b at_ }

/-- The next step of `sealed_readers_newest_first`. -/
def advance (s : CacheState) (b : ℕ) (ok : Bool) : Option CacheState :=
  match s.builds b with
  | .idle | .returned _ | .failed => none
  | .reading_epoch segments => some (s.goto b (.comparing segments s.core.bitmap_epoch))
  | .comparing segments epoch =>
    if s.cache.bitmap_epoch = epoch then some (s.goto b (.reading_bitmap segments epoch))
    else some (({ s with cache := s.cache.clear }).goto b (.storing segments epoch))
  | .storing segments epoch =>
    some (({ s with cache := { s.cache with bitmap_epoch := epoch } }).goto b
      (.reading_bitmap segments epoch))
  | .reading_bitmap segments epoch =>
    let (core, loaded) := s.core.load_into false ok
    if loaded then
      some (({ s with core }).goto b (.loading segments epoch core.deletion segments []))
    else some (s.goto b .failed)
  | .loading segments epoch bitmap (segment_id :: left) readers =>
    match s.cache.get_or_load segment_id bitmap ok with
    | (some reader, cache) =>
      some (({ s with cache }).goto b
        (.loading segments epoch bitmap left (readers ++ [reader])))
    | (none, _) => some (s.goto b .failed)
  | .loading segments epoch _ [] readers =>
    -- the epoch is read again
    if s.core.bitmap_epoch = epoch then some (s.goto b (.returned readers))
    else some (s.goto b (.clearing segments))
  | .clearing segments =>
    some (({ s with cache := s.cache.clear }).goto b (.reading_epoch segments))

/-- One step. -/
def step (s : CacheState) : CacheAction → Option CacheState
  | .begin_build b segments =>
    if s.builds b = .idle then some (s.goto b (.reading_epoch segments)) else none
  | .build b ok => s.advance b ok
  | .bitmap read => some { s with core := (s.core.load_into false read).1 }
  | .mark_deleted doc_id read => some { s with core := s.core.mark_deleted doc_id read }
  | .unmark_deleted doc_ids read => some { s with core := s.core.unmark_deleted doc_ids read }
  | .forget_deletions reclaimed writes =>
    some { s with core := s.core.forget_deletions reclaimed writes }
  | .write_deletions writes => some { s with core := s.core.write_deletions writes }
  | .invalidate segment_id => some { s with cache := s.cache.invalidate segment_id }

/-- The steps as a relation. -/
def Steps : Step CacheState CacheAction := fun s action t => s.step action = some t

/-- The state after some steps. -/
def run (s : CacheState) (actions : List CacheAction) : Option CacheState :=
  actions.foldlM step s

end CacheState

end Laurus
