import Unearth.Lib.Loop
import Unearth.LengthFields

/-!
# The directories of a TIFF file

A TIFF file is a graph of directories. The walk keeps the offsets that are still to be
visited on a stack, visits each directory once, and takes the furthest byte that any of
them refers to for the end of the file.
-/

namespace Unearth
open Bytes Word Loop

/-- A reader of numbers at offsets from the file start, none of them behind `avail`. -/
structure Tiff where
  src : Source
  base : ℕ
  le : Bool
  big : Bool
  avail : ℕ

def tiffTypeSize (typ : ℕ) : ℕ :=
  if typ ∈ [1, 2, 6, 7] then 1
  else if typ ∈ [3, 8] then 2
  else if typ ∈ [4, 9, 11, 13] then 4
  else if typ ∈ [5, 10, 12, 16, 17, 18] then 8
  else 0

namespace Tiff

variable (b : Build) (t : Tiff)

def cntSize : ℕ := if t.big then 8 else 2
def entrySize : ℕ := if t.big then 20 else 12
def ptrSize : ℕ := if t.big then 8 else 4
def headerEnd : ℕ := if t.big then 16 else 8

def uint (width off : ℕ) : Exec (Option ℕ) :=
  if t.avail < satAdd off width then return none
  else do
    let bytes ← t.src.readAt (← plus b t.base off) width
    return if bytes.length < width then none else some (num t.le bytes)

def u16 (off : ℕ) : Exec (Option ℕ) := t.uint b 2 off
def u32 (off : ℕ) : Exec (Option ℕ) := t.uint b 4 off
def u64 (off : ℕ) : Exec (Option ℕ) := t.uint b 8 off

/-- A field as wide as an offset. -/
def ptr (off : ℕ) : Exec (Option ℕ) := if t.big then t.u64 b off else t.u32 b off

/-- The number of entries of the directory at `off`. -/
def count (off : ℕ) : Exec (Option ℕ) := if t.big then t.u64 b off else t.u16 b off

def valueField (entry : ℕ) : Exec ℕ := plus b entry (if t.big then 12 else 8)

/-- Where the values of an entry stand: in the entry when they fit. -/
def valuesAt (entry count size : ℕ) : Exec (Option ℕ) := do
  let valField ← t.valueField b entry
  if satMul count size ≤ t.ptrSize then return some valField
  else t.ptr b valField

/-- Up to `cap` values of an entry. -/
def entryArray (entry typ count cap : ℕ) : Exec (List ℕ) :=
  let size := tiffTypeSize typ
  if size = 0 ∨ count = 0 then return []
  else do
    let n := min count cap
    let total := satMul n size
    match ← t.valuesAt b entry count size with
    | none => return []
    | some base =>
      if t.avail < satAdd base total then return []
      else
        let buf ← t.src.readAt (← plus b t.base base) total
        let usable := min (buf.length / size) n
        return (List.range usable).map fun j => num t.le (window buf (j * size) size)

end Tiff

/-- The type, count and offset of an entry. -/
abbrev TiffEntry := ℕ × ℕ × ℕ

/-- The furthest end of strips or tiles, from their offsets and their lengths. -/
def stripTileEnd (b : Build) (t : Tiff) (offsets counts : Option TiffEntry) (cap : ℕ) : Exec ℕ :=
  match offsets, counts with
  | some (ot, oc, oe), some (ct, cc, ce) => do
    let offs ← t.entryArray b oe ot oc cap
    let lens ← t.entryArray b ce ct cc cap
    return ((offs.zip lens).map fun p => satAdd p.1 p.2).foldl max 0
  | _, _ => return 0

/-- The walk over the directories. The offset on top of the stack is visited next. -/
structure TiffWalk where
  queue : List ℕ
  visited : List ℕ
  processed : ℕ
  budget : ℕ
  maxEnd : ℕ

/-- What the entries of a directory name besides further directories. -/
structure TiffTags where
  stripOff : Option TiffEntry
  stripCnt : Option TiffEntry
  tileOff : Option TiffEntry
  tileCnt : Option TiffEntry

namespace TiffWalk

variable (b : Build) (t : Tiff)

def MAX_IFDS : ℕ := 4096
def MAX_SUBIFDS : ℕ := 64
def MAX_STRIPS : ℕ := 2 ^ 20

def start (first : ℕ) : TiffWalk where
  queue := [first]
  visited := []
  processed := 0
  budget := 2 ^ 20
  maxEnd := t.headerEnd

def reach (w : TiffWalk) (stop : ℕ) : TiffWalk := { w with maxEnd := max w.maxEnd stop }
def push (w : TiffWalk) (ifds : List ℕ) : TiffWalk := { w with queue := ifds.reverse ++ w.queue }

/-- The directories that an entry points to. -/
def subDirectories (tag : ℕ) (entry : TiffEntry) : Exec (List ℕ) :=
  let (typ, cnt, e) := entry
  if tag = 330 then t.entryArray b e typ cnt MAX_SUBIFDS
  else if tag = 34665 ∨ tag = 34853 then do return (← t.entryArray b e typ cnt 1).take 1
  else return []

def note (tags : TiffTags) (tag : ℕ) (entry : TiffEntry) : TiffTags :=
  if tag = 273 then { tags with stripOff := some entry }
  else if tag = 279 then { tags with stripCnt := some entry }
  else if tag = 324 then { tags with tileOff := some entry }
  else if tag = 325 then { tags with tileCnt := some entry }
  else tags

/-- The end of the values that do not stand in the entry itself. -/
def outOfLine (entry : TiffEntry) : Exec ℕ :=
  let (typ, cnt, e) := entry
  let total := satMul cnt (tiffTypeSize typ)
  if total ≤ t.ptrSize then return 0
  else do
    match ← t.ptr b (← t.valueField b e) with
    | none => return 0
    | some off => return satAdd off total

/-- The tag and the rest of the entry at `e`; nothing where the file has ended. -/
def readEntry (e : ℕ) : Exec (Option (ℕ × TiffEntry)) := do
  match ← t.u16 b e with
  | none => return none
  | some tag =>
    let typ := (← t.u16 b (← plus b e 2)).getD 0
    let cntAt ← plus b e 4
    match ← (if t.big then t.u64 b cntAt else t.u32 b cntAt) with
    | none => return none
    | some cnt => return some (tag, typ, cnt, e)

/-- The entries of a directory from the `i`th on, as far as the budget goes. -/
def entries (ifd count : ℕ) : ℕ → ℕ → TiffWalk → TiffTags → Exec (TiffWalk × TiffTags)
  | 0, _, w, tags => return ({ w with budget := 0 }, tags)
  | budget + 1, i, w, tags =>
    if i < count then do
      -- every entry before this one lies in the file, which bounds the product
      let e ← plus b (← plus b ifd t.cntSize) (i * t.entrySize)
      match ← readEntry b t e with
      | none => return ({ w with budget }, tags)
      | some (tag, entry) =>
        let stop ← outOfLine b t entry
        let subs ← subDirectories b t tag entry
        entries ifd count budget (i + 1) ((w.reach stop).push subs) (note tags tag entry)
    else return ({ w with budget := budget + 1 }, tags)

/-- A directory, up to the offset of the next one: its number of entries, and the walk
with all that it names. -/
def visit (w : TiffWalk) (ifd : ℕ) : Exec (Option (ℕ × TiffWalk)) := do
  match ← t.count b ifd with
  | none => return none
  | some count =>
    let span := satAdd (satAdd (satAdd ifd t.cntSize) (satMul count t.entrySize)) t.ptrSize
    -- a bogus count does not carry the end behind the file
    let w := { w with processed := w.processed + 1 }
    let w := if span ≤ t.avail then w.reach span else w
    let (w, tags) ← entries b t ifd count w.budget 0 w ⟨none, none, none, none⟩
    let strips ← stripTileEnd b t tags.stripOff tags.stripCnt MAX_STRIPS
    let tiles ← stripTileEnd b t tags.tileOff tags.tileCnt MAX_STRIPS
    return some (count, (w.reach strips).reach tiles)

/-- The offset that is taken from the stack, unless it is not one of a new directory. -/
def pop (w : TiffWalk) : Option (Option ℕ × TiffWalk) :=
  match w.queue with
  | [] => none
  | ifd :: queue =>
    let w := { w with queue }
    if ifd < t.headerEnd ∨ ifd ∈ w.visited then some (none, w)
    else
      let w := { w with visited := ifd :: w.visited }
      if MAX_IFDS ≤ w.processed then some (none, w) else some (some ifd, w)

/-- The next directory of the chain, whose offset stands behind the entries. -/
def next (w : TiffWalk) (ifd count : ℕ) : Exec TiffWalk := do
  let stop ← plus b (← plus b ifd t.cntSize) (satMul count t.entrySize)
  match ← t.ptr b stop with
  | none => return w
  | some ifd => return if ifd = 0 then w else w.push [ifd]

def body (w : TiffWalk) : Ctl TiffWalk (Exec TiffWalk) :=
  match w.pop t with
  | none => .done (.ok w)
  | some (none, w) => .next w
  | some (some ifd, w) =>
    match w.visit b t ifd with
    | .error f => .done (.error f)
    | .ok none => .next w
    | .ok (some (count, w)) =>
      match w.next b t ifd count with
      | .error f => .done (.error f)
      | .ok w => .next w

/-- A bound on what is left to do: a visit takes an offset from the stack, and puts one
back for the next directory and at most 64 for each entry. -/
def measure (w : TiffWalk) : ℕ := w.queue.length + 64 * w.budget + 2 * (MAX_IFDS - w.processed)

end TiffWalk

namespace Tiff

variable {b : Build} {t : Tiff}

theorem uint_some {width off v : ℕ} (h : t.uint b width off = .ok (some v)) :
    satAdd off width ≤ t.avail := by
  unfold uint at h
  split_ifs at h with havail
  · cases h
  · omega

theorem length_entryArray {entry typ count cap : ℕ} {l : List ℕ}
    (h : t.entryArray b entry typ count cap = .ok l) : l.length ≤ cap := by
  unfold entryArray at h
  simp only at h
  split_ifs at h
  · cases h
    exact Nat.zero_le _
  · obtain ⟨o, -, h⟩ := exec_bind_ok h
    cases o with
    | none =>
      cases h
      exact Nat.zero_le _
    | some base =>
      simp only at h
      split_ifs at h
      · cases h
        exact Nat.zero_le _
      · obtain ⟨off, -, h⟩ := exec_bind_ok h
        obtain ⟨buf, -, h⟩ := exec_bind_ok h
        cases h
        rw [List.length_map, List.length_range]
        omega

end Tiff

namespace TiffWalk

variable {b : Build} {t : Tiff}

theorem length_subDirectories {tag : ℕ} {entry : TiffEntry} {l : List ℕ}
    (h : subDirectories b t tag entry = .ok l) : l.length ≤ MAX_SUBIFDS := by
  unfold subDirectories at h
  split_ifs at h
  · exact Tiff.length_entryArray h
  · obtain ⟨l', -, h⟩ := exec_bind_ok h
    cases h
    exact (List.length_take_le _ _).trans (by decide)
  · cases h
    exact Nat.zero_le _

theorem readEntry_some {e tag : ℕ} {entry : TiffEntry}
    (h : readEntry b t e = .ok (some (tag, entry))) : entry.2.2 = e ∧ satAdd e 2 ≤ t.avail := by
  obtain ⟨o, htag, h⟩ := exec_bind_ok h
  cases o with
  | none => cases h
  | some tag =>
    obtain ⟨a, -, h⟩ := exec_bind_ok h
    obtain ⟨typ, -, h⟩ := exec_bind_ok h
    obtain ⟨cntAt, -, h⟩ := exec_bind_ok h
    obtain ⟨c, -, h⟩ := exec_bind_ok h
    cases c with
    | none => cases h
    | some cnt =>
      cases h
      exact ⟨rfl, Tiff.uint_some htag⟩

theorem entries_bound {ifd count : ℕ} (budget i : ℕ) {w w' : TiffWalk} {tags tags' : TiffTags}
    (h : entries b t ifd count budget i w tags = .ok (w', tags')) :
    w'.queue.length + 64 * w'.budget ≤ w.queue.length + 64 * budget ∧
      w'.processed = w.processed := by
  induction budget generalizing i w tags with
  | zero =>
    cases h
    exact ⟨le_rfl, rfl⟩
  | succ budget ih =>
    simp only [entries] at h
    split_ifs at h with hi
    · obtain ⟨p, -, h⟩ := exec_bind_ok h
      obtain ⟨e, -, h⟩ := exec_bind_ok h
      obtain ⟨o, -, h⟩ := exec_bind_ok h
      match o with
      | none =>
        cases h
        exact ⟨by simp only; omega, rfl⟩
      | some (tag, entry) =>
        obtain ⟨stop, -, h⟩ := exec_bind_ok h
        obtain ⟨subs, hsubs, h⟩ := exec_bind_ok h
        have hlen := length_subDirectories hsubs
        obtain ⟨hq, hp⟩ := ih (i + 1) h
        simp only [push, reach, List.length_append, List.length_reverse] at hq hp
        simp only [MAX_SUBIFDS] at hlen
        exact ⟨by omega, hp⟩
    · cases h
      exact ⟨le_rfl, rfl⟩

theorem visit_bound {w w' : TiffWalk} {ifd count : ℕ}
    (h : w.visit b t ifd = .ok (some (count, w'))) :
    w'.queue.length + 64 * w'.budget ≤ w.queue.length + 64 * w.budget ∧
      w'.processed = w.processed + 1 := by
  obtain ⟨o, -, h⟩ := exec_bind_ok h
  cases o with
  | none => cases h
  | some count =>
    obtain ⟨⟨w₁, tags⟩, he, h⟩ := exec_bind_ok h
    obtain ⟨strips, -, h⟩ := exec_bind_ok h
    obtain ⟨tiles, -, h⟩ := exec_bind_ok h
    cases h
    have hb := entries_bound _ _ he
    split_ifs at hb <;> exact hb

theorem pop_skip {w w' : TiffWalk} (h : w.pop t = some (none, w')) :
    w'.queue.length + 1 = w.queue.length ∧ w'.budget = w.budget ∧ w'.processed = w.processed := by
  unfold pop at h
  split at h
  · cases h
  · rename_i ifd queue hq
    simp only at h
    split_ifs at h <;> cases h <;> simp [hq]

theorem pop_visit {w w' : TiffWalk} {ifd : ℕ} (h : w.pop t = some (some ifd, w')) :
    w'.queue.length + 1 = w.queue.length ∧ w'.budget = w.budget ∧ w'.processed = w.processed ∧
      w.processed < MAX_IFDS := by
  unfold pop at h
  split at h
  · cases h
  · rename_i ifd queue hq
    simp only at h
    split_ifs at h with hskip hmax <;> cases h
    exact ⟨by rw [hq]; rfl, rfl, rfl, by omega⟩

theorem next_bound {w w' : TiffWalk} {ifd count : ℕ} (h : w.next b t ifd count = .ok w') :
    w'.queue.length ≤ w.queue.length + 1 ∧ w'.budget = w.budget ∧ w'.processed = w.processed := by
  obtain ⟨a, -, h⟩ := exec_bind_ok h
  obtain ⟨stop, -, h⟩ := exec_bind_ok h
  obtain ⟨o, -, h⟩ := exec_bind_ok h
  cases o with
  | none =>
    cases h
    exact ⟨by omega, rfl, rfl⟩
  | some ifd =>
    simp only [pure, Except.pure, Except.ok.injEq] at h
    split_ifs at h
    · cases h
      exact ⟨by omega, rfl, rfl⟩
    · cases h
      simp [push]

def loop (b : Build) (t : Tiff) : While TiffWalk (Exec TiffWalk) where
  body := body b t
  measure := measure
  decreases := by
    intro w w' h
    unfold body at h
    simp only [measure]
    split at h
    · cases h
    · rename_i w₁ hpop
      obtain ⟨hq, hb, hp⟩ := pop_skip hpop
      cases h
      omega
    · rename_i ifd w₁ hpop
      obtain ⟨hq, hb, hp, hlt⟩ := pop_visit hpop
      split at h
      · cases h
      · cases h
        omega
      · rename_i count w₂ hvisit
        obtain ⟨hq₂, hp₂⟩ := visit_bound hvisit
        split at h
        · cases h
        · rename_i w₃ hnext
          obtain ⟨hq₃, hb₃, hp₃⟩ := next_bound hnext
          cases h
          omega

end TiffWalk

/-- The reader that the first eight bytes call for. -/
def tiffReader (src : Source) (fileStart limit : ℕ) (hdr : List UInt8) : Option Tiff :=
  let open_ (le : Bool) : Option Tiff :=
    let t (big : Bool) : Tiff := ⟨src, fileStart, le, big, limit - fileStart⟩
    match num le (window hdr 2 2) with
    | 42 => some (t false)
    | 43 => some (t true)
    | _ => none
  if window hdr 0 2 = ascii "II" then open_ true
  else if window hdr 0 2 = ascii "MM" then open_ false
  else none

/-- The width of the offsets of a big file and the two bytes behind it. -/
def Tiff.bigHeader (b : Build) (t : Tiff) : Exec Bool :=
  if t.big then do
    if (← t.u16 b 4).getD 0 ≠ 8 then return false
    else return (← t.u16 b 6).getD 1 = 0
  else return true

def Tiff.firstIfd (b : Build) (t : Tiff) : Exec (Option ℕ) := if t.big then t.u64 b 8 else t.u32 b 4

/-- The length of the file, when the walk has visited a directory and not gone behind the limit. -/
def TiffWalk.length (b : Build) (t : Tiff) (limit : ℕ) (w : TiffWalk) : Exec (Option ℕ) :=
  if w.processed = 0 ∨ w.maxEnd ≤ t.headerEnd then return none
  else fitting b t.base limit (some w.maxEnd)

def Tiff.length (b : Build) (t : Tiff) (limit : ℕ) : Exec (Option ℕ) := do
  if ← t.bigHeader b then
    match ← t.firstIfd b with
    | none => return none
    | some first =>
      let w ← (TiffWalk.loop b t).eval (TiffWalk.start t first)
      w.length b t limit
  else return none

def tiffLength (b : Build) (src : Source) (fileStart limit : ℕ) : Exec (Option ℕ) := do
  let hdr ← src.readAt fileStart 8
  if hdr.length < 8 then return none
  else match tiffReader src fileStart limit hdr with
    | none => return none
    | some t => t.length b limit

section Steadiness

variable {t : Tiff}

/-- The window of the file ends at an offset that a file can have. -/
def Tiff.InWindow (t : Tiff) : Prop := t.base + t.avail < 2 ^ 63

namespace Tiff

theorem cntSize_le (t : Tiff) : t.cntSize ≤ 8 := by
  unfold cntSize
  split_ifs <;> decide

theorem entrySize_le (t : Tiff) : t.entrySize ≤ 20 := by
  unfold entrySize
  split_ifs <;> decide

variable (ht : t.InWindow)
include ht

theorem le_avail {off width : ℕ} (h : satAdd off width ≤ t.avail) : off + width ≤ t.avail := by
  simp only [InWindow, satAdd] at ht h
  omega

theorem uint_steady (width off : ℕ) : Steady fun b => t.uint b width off := by
  refine .ite (fun _ => .ok none) fun h => ?_
  have hle := le_avail ht (not_lt.mp h)
  have hwin : t.base + t.avail < 2 ^ 63 := ht
  exact .plus_bind (by omega) (.bind (t.src.steady_readAt _ _) fun _ _ => .ok _)

theorem ptr_steady (off : ℕ) : Steady fun b => t.ptr b off :=
  .ite (fun _ => uint_steady ht 8 off) fun _ => uint_steady ht 4 off

theorem count_steady (off : ℕ) : Steady fun b => t.count b off :=
  .ite (fun _ => uint_steady ht 8 off) fun _ => uint_steady ht 2 off

theorem count_some {off n : ℕ} {b : Build} (h : t.count b off = .ok (some n)) : off ≤ t.avail := by
  unfold count at h
  split_ifs at h
  · have := le_avail ht (uint_some h)
    omega
  · have := le_avail ht (uint_some h)
    omega

theorem valueField_steady {e : ℕ} (he : e ≤ t.avail) : Steady fun b => t.valueField b e := by
  have hwin : t.base + t.avail < 2 ^ 63 := ht
  apply Steady.plus
  split_ifs <;> omega

theorem entryArray_steady {e : ℕ} (he : e ≤ t.avail) (typ count cap : ℕ) :
    Steady fun b => t.entryArray b e typ count cap := by
  have hat (size : ℕ) : Steady fun b => t.valuesAt b e count size :=
    .bind (valueField_steady ht he) fun v _ => .ite (fun _ => .ok _) fun _ => ptr_steady ht v
  refine .ite (fun _ => .ok []) fun _ => .bind (hat _) fun o _ => ?_
  cases o with
  | none => exact .ok []
  | some base =>
    refine .ite (fun _ => .ok []) fun h => ?_
    have hle := le_avail ht (not_lt.mp h)
    have hwin : t.base + t.avail < 2 ^ 63 := ht
    exact .plus_bind (by omega) (.bind (t.src.steady_readAt _ _) fun _ _ => .ok _)

end Tiff

/-- The entries that were noted stand in the window of the file. -/
def TiffTags.Within (t : Tiff) (tags : TiffTags) : Prop :=
  ∀ o ∈ [tags.stripOff, tags.stripCnt, tags.tileOff, tags.tileCnt], ∀ entry ∈ o,
    entry.2.2 ≤ t.avail

theorem stripTileEnd_steady (ht : t.InWindow) {offsets counts : Option TiffEntry}
    (ho : ∀ entry ∈ offsets, entry.2.2 ≤ t.avail) (hc : ∀ entry ∈ counts, entry.2.2 ≤ t.avail)
    (cap : ℕ) : Steady fun b => stripTileEnd b t offsets counts cap := by
  unfold stripTileEnd
  match offsets, counts with
  | some (ot, oc, oe), some (ct, cc, ce) =>
    exact .bind (Tiff.entryArray_steady ht (ho _ rfl) ot oc cap) fun _ _ =>
      .bind (Tiff.entryArray_steady ht (hc _ rfl) ct cc cap) fun _ _ => .ok _
  | some _, none => exact .ok 0
  | none, _ => exact .ok 0

namespace TiffWalk

theorem note_within {tags : TiffTags} (h : tags.Within t) {entry : TiffEntry}
    (he : entry.2.2 ≤ t.avail) (tag : ℕ) : (note tags tag entry).Within t := by
  simp only [TiffTags.Within, List.forall_mem_cons, List.not_mem_nil, false_imp_iff, implies_true,
    and_true] at h ⊢
  have hentry : ∀ e ∈ some entry, e.2.2 ≤ t.avail := by
    intro e heq
    cases heq
    exact he
  unfold note
  split_ifs
  · exact ⟨hentry, h.2⟩
  · exact ⟨h.1, hentry, h.2.2⟩
  · exact ⟨h.1, h.2.1, hentry, h.2.2.2⟩
  · exact ⟨h.1, h.2.1, h.2.2.1, hentry⟩
  · exact h

variable (ht : t.InWindow)
include ht

theorem readEntry_steady {e : ℕ} (he : e ≤ t.avail + 32) : Steady fun b => readEntry b t e := by
  have hwin : t.base + t.avail < 2 ^ 63 := ht
  refine .bind (Tiff.uint_steady ht 2 e) fun o _ => ?_
  cases o with
  | none => exact .ok none
  | some tag =>
    refine .plus_bind (by omega) (.bind (Tiff.uint_steady ht 2 _) fun typ _ => ?_)
    refine .plus_bind (by omega) (.bind ?_ fun c _ => ?_)
    · exact .ite (fun _ => Tiff.uint_steady ht 8 _) fun _ => Tiff.uint_steady ht 4 _
    · cases c with
      | none => exact .ok none
      | some cnt => exact .ok _

theorem outOfLine_steady {entry : TiffEntry} (he : entry.2.2 ≤ t.avail) :
    Steady fun b => outOfLine b t entry := by
  obtain ⟨typ, cnt, e⟩ := entry
  refine .ite (fun _ => .ok 0) fun _ => .bind (Tiff.valueField_steady ht he) fun v _ =>
    .bind (Tiff.ptr_steady ht v) fun o _ => ?_
  cases o with
  | none => exact .ok 0
  | some off => exact .ok _

theorem subDirectories_steady {entry : TiffEntry} (he : entry.2.2 ≤ t.avail) (tag : ℕ) :
    Steady fun b => subDirectories b t tag entry := by
  obtain ⟨typ, cnt, e⟩ := entry
  exact .ite (fun _ => Tiff.entryArray_steady ht he typ cnt _) fun _ =>
    .ite (fun _ => .bind (Tiff.entryArray_steady ht he typ cnt 1) fun _ _ => .ok _) fun _ => .ok []

/-- An entry is read only where the one before it was, so that no offset leaves the words. -/
theorem entries_steady {ifd count : ℕ} (budget i : ℕ) (w : TiffWalk) {tags : TiffTags}
    (he : ifd + t.cntSize + i * t.entrySize ≤ t.avail + 32) (htags : tags.Within t) :
    (Steady fun b => entries b t ifd count budget i w tags) ∧
      ∀ r, entries .debug t ifd count budget i w tags = .ok r → r.2.Within t := by
  have hwin : t.base + t.avail < 2 ^ 63 := ht
  induction budget generalizing i w tags with
  | zero =>
    refine ⟨.ok _, fun r hr => ?_⟩
    cases hr
    exact htags
  | succ budget ih =>
    simp only [entries]
    split_ifs with hi
    · have hp : ∀ b, plus b ifd t.cntSize = .ok (ifd + t.cntSize) := fun b => plus_eq (by omega)
      have hp' : ∀ b, plus b (ifd + t.cntSize) (i * t.entrySize) =
          .ok (ifd + t.cntSize + i * t.entrySize) := fun b => plus_eq (by omega)
      have hread := readEntry_steady ht he
      have hnext {tag : ℕ} {entry : TiffEntry}
          (h : readEntry .debug t (ifd + t.cntSize + i * t.entrySize) = .ok (some (tag, entry))) :
          entry.2.2 ≤ t.avail ∧ ifd + t.cntSize + (i + 1) * t.entrySize ≤ t.avail + 32 := by
        obtain ⟨heq, hle⟩ := readEntry_some h
        have hle := Tiff.le_avail ht hle
        have hsize := t.entrySize_le
        rw [add_one_mul]
        omega
      simp only [hp, bind, Except.bind, hp']
      constructor
      · refine hread.bind fun o ho => ?_
        match o, ho with
        | none, _ => exact .ok _
        | some (tag, entry), ho =>
          obtain ⟨hentry, hstep⟩ := hnext ho
          exact (outOfLine_steady ht hentry).bind fun _ _ =>
            (subDirectories_steady ht hentry tag).bind fun _ _ =>
              (ih (i + 1) _ hstep (note_within htags hentry tag)).1
      · intro r hr
        obtain ⟨o, ho, hr⟩ := exec_bind_ok hr
        match o, ho with
        | none, _ =>
          cases hr
          exact htags
        | some (tag, entry), ho =>
          obtain ⟨hentry, hstep⟩ := hnext ho
          obtain ⟨_, -, hr⟩ := exec_bind_ok hr
          obtain ⟨_, -, hr⟩ := exec_bind_ok hr
          exact (ih (i + 1) _ hstep (note_within htags hentry tag)).2 r hr
    · refine ⟨.ok _, fun r hr => ?_⟩
      cases hr
      exact htags

theorem visit_steady (w : TiffWalk) (ifd : ℕ) : Steady fun b => w.visit b t ifd := by
  refine .bind (Tiff.count_steady ht ifd) fun o ho => ?_
  cases o with
  | none => exact .ok none
  | some count =>
    have hifd := Tiff.count_some ht ho
    have hsize := t.cntSize_le
    have hnone : (⟨none, none, none, none⟩ : TiffTags).Within t := by
      simp [TiffTags.Within]
    have hentries (w : TiffWalk) := @entries_steady t ht ifd count w.budget 0 w _ (by omega) hnone
    refine (hentries _).1.bind fun r hr => ?_
    have hr := (hentries _).2 r hr
    simp only [TiffTags.Within, List.forall_mem_cons] at hr
    exact (stripTileEnd_steady ht hr.1 hr.2.1 _).bind fun _ _ =>
      (stripTileEnd_steady ht hr.2.2.1 hr.2.2.2.1 _).bind fun _ _ => .ok _

theorem visit_some {w w' : TiffWalk} {ifd count : ℕ} {b : Build}
    (h : w.visit b t ifd = .ok (some (count, w'))) : ifd ≤ t.avail := by
  obtain ⟨o, ho, h⟩ := exec_bind_ok h
  cases o with
  | none => cases h
  | some n => exact Tiff.count_some ht ho

theorem next_steady {ifd count : ℕ} (h : ifd + t.cntSize + satMul count t.entrySize < 2 ^ 64)
    (w : TiffWalk) : Steady fun b => w.next b t ifd count := by
  refine .plus_bind (by omega) (.plus_bind h (.bind (Tiff.ptr_steady ht _) fun o _ => ?_))
  cases o with
  | none => exact .ok _
  | some ifd => exact .ok _

theorem next_overflow {ifd count : ℕ} (hifd : ifd ≤ t.avail)
    (h : 2 ^ 64 ≤ ifd + t.cntSize + satMul count t.entrySize) (w : TiffWalk) :
    w.next .debug t ifd count = .error .overflow := by
  have hwin : t.base + t.avail < 2 ^ 63 := ht
  have hsize := t.cntSize_le
  have hp : plus .debug ifd t.cntSize = .ok (ifd + t.cntSize) := plus_eq (by omega)
  simp only [next, hp, bind, Except.bind, plus_debug h]

end TiffWalk

/-- At every directory that the walk visits the end of its entries is a word, and so is the
furthest end when the walk has visited all of them. -/
structure TiffFits (t : Tiff) (first : ℕ) : Prop where
  next : ∀ w w₁ w₂ ifd count, Reaches (TiffWalk.body .debug t) (.start t first) w →
    w.pop t = some (some ifd, w₁) → w₁.visit .debug t ifd = .ok (some (count, w₂)) →
      ifd + t.cntSize + satMul count t.entrySize < 2 ^ 64
  stop : ∀ w, Reaches (TiffWalk.body .debug t) (.start t first) w → w.queue = [] →
    w.processed ≠ 0 → t.base + w.maxEnd < 2 ^ 64

namespace TiffWalk

variable {first limit : ℕ}

theorem body_done {b : Build} {w w' : TiffWalk} (h : body b t w = .done (.ok w')) :
    w' = w ∧ w.queue = [] := by
  unfold body at h
  split at h
  · rename_i hpop
    cases h
    unfold pop at hpop
    split at hpop
    · exact ⟨rfl, ‹_›⟩
    · simp only at hpop
      split_ifs at hpop
  · cases h
  · split at h
    · cases h
    · cases h
    · split at h <;> cases h

/-- Where the directories fit, every build takes the same step. -/
theorem body_same (ht : t.InWindow) (hfits : TiffFits t first) {w : TiffWalk}
    (h : Reaches (body .debug t) (start t first) w) (b : Build) :
    body b t w = body .debug t w ∧ body .debug t w ≠ .done (.error .overflow) := by
  unfold body
  cases hpop : w.pop t with
  | none => simp
  | some p =>
    match p with
    | (none, w₁) => simp
    | (some ifd, w₁) =>
      have hvisit := visit_steady ht w₁ ifd
      simp only [hvisit.same b]
      cases hv : w₁.visit .debug t ifd with
      | error f =>
        refine ⟨rfl, fun he => hvisit.no_overflow ?_⟩
        cases he
        exact hv
      | ok o =>
        match o with
        | none => simp
        | some (count, w₂) =>
          have hnext := next_steady ht (hfits.next w w₁ w₂ ifd count h hpop hv) w₂
          simp only [hnext.same b, true_and]
          cases hn : w₂.next .debug t ifd count with
          | error f =>
            intro he
            cases he
            exact hnext.no_overflow hn
          | ok w₃ => simp

theorem loop_steady (ht : t.InWindow) (hfits : TiffFits t first) :
    Steady fun b => (loop b t).eval (start t first) := by
  refine ⟨fun he => ?_, fun b => While.eval_congr fun w hw => (body_same ht hfits hw b).1⟩
  obtain ⟨w, hr, hd⟩ := (loop .debug t).exists_reaches_done (start t first)
  rw [he] at hd
  exact (body_same ht hfits hr .debug).2 hd

/-- The walk and the check of its end stay inside exactly when the directories fit. -/
theorem inside_walk_iff (ht : t.InWindow) :
    Inside t.base limit
      (fun b => (loop b t).eval (start t first) >>= fun w => w.length b t limit) ↔
      TiffFits t first := by
  have hwin : t.base + t.avail < 2 ^ 63 := ht
  constructor
  · rintro ⟨hover, -⟩
    constructor
    · intro w w₁ w₂ ifd count hr hpop hv
      by_contra hge
      apply hover
      have hn := next_overflow ht (visit_some ht hv) (not_lt.mp hge) w₂
      have hbody : (loop .debug t).body w = .done (.error .overflow) := by
        simp only [loop, body, hpop, hv, hn]
      have heval := ((loop .debug t).eval_of_reaches hr).trans (While.eval_done _ hbody)
      simp only [heval]
      rfl
    · intro w hr hq hproc
      by_contra hge
      apply hover
      have hbody : (loop .debug t).body w = .done (.ok w) := by
        simp only [loop, body, pop, hq]
      have hheader : t.headerEnd ≤ 16 := by
        unfold Tiff.headerEnd
        split_ifs <;> decide
      have hlen : w.length .debug t limit = .error .overflow := by
        rw [length, if_neg (by omega), fitting, plus_debug (by omega)]
        rfl
      have heval := ((loop .debug t).eval_of_reaches hr).trans (While.eval_done _ hbody)
      simp only [heval]
      exact hlen
  · intro hfits
    rw [inside_bind (loop_steady ht hfits)]
    intro w hw
    obtain ⟨w', hr, hd⟩ := (loop .debug t).exists_reaches_done (start t first)
    rw [hw] at hd
    obtain ⟨rfl, hq⟩ := body_done hd
    unfold length
    split_ifs with hnone
    · exact inside_none
    · rw [not_or] at hnone
      refine (inside_fitting_iff fun n hn => ?_).mpr fun n hn => ?_
      · cases hn
        omega
      · cases hn
        exact hfits.stop w hr hq hnone.1

end TiffWalk

theorem Tiff.inside_length_iff {limit : ℕ} (ht : t.InWindow) :
    Inside t.base limit (fun b => t.length b limit) ↔
      ∀ first, t.bigHeader .debug = .ok true → t.firstIfd .debug = .ok (some first) →
        TiffFits t first := by
  have hbig : Steady fun b => t.bigHeader b := by
    refine .ite (fun _ => .bind (uint_steady ht 2 4) fun size _ => ?_) fun _ => .ok true
    exact .ite (fun _ => .ok _) fun _ => .bind (uint_steady ht 2 6) fun _ _ => .ok _
  have hfirst : Steady fun b => t.firstIfd b :=
    .ite (fun _ => uint_steady ht 8 8) fun _ => uint_steady ht 4 4
  unfold Tiff.length
  rw [inside_bind hbig]
  constructor
  · intro h first hb hf
    have h := h true hb
    simp only [if_true] at h
    rw [inside_bind hfirst] at h
    exact (TiffWalk.inside_walk_iff ht).mp (h _ hf)
  · intro h big hb
    cases big with
    | false => exact inside_none
    | true =>
      simp only [if_true]
      rw [inside_bind hfirst]
      intro o ho
      cases o with
      | none => exact inside_none
      | some first => exact (TiffWalk.inside_walk_iff ht).mpr (h first hb ho)

theorem tiffReader_some {src : Source} {fileStart limit : ℕ} {hdr : List UInt8} {t : Tiff}
    (h : tiffReader src fileStart limit hdr = some t) :
    t.base = fileStart ∧ t.avail = limit - fileStart := by
  unfold tiffReader at h
  simp only at h
  split_ifs at h
  all_goals
    split at h <;> cases h
    all_goals exact ⟨rfl, rfl⟩

/-- A TIFF file stays inside exactly when its directories fit. -/
theorem inside_tiffLength_iff {src : Source} {fileStart limit : ℕ} (hlt : fileStart < limit)
    (hlimit : limit < 2 ^ 63) :
    Inside fileStart limit (fun b => tiffLength b src fileStart limit) ↔
      ∀ hdr t first, src.readAt fileStart 8 = .ok hdr → 8 ≤ hdr.length →
        tiffReader src fileStart limit hdr = some t → t.bigHeader .debug = .ok true →
          t.firstIfd .debug = .ok (some first) → TiffFits t first := by
  unfold tiffLength
  rw [inside_bind (src.steady_readAt fileStart 8)]
  have hreader {hdr : List UInt8} {t : Tiff} (h : tiffReader src fileStart limit hdr = some t) :
      Inside fileStart limit (fun b => t.length b limit) ↔
        ∀ first, t.bigHeader .debug = .ok true → t.firstIfd .debug = .ok (some first) →
          TiffFits t first := by
    obtain ⟨hbase, havail⟩ := tiffReader_some h
    rw [← hbase]
    apply Tiff.inside_length_iff
    simp only [Tiff.InWindow, hbase, havail]
    omega
  constructor
  · intro h hdr t first hread hlen ht
    have h := h hdr hread
    simp only [if_neg (not_lt.mpr hlen), ht] at h
    exact (hreader ht).mp h first
  · intro h hdr hread
    by_cases hlen : hdr.length < 8
    · simp only [if_pos hlen]
      exact inside_none
    · simp only [if_neg hlen]
      cases ht : tiffReader src fileStart limit hdr with
      | none => exact inside_none
      | some t =>
        exact (hreader ht).mpr fun first => h hdr t first hread (not_lt.mp hlen) ht

end Steadiness

end Unearth
