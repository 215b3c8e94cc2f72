import Unearth.WalkBounds

/-!
# Live files among the deleted ones

A file is live when its entry is not marked and lies in the root or in a directory that is
live itself. The walks tell live entries from deleted ones by the marks and by the way they
have come, and the first cluster of a deleted directory may belong to a live one by now.
-/

namespace Unearth
open Bytes Word Loop TreeWalk

namespace Fat

section Live

variable (b : Build) (v : Volume) (src : Source)

/-- What can be read of a directory, of any number of clusters. -/
def contents (limit : ℕ) (loc : DirLoc) : Content src := (v.readUpTo b src limit loc ∅).content

/-- The directories that live entries lead to from the root. -/
inductive LiveDirectory : DirLoc → Prop
  | root : LiveDirectory v.rootLocation
  | sub {loc : DirLoc} {limit : ℕ} {entry : ParsedEntry} (parent : LiveDirectory loc)
      (mem : entry ∈ parseEntries (contents b v src limit loc).bytes) (dir : entry.isDir = true)
      (unmarked : entry.deleted = false) (named : entry.name ≠ ['.'] ∧ entry.name ≠ ['.', '.']) :
      LiveDirectory (.cluster entry.startCluster)

/-- The entry at a place is that of a file, is not marked, and lies in a live directory. -/
def LiveFile (place : ℕ) : Prop :=
  ∃ loc limit, LiveDirectory b v src loc ∧ ∃ entry ∈ parseEntries (contents b v src limit loc).bytes,
    entry.isDir = false ∧ entry.deleted = false ∧
      (contents b v src limit loc).places.getD (entrySize * entry.slot) 0 = place

/-- The directory of a frame, as far as it has not been read before. -/
def unread (visited : Finset ℕ) (frame : Frame) : Directory src := v.readDirectory b src frame.loc visited

/-- The entries of the directory of a frame that a visit goes through. -/
def unreadEntries (windows : Bool) (identify : List UInt8 → Option Lines.Text) (visited : Finset ℕ)
    (frame : Frame) : List ParsedEntry :=
  let dir := unread b v src visited frame
  v.listed windows identify b src dir.visited frame dir.content.places (parseEntries dir.content.bytes)

/-- A deleted directory is about to be listed, because there is one where it was, and what
has not been read of it holds the entry of a live file. -/
structure Trespasses (windows : Bool) (identify : List UInt8 → Option Lines.Text) (visited : Finset ℕ)
    (frame : Frame) : Prop where
  deleted : frame.deleted = true
  read : (unread b v src visited frame).result = .ok ()
  dot : startsWithDotEntry (unread b v src visited frame).content.bytes = true
  live : ∃ entry ∈ unreadEntries b v src windows identify visited frame, entry.isDir = false ∧
    LiveFile b v src ((unread b v src visited frame).content.places.getD (entrySize * entry.slot) 0)

end Live

variable {windows : Bool} {identify : List UInt8 → Option Lines.Text} {b : Build} {v : Volume} {src : Source}

/-- An entry is marked at its place. -/
theorem entry_place {content : Content src} {entry : ParsedEntry} (h : entry ∈ parseEntries content.bytes) :
    entry.deleted =
      decide (byteAt src.data (content.places.getD (entrySize * entry.slot) 0) = deletedMarker) := by
  obtain ⟨hlength, hdeleted⟩ := mem_parseEntries h
  rw [hdeleted, content.byteAt_bytes (by unfold entrySize at hlength ⊢; omega)]

/-- The entry of a live file is not marked. -/
theorem LiveFile.unmarked {place : ℕ} (h : LiveFile b v src place) :
    byteAt src.data place ≠ deletedMarker := by
  obtain ⟨loc, limit, -, entry, hentry, -, hunmarked, rfl⟩ := h
  have hdeleted := entry_place hentry
  rw [hunmarked] at hdeleted
  simpa using hdeleted.symm

/-- A visit reports a live file exactly when it trespasses. -/
theorem visit_reports_iff {visited : Finset ℕ} {frame : Frame} :
    (∃ p ∈ (v.visit windows identify b src visited frame).reports, LiveFile b v src p.place) ↔
      Trespasses b v src windows identify visited frame := by
  constructor
  · rintro ⟨p, hp, hlive⟩
    obtain ⟨-, hnone⟩ | ⟨hread, hdot, list, hlist, -, hreports⟩ :=
      Volume.visit_lists windows identify b v src visited frame
    · rw [hnone] at hp
      cases hp
    · rw [hreports, hlist] at hp
      obtain ⟨entry, hentry, hp⟩ := Volume.mem_reports.mp hp
      obtain ⟨hfile, hgone, hplace, -⟩ := Volume.listEntry_reports hp
      have hdeleted := entry_place (Volume.mem_listed hentry).1
      rw [hplace] at hlive
      rw [decide_eq_false hlive.unmarked] at hdeleted
      rw [hdeleted, Bool.false_or] at hgone
      exact ⟨hgone, hread, hdot hgone, entry, hentry, hfile, hlive⟩
  · rintro ⟨hdeleted, hread, hdot, entry, hentry, hfile, hlive⟩
    obtain ⟨p, hp, hplace⟩ := Volume.exists_report (Volume.mem_listed hentry).2 hfile
      (by rw [hdeleted, Bool.or_true])
    refine ⟨p, ?_, hplace ▸ hlive⟩
    rw [Volume.visit_reports hread fun _ => hdot]
    exact Volume.mem_reports.mpr ⟨entry, hentry, hp⟩

/-- A walk reports no live file exactly when none of its visits trespasses. -/
theorem walk_reports_iff :
    (∀ fuel r, v.walk windows identify b src fuel = some r → ∀ p ∈ r.reports, ¬ LiveFile b v src p.place) ↔
      ∀ s frame rest, Reaches (body (v.visit windows identify b src)) (.start v.rootFrame) s →
        s.stack = frame :: rest → ¬ Trespasses b v src windows identify s.visited frame := by
  constructor
  · intro h s frame rest hreach hstack htrespass
    obtain ⟨p, hp, hlive⟩ := visit_reports_iff.mpr htrespass
    obtain ⟨fuel, r, hr⟩ := exists_walk (visit_bounded windows identify b v src) v.rootFrame
    exact h fuel r hr p (reports_of_visit hr hreach hstack p hp) hlive
  · intro h fuel r hr p hp hlive
    obtain ⟨s, frame, rest, hreach, hstack, hp⟩ := mem_reports hr hp
    exact h s frame rest hreach hstack (visit_reports_iff.mp ⟨p, hp, hlive⟩)

end Fat

namespace Exfat

section Live

variable (b : Build) (v : Volume) (src : Source)

/-- Where a directory begins, its length if that is known, and whether it is in one piece. -/
structure Extent where
  firstCluster : ℕ
  len : Option ℕ
  contiguous : Bool

/-- What can be read of a directory, of any number of clusters. -/
def contents (limit : ℕ) (x : Extent) : Content src :=
  (v.readUpTo src limit b x.firstCluster x.len x.contiguous).content

/-- The directories that live entries lead to from the root. -/
inductive LiveDirectory : Extent → Prop
  | root : LiveDirectory ⟨v.rootCluster, none, false⟩
  | sub {x : Extent} {limit : ℕ} {item : Item} (parent : LiveDirectory x)
      (mem : item ∈ parseEntrySets (contents b v src limit x).bytes) (dir : item.isDir = true)
      (unmarked : item.deleted = false) :
      LiveDirectory ⟨item.firstCluster, some item.dataLength, item.noFatChain⟩

/-- The entry at a place is that of a file, is not marked, and lies in a live directory. -/
def LiveFile (place : ℕ) : Prop :=
  ∃ x limit, LiveDirectory b v src x ∧ ∃ item ∈ parseEntrySets (contents b v src limit x).bytes,
    item.isDir = false ∧ item.deleted = false ∧
      (contents b v src limit x).places.getD (entrySize * item.slot) 0 = place

/-- What can be read of the directory of a frame, within the bounds. -/
def found (frame : Frame) : Directory src := v.readDirectory src b frame.cluster frame.len frame.contiguous

/-- A deleted directory that was not seen before is about to be listed, and what is read of it
holds the entry of a live file. -/
structure Trespasses (visited : Finset ℕ) (frame : Frame) : Prop where
  deleted : frame.deleted = true
  new : frame.cluster ∉ visited
  read : (found b v src frame).result = .ok ()
  live : ∃ item ∈ parseEntrySets (found b v src frame).content.bytes, item.isDir = false ∧
    LiveFile b v src ((found b v src frame).content.places.getD (entrySize * item.slot) 0)

end Live

variable {windows : Bool} {b : Build} {v : Volume} {src : Source}

/-- An item is marked at its place. -/
theorem item_place {content : Content src} {item : Item} (h : item ∈ parseEntrySets content.bytes) :
    item.deleted =
      decide (byteAt src.data (content.places.getD (entrySize * item.slot) 0) &&& inuseBit = 0) := by
  obtain ⟨hlength, hdeleted⟩ := mem_parseEntrySets h
  rw [hdeleted, content.byteAt_bytes (by unfold entrySize at hlength ⊢; omega)]

/-- The entry of a live file is not marked. -/
theorem LiveFile.unmarked {place : ℕ} (h : LiveFile b v src place) :
    byteAt src.data place &&& inuseBit ≠ 0 := by
  obtain ⟨x, limit, -, item, hitem, -, hunmarked, rfl⟩ := h
  have hdeleted := item_place hitem
  rw [hunmarked] at hdeleted
  simpa using hdeleted.symm

/-- A visit reports a live file exactly when it trespasses. -/
theorem visit_reports_iff {visited : Finset ℕ} {frame : Frame} :
    (∃ p ∈ (v.visit windows b src visited frame).reports, LiveFile b v src p.place) ↔
      Trespasses b v src visited frame := by
  constructor
  · rintro ⟨p, hp, hlive⟩
    obtain ⟨-, hnone⟩ | ⟨hnew, hread, list, hlist, -, hreports⟩ :=
      Volume.visit_lists windows b v src visited frame
    · rw [hnone] at hp
      cases hp
    · rw [hreports, hlist] at hp
      obtain ⟨item, hitem, hfile, hgone, hplace, -⟩ := Volume.mem_reports hp
      have hdeleted := item_place hitem
      rw [hplace] at hlive
      rw [decide_eq_false hlive.unmarked] at hdeleted
      rw [hdeleted, Bool.false_or] at hgone
      exact ⟨hgone, hnew, hread, item, hitem, hfile, hlive⟩
  · rintro ⟨hdeleted, hnew, hread, item, hitem, hfile, hlive⟩
    obtain ⟨p, hp, hplace⟩ := Volume.exists_report hitem hfile (by rw [hdeleted, Bool.or_true])
    refine ⟨p, ?_, hplace ▸ hlive⟩
    rw [Volume.visit_reports hnew hread]
    exact hp

/-- A walk reports no live file exactly when none of its visits trespasses. -/
theorem walk_reports_iff :
    (∀ fuel r, v.walk windows b src fuel = some r → ∀ p ∈ r.reports, ¬ LiveFile b v src p.place) ↔
      ∀ s frame rest, Reaches (body (v.visit windows b src)) (.start v.rootFrame) s →
        s.stack = frame :: rest → ¬ Trespasses b v src s.visited frame := by
  constructor
  · intro h s frame rest hreach hstack htrespass
    obtain ⟨p, hp, hlive⟩ := visit_reports_iff.mpr htrespass
    obtain ⟨fuel, r, hr⟩ := exists_walk (visit_bounded windows b v src) v.rootFrame
    exact h fuel r hr p (reports_of_visit hr hreach hstack p hp) hlive
  · intro h fuel r hr p hp hlive
    obtain ⟨s, frame, rest, hreach, hstack, hp⟩ := mem_reports hr hp
    exact h s frame rest hreach hstack (visit_reports_iff.mp ⟨p, hp, hlive⟩)

end Exfat

/-- The walks report no live file exactly when no deleted directory that they list lies over
the entry of one. -/
theorem live_files_iff (windows : Bool) (b : Build) (src : Source) :
    (∀ (identify : List UInt8 → Option Lines.Text) (v : Fat.Volume),
      (∀ fuel r, v.walk windows identify b src fuel = some r →
          ∀ p ∈ r.reports, ¬ Fat.LiveFile b v src p.place) ↔
        ∀ s frame rest, Reaches (body (v.visit windows identify b src)) (.start v.rootFrame) s →
          s.stack = frame :: rest → ¬ Fat.Trespasses b v src windows identify s.visited frame) ∧
    ∀ v : Exfat.Volume,
      (∀ fuel r, v.walk windows b src fuel = some r →
          ∀ p ∈ r.reports, ¬ Exfat.LiveFile b v src p.place) ↔
        ∀ s frame rest, Reaches (body (v.visit windows b src)) (.start v.rootFrame) s →
          s.stack = frame :: rest → ¬ Exfat.Trespasses b v src s.visited frame :=
  ⟨fun _ _ => Fat.walk_reports_iff, fun _ => Exfat.walk_reports_iff⟩

namespace Fat

/-- A slot with a name of one letter, an attribute, and a cluster. -/
def slotOf (first attr cluster : UInt8) : List UInt8 :=
  first :: List.replicate 10 0x20 ++ attr :: List.replicate 14 0 ++ [cluster, 0, 5, 0, 0, 0]

/-- The root holds a directory `A` at cluster 2 and a deleted one that was there before it,
and there is a file `F` in `A`. -/
def reusedFolder : Source where
  data := [0xEB, 0, 0, 0, 0, 0, 0, 0, 0, 0, 0, 0, 2, 1, 1, 0, 1, 16, 0, 5, 0, 0, 1, 0] ++
    List.replicate 488 0 ++ [0xF8, 0xFF, 0xFF, 0xFF, 0x0F, 0] ++ List.replicate 506 0 ++
    slotOf 0x41 0x10 2 ++ slotOf 0xE5 0x10 2 ++ List.replicate 448 0 ++
    slotOf 0x2E 0x10 2 ++ slotOf 0x46 0x20 3 ++ List.replicate 448 0 ++ List.replicate 512 0
  size_lt := by decide +kernel

/-- The file is live, and is reported because the deleted directory is visited first. -/
theorem reused_folder_reported : ∃ v, Volume.parse reusedFolder 0 = .ok v ∧
    LiveFile .release v reusedFolder 1568 ∧
    (∃ r, v.walk false (fun _ => none) .release reusedFolder 5 = some r ∧ r.reports.map (·.place) = [1568]) ∧
    ¬ ∀ fuel r, v.walk false (fun _ => none) .release reusedFolder fuel = some r →
      ∀ p ∈ r.reports, ¬ LiveFile .release v reusedFolder p.place := by
  have hrun : (Volume.parse reusedFolder 0).toOption.map (fun v =>
      ((v.walk false (fun _ => none) .release reusedFolder 5).map (·.reports.map (·.place)),
        decide (∃ e ∈ parseEntries (contents .release v reusedFolder maxDirBytes v.rootLocation).bytes,
          e.isDir = true ∧ e.deleted = false ∧ (e.name ≠ ['.'] ∧ e.name ≠ ['.', '.']) ∧ e.startCluster = 2),
        decide (∃ e ∈ parseEntries (contents .release v reusedFolder maxDirBytes (.cluster 2)).bytes,
          e.isDir = false ∧ e.deleted = false ∧
            (contents .release v reusedFolder maxDirBytes (.cluster 2)).places.getD (entrySize * e.slot) 0 =
              1568))) = some (some [1568], true, true) := by decide +kernel
  obtain ⟨v, hparse, hfields⟩ := Option.map_eq_some_iff.mp hrun
  obtain ⟨hwalk, hdir, hfile⟩ := (by simpa only [Prod.mk.injEq, decide_eq_true_eq] using hfields :
    _ ∧ _ ∧ _)
  have hlive : LiveFile .release v reusedFolder 1568 := by
    obtain ⟨e, hmem, hisDir, hunmarked, hnamed, hcluster⟩ := hdir
    have hsub := LiveDirectory.sub .root hmem hisDir hunmarked hnamed
    rw [hcluster] at hsub
    exact ⟨_, _, hsub, hfile⟩
  obtain ⟨r, hr, hplaces⟩ := Option.map_eq_some_iff.mp hwalk
  refine ⟨v, ok_of_toOption hparse, hlive, ⟨r, hr, hplaces⟩, fun h => ?_⟩
  obtain ⟨p, hp, hplace⟩ := List.mem_map.mp (hplaces ▸ List.mem_singleton_self 1568)
  exact h 5 r hr p hp (hplace ▸ hlive)

end Fat

end Unearth
