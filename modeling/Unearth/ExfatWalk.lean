import Unearth.ExfatDirectory
import Unearth.ExfatVolume
import Unearth.Lib.TreeWalk
import Unearth.OutputFolder

/-!
# The walk over the directories of an exFAT volume

A directory lies in one piece or along a chain of clusters, which its entry says, and the
walk remembers the first clusters of the directories that it has seen.
-/

namespace Unearth.Exfat
open Lines Bytes Word Loop TreeWalk

def maxDirDepth : ℕ := 64
def maxDirBytes : ℕ := 64 * 1024 * 1024

/-- What has been read of a directory, and the clusters of its chain that were read. -/
structure Directory (src : Source) where
  reads : List ℕ
  content : Content src
  result : Exec Unit

/-- A directory in one piece being read. -/
structure Piece (src : Source) where
  content : Content src
  remaining : ℕ
  pos : ℕ

/-- A directory being read along its chain. -/
structure Reading (src : Source) where
  cluster : ℕ
  guard : Finset ℕ
  reads : List ℕ
  content : Content src

def Reading.leave {src : Source} (s : Reading src) (result : Exec Unit) : Directory src :=
  ⟨s.reads, s.content, result⟩

namespace Volume

section Chain

variable (v : Volume) (src : Source) (limit clusterBytes : ℕ)

/-- The cluster after another one. -/
def nextCluster (cluster : ℕ) : Exec (Option ℕ) := do
  let off := satAdd (satAdd v.offset (satMul v.fatOffsetSectors v.bytesPerSector)) (cluster * 4)
  let entry ← src.readAt off 4
  if entry.length < 4 then return none
  else
    let value := le entry
    if value < 2 ∨ v.maxValidCluster < value ∨ value = 0xFFFFFFF7 ∨ value = 0xFFFFFFFF then return none
    else return some value

def pieceBody (s : Piece src) : Ctl (Piece src) (Directory src) :=
  if s.remaining = 0 ∨ limit ≤ s.content.length then .done ⟨[], s.content, .ok ()⟩
  else
    let want := min s.remaining clusterBytes
    if 2 ^ 63 ≤ want then .done ⟨[], s.content, .error .capacity⟩
    else
      match Content.read src s.pos want with
      | .error e => .done ⟨[], s.content, .error e⟩
      | .ok chunk =>
        if chunk.length = 0 then .done ⟨[], s.content, .ok ()⟩
        -- What was read ends in the source, so that the position is an offset in it.
        else .next ⟨s.content.append chunk, s.remaining - chunk.length, s.pos + chunk.length⟩

def chainBody (len : Option ℕ) (s : Reading src) : Ctl (Reading src) (Directory src) :=
  if s.cluster < 2 ∨ v.maxValidCluster < s.cluster ∨ s.cluster ∈ s.guard then .done (s.leave (.ok ()))
  else
    let s := { s with guard := insert s.cluster s.guard }
    if limit < s.content.length + clusterBytes then .done (s.leave (.ok ()))
    else
      let s := { s with reads := s.reads ++ [s.cluster] }
      match Content.read src (v.clusterOffset s.cluster) clusterBytes with
      | .error e => .done (s.leave (.error e))
      | .ok chunk =>
        let s := { s with content := s.content.append chunk }
        if len.any (· ≤ s.content.length) then
          .done (Reading.leave { s with content := s.content.take (len.getD 0) } (.ok ()))
        else
          match v.nextCluster src s.cluster with
          | .error e => .done (s.leave (.error e))
          | .ok none => .done (s.leave (.ok ()))
          | .ok (some next) => .next { s with cluster := next }

end Chain

section Links

variable {v : Volume} {src : Source} {limit clusterBytes : ℕ} {len : Option ℕ} {s s' : Reading src}
  {d : Directory src}

/-- The cluster of a link is one of the volume that the guard has not seen. -/
structure Linked (v : Volume) (s : Reading src) : Prop where
  high : s.cluster < v.maxValidCluster + 1
  new : s.cluster ∉ s.guard

theorem chainBody_next (h : v.chainBody src limit clusterBytes len s = .next s') :
    v.Linked s ∧ s'.guard = insert s.cluster s.guard ∧ s'.reads = s.reads ++ [s.cluster] := by
  unfold chainBody at h
  split at h
  · cases h
  · rename_i hcluster
    simp only [not_or, not_lt] at hcluster
    dsimp only at h
    split at h
    · cases h
    · split at h
      · cases h
      · split at h
        · cases h
        · split at h
          · cases h
          · cases h
          · cases h
            exact ⟨⟨Nat.lt_succ_of_le hcluster.2.1, hcluster.2.2⟩, rfl, rfl⟩

/-- A chain is left where it was, or after its last cluster was read. -/
theorem chainBody_done (h : v.chainBody src limit clusterBytes len s = .done d) :
    d.reads = s.reads ∨ (v.Linked s ∧ d.reads = s.reads ++ [s.cluster]) := by
  unfold chainBody at h
  split at h
  · cases h
    exact .inl rfl
  · rename_i hcluster
    simp only [not_or, not_lt] at hcluster
    have hlinked : v.Linked s := ⟨Nat.lt_succ_of_le hcluster.2.1, hcluster.2.2⟩
    dsimp only at h
    split at h
    · cases h
      exact .inl rfl
    · split at h
      · cases h
        exact .inr ⟨hlinked, rfl⟩
      · split at h
        · cases h
          exact .inr ⟨hlinked, rfl⟩
        · split at h
          · cases h
            exact .inr ⟨hlinked, rfl⟩
          · cases h
            exact .inr ⟨hlinked, rfl⟩
          · cases h

end Links

section Directory

variable (v : Volume) (src : Source) (limit clusterBytes : ℕ)

/-- Every further read of a piece delivers some of what remains. -/
def piece : While (Piece src) (Directory src) where
  body := pieceBody src limit clusterBytes
  measure s := s.remaining
  decreases s s' h := by
    unfold pieceBody at h
    split at h
    · cases h
    · dsimp only at h
      split at h
      · cases h
      · split at h
        · cases h
        · split at h
          · cases h
          · cases h
            dsimp only
            omega

/-- The chain of a directory ends because its clusters are new ones of the volume. -/
def chain (len : Option ℕ) : While (Reading src) (Directory src) where
  body := v.chainBody src limit clusterBytes len
  measure s := (Finset.range (v.maxValidCluster + 1) \ s.guard).card
  decreases s s' h := by
    obtain ⟨⟨hhigh, hnew⟩, hguard, -⟩ := chainBody_next h
    rw [hguard]
    apply Finset.card_lt_card
    refine ⟨Finset.sdiff_subset_sdiff (Finset.Subset.refl _) (Finset.subset_insert _ _), fun hback => ?_⟩
    have hmem := hback (Finset.mem_sdiff.mpr ⟨Finset.mem_range.mpr hhigh, hnew⟩)
    exact (Finset.mem_sdiff.mp hmem).2 (Finset.mem_insert_self _ _)

/-- A directory of at most `limit` bytes, or one cluster more. -/
def readUpTo (b : Build) (firstCluster : ℕ) (len : Option ℕ) (contiguous : Bool) : Directory src :=
  match v.clusterBytes b with
  | .error e => ⟨[], .empty src, .error e⟩
  | .ok clusterBytes =>
    if contiguous then
      (piece src limit clusterBytes).eval
        ⟨.empty src, len.getD clusterBytes, v.clusterOffset firstCluster⟩
    else (v.chain src limit clusterBytes len).eval ⟨firstCluster, ∅, [], .empty src⟩

def readDirectory (b : Build) (firstCluster : ℕ) (len : Option ℕ) (contiguous : Bool) : Directory src :=
  v.readUpTo src maxDirBytes b firstCluster len contiguous

end Directory

end Volume

structure DeletedFile where
  path : Path
  firstCluster : ℕ
  dataLength : ℕ
  noFatChain : Bool
  mtime : Option SystemTime
  atime : Option SystemTime
  deriving DecidableEq

/-- A deleted file, with the place of its first entry in the source. -/
structure Report where
  place : ℕ
  file : DeletedFile
  deriving DecidableEq

/-- A directory to be walked: where it is, its path and depth, and whether it is deleted. -/
structure Frame where
  cluster : ℕ
  len : Option ℕ
  contiguous : Bool
  path : Path
  depth : ℕ
  deleted : Bool

/-- What the entries of a directory lead to. -/
structure Listing where
  pushed : List Frame
  reports : List Report

namespace Volume

section Walk

variable (windows : Bool) (b : Build) (v : Volume) (src : Source)

def listItems (visited : Finset ℕ) (frame : Frame) (places : List ℕ) : List Item → Listing
  | [] => ⟨[], []⟩
  | item :: rest =>
    let gone := item.deleted || frame.deleted
    let path := frame.path ++ [sanitizeComponent windows item.name]
    let list := listItems visited frame places rest
    if item.isDir then
      if frame.depth < maxDirDepth ∧ 2 ≤ item.firstCluster ∧ item.firstCluster ≤ v.maxValidCluster ∧
          item.firstCluster ∉ visited then
        { list with pushed := ⟨item.firstCluster, some item.dataLength, item.noFatChain, path,
            frame.depth + 1, gone⟩ :: list.pushed }
      else list
    else if gone then
      let file := ⟨path, item.firstCluster, item.dataLength, item.noFatChain, item.mtime, item.atime⟩
      { list with reports := ⟨places.getD (entrySize * item.slot) 0, file⟩ :: list.reports }
    else list

def visit (visited : Finset ℕ) (frame : Frame) : VisitResult Frame Report Fault :=
  if frame.cluster ∈ visited then ⟨visited, [], [], [], none⟩
  else
    let visited := insert frame.cluster visited
    let dir := v.readDirectory src b frame.cluster frame.len frame.contiguous
    match dir.result with
    -- A directory that cannot be read is left out; anything else that goes wrong is the end.
    | .error .io => ⟨visited, [frame.cluster], [], [], none⟩
    | .error e => ⟨visited, [frame.cluster], [], [], some e⟩
    | .ok () =>
      let list := v.listItems windows visited frame dir.content.places (parseEntrySets dir.content.bytes)
      ⟨visited, [frame.cluster], list.pushed, list.reports, none⟩

def rootFrame : Frame := ⟨v.rootCluster, none, false, [], 0, false⟩

/-- At most `fuel` directories of the volume, the root first. -/
def walk (fuel : ℕ) : Option (WalkResult Report Fault) :=
  TreeWalk.walk (v.visit windows b src) fuel v.rootFrame

end Walk

section Listed

variable {windows : Bool} {v : Volume} {visited : Finset ℕ} {frame : Frame} {places : List ℕ}
  {items : List Item}

/-- A directory that is pushed is a new one of the volume, one level below. -/
theorem mem_pushed {g : Frame} (h : g ∈ (v.listItems windows visited frame places items).pushed) :
    frame.depth < maxDirDepth ∧ g.cluster < v.maxValidCluster + 1 ∧ ∃ item ∈ items,
      g.path = frame.path ++ [sanitizeComponent windows item.name] ∧ g.depth = frame.depth + 1 := by
  induction items with
  | nil => cases h
  | cons item rest ih =>
    have hlater : g ∈ (v.listItems windows visited frame places rest).pushed →
        frame.depth < maxDirDepth ∧ g.cluster < v.maxValidCluster + 1 ∧ ∃ e ∈ item :: rest,
          g.path = frame.path ++ [sanitizeComponent windows e.name] ∧ g.depth = frame.depth + 1 := by
      intro hmem
      obtain ⟨hdepth, hcluster, e, he, hframe⟩ := ih hmem
      exact ⟨hdepth, hcluster, e, List.mem_cons_of_mem _ he, hframe⟩
    unfold listItems at h
    dsimp only at h
    split at h
    · split at h
      · rename_i hdescend
        rcases List.mem_cons.mp h with rfl | h
        · exact ⟨hdescend.1, Nat.lt_succ_of_le hdescend.2.2.1, item, List.mem_cons_self .., rfl, rfl⟩
        · exact hlater h
      · exact hlater h
    · split at h
      · exact hlater h
      · exact hlater h

/-- A file that is reported is deleted, or in a deleted directory. -/
theorem mem_reports {p : Report} (h : p ∈ (v.listItems windows visited frame places items).reports) :
    ∃ item ∈ items, item.isDir = false ∧ (item.deleted || frame.deleted) = true ∧
      p.place = places.getD (entrySize * item.slot) 0 ∧
      p.file.path = frame.path ++ [sanitizeComponent windows item.name] := by
  induction items with
  | nil => cases h
  | cons item rest ih =>
    have hlater : p ∈ (v.listItems windows visited frame places rest).reports →
        ∃ e ∈ item :: rest, e.isDir = false ∧ (e.deleted || frame.deleted) = true ∧
          p.place = places.getD (entrySize * e.slot) 0 ∧
          p.file.path = frame.path ++ [sanitizeComponent windows e.name] := by
      intro hmem
      obtain ⟨e, he, hreport⟩ := ih hmem
      exact ⟨e, List.mem_cons_of_mem _ he, hreport⟩
    unfold listItems at h
    dsimp only at h
    split at h
    · split at h
      · exact hlater h
      · exact hlater h
    · rename_i hfile
      split at h
      · rename_i hgone
        rcases List.mem_cons.mp h with rfl | h
        · exact ⟨item, List.mem_cons_self .., by simpa using hfile, hgone, rfl, rfl⟩
        · exact hlater h
      · exact hlater h

/-- A file that is deleted, or in a deleted directory, is reported. -/
theorem exists_report {item : Item} (hitem : item ∈ items) (hfile : item.isDir = false)
    (hgone : (item.deleted || frame.deleted) = true) :
    ∃ p ∈ (v.listItems windows visited frame places items).reports,
      p.place = places.getD (entrySize * item.slot) 0 := by
  induction items with
  | nil => cases hitem
  | cons first rest ih =>
    unfold listItems
    dsimp only
    rcases List.mem_cons.mp hitem with rfl | hitem
    · simp only [hfile, Bool.false_eq_true, if_false, hgone, if_true]
      exact ⟨_, List.mem_cons_self .., rfl⟩
    · obtain ⟨p, hp, hplace⟩ := ih hitem
      refine ⟨p, ?_, hplace⟩
      split
      · split <;> exact hp
      · split
        · exact List.mem_cons_of_mem _ hp
        · exact hp

/-- A visit takes the first cluster of its directory, unless that was seen before. -/
theorem visit_reads (windows : Bool) (b : Build) (v : Volume) (src : Source) (visited : Finset ℕ)
    (frame : Frame) :
    (frame.cluster ∈ visited ∧ (v.visit windows b src visited frame).visited = visited ∧
      (v.visit windows b src visited frame).reads = []) ∨
    (frame.cluster ∉ visited ∧
      (v.visit windows b src visited frame).visited = insert frame.cluster visited ∧
      (v.visit windows b src visited frame).reads = [frame.cluster]) := by
  unfold visit
  split
  · rename_i hseen
    exact .inl ⟨hseen, rfl, rfl⟩
  · rename_i hnew
    right
    dsimp only
    split <;> exact ⟨hnew, rfl, rfl⟩

/-- A visit leads nowhere, or lists a directory that was not seen before and has been read. -/
theorem visit_lists (windows : Bool) (b : Build) (v : Volume) (src : Source) (visited : Finset ℕ)
    (frame : Frame) :
    ((v.visit windows b src visited frame).pushed = [] ∧
      (v.visit windows b src visited frame).reports = []) ∨
    (frame.cluster ∉ visited ∧
      (v.readDirectory src b frame.cluster frame.len frame.contiguous).result = .ok () ∧
      ∃ list, list = v.listItems windows (insert frame.cluster visited) frame
          (v.readDirectory src b frame.cluster frame.len frame.contiguous).content.places
          (parseEntrySets (v.readDirectory src b frame.cluster frame.len frame.contiguous).content.bytes) ∧
        (v.visit windows b src visited frame).pushed = list.pushed ∧
        (v.visit windows b src visited frame).reports = list.reports) := by
  unfold visit
  split
  · exact .inl ⟨rfl, rfl⟩
  · rename_i hnew
    dsimp only
    split
    · exact .inl ⟨rfl, rfl⟩
    · exact .inl ⟨rfl, rfl⟩
    · rename_i hresult
      exact .inr ⟨hnew, hresult, _, rfl, rfl, rfl⟩

theorem visit_reports {b : Build} {src : Source} (hnew : frame.cluster ∉ visited)
    (hread : (v.readDirectory src b frame.cluster frame.len frame.contiguous).result = .ok ()) :
    (v.visit windows b src visited frame).reports =
      (v.listItems windows (insert frame.cluster visited) frame
        (v.readDirectory src b frame.cluster frame.len frame.contiguous).content.places
        (parseEntrySets
          (v.readDirectory src b frame.cluster frame.len frame.contiguous).content.bytes)).reports := by
  unfold visit
  rw [if_neg hnew]
  dsimp only
  rw [hread]

end Listed

end Volume

end Unearth.Exfat
