import Unearth.FatDirectory
import Unearth.FatVolume
import Unearth.Lib.TreeWalk
import Unearth.OutputFolder

/-!
# The walk over the directories of a FAT volume

The clusters of a directory are read along their chain, as long as they were not read
before. Deleted directories are walked like the others, and everything in them counts as
deleted.
-/

namespace Unearth.Fat
open Lines Bytes Word Loop TreeWalk

def maxDirDepth : ℕ := 64
def maxDirBytes : ℕ := 64 * 1024 * 1024

namespace Volume

section Chain

variable (b : Build) (v : Volume) (src : Source)

def fatBase : Exec ℕ := do plus b v.offset (← times b v.reservedSectors v.bytesPerSector)

/-- A value of the table as the cluster that it names, if it names one. -/
def named (value eoc : ℕ) : Exec (Option ℕ) :=
  if eoc ≤ value ∨ value < 2 then return none
  else do
    if (← v.maxValidCluster b) < value then return none
    else return some value

/-- The cluster after another one. -/
def nextCluster (cluster : ℕ) : Exec (Option ℕ) := do
  let base ← v.fatBase b
  match v.fatType with
  | .fat32 =>
    let entry ← src.readAt (← plus b base (cluster * 4)) 4
    if entry.length < 4 then return none else v.named b (le entry % 2 ^ 28) 0x0FFFFFF8
  | .fat16 =>
    let entry ← src.readAt (← plus b base (cluster * 2)) 2
    if entry.length < 2 then return none else v.named b (le entry) 0xFFF8
  | .fat12 =>
    let entry ← src.readAt (← plus b base (cluster * 3 / 2)) 2
    if entry.length < 2 then return none
    else v.named b (if cluster % 2 = 0 then le entry % 2 ^ 12 else le entry / 2 ^ 4) 0xFF8

end Chain

end Volume

inductive DirLoc
  | rootRegion
  | cluster (c : ℕ)
  deriving DecidableEq

/-- A directory being read. -/
structure Reading (src : Source) where
  cluster : ℕ
  visited : Finset ℕ
  reads : List ℕ
  content : Content src

/-- What has been read of a directory, and the clusters that were visited and read for it. -/
structure Directory (src : Source) where
  visited : Finset ℕ
  reads : List ℕ
  content : Content src
  result : Exec Unit

def Reading.leave {src : Source} (s : Reading src) (result : Exec Unit) : Directory src :=
  ⟨s.visited, s.reads, s.content, result⟩

namespace Volume

section Directory

variable (b : Build) (v : Volume) (src : Source) (limit : ℕ)

def readCluster (cluster : ℕ) : Exec (Content src) := do
  Content.read src (← v.clusterOffset b cluster) v.clusterBytes

def chainBody (s : Reading src) : Ctl (Reading src) (Directory src) :=
  if s.cluster < 2 then .done (s.leave (.ok ()))
  else
    match v.maxValidCluster b with
    | .error e => .done (s.leave (.error e))
    | .ok max =>
      if max < s.cluster then .done (s.leave (.ok ()))
      else if s.cluster ∈ s.visited then .done (s.leave (.ok ()))
      else
        let s := { s with visited := insert s.cluster s.visited }
        if limit < s.content.length + v.clusterBytes then .done (s.leave (.ok ()))
        else
          let s := { s with reads := s.reads ++ [s.cluster] }
          match v.readCluster b src s.cluster with
          | .error e => .done (s.leave (.error e))
          | .ok chunk =>
            let s := { s with content := s.content.append chunk }
            match v.nextCluster b src s.cluster with
            | .error e => .done (s.leave (.error e))
            | .ok none => .done (s.leave (.ok ()))
            | .ok (some next) => .next { s with cluster := next }

end Directory

section Links

variable {b : Build} {v : Volume} {src : Source} {limit : ℕ} {s s' : Reading src} {d : Directory src}

theorem maxValidCluster_le {max : ℕ} (h : v.maxValidCluster b = .ok max) : max ≤ v.countOfClusters + 1 := by
  unfold maxValidCluster plus32 at h
  split_ifs at h
  · cases h
    exact le_rfl
  · cases b with
    | debug => cases h
    | release =>
      cases h
      exact Nat.mod_le _ _

/-- The cluster of a link is one of the volume that was not visited before. -/
structure Linked (v : Volume) (s : Reading src) : Prop where
  high : s.cluster < v.countOfClusters + 2
  new : s.cluster ∉ s.visited

theorem chainBody_next (h : v.chainBody b src limit s = .next s') :
    v.Linked s ∧ s'.visited = insert s.cluster s.visited ∧ s'.reads = s.reads ++ [s.cluster] := by
  unfold chainBody at h
  split at h
  · cases h
  · split at h
    · cases h
    · rename_i max hmax
      have hle := maxValidCluster_le hmax
      split at h
      · cases h
      · split at h
        · cases h
        · rename_i hhigh hnew
          dsimp only at h
          split at h
          · cases h
          · split at h
            · cases h
            · split at h
              · cases h
              · cases h
              · cases h
                exact ⟨⟨by omega, hnew⟩, rfl, rfl⟩

/-- A chain is left where it was, or after its last cluster was visited and perhaps read. -/
theorem chainBody_done (h : v.chainBody b src limit s = .done d) :
    (d.visited = s.visited ∧ d.reads = s.reads ∧ d.content = s.content) ∨
    (v.Linked s ∧ d.visited = insert s.cluster s.visited ∧
      ((d.reads = s.reads ∧ d.content = s.content) ∨ d.reads = s.reads ++ [s.cluster])) := by
  unfold chainBody at h
  split at h
  · cases h
    exact .inl ⟨rfl, rfl, rfl⟩
  · split at h
    · cases h
      exact .inl ⟨rfl, rfl, rfl⟩
    · rename_i max hmax
      have hle := maxValidCluster_le hmax
      split at h
      · cases h
        exact .inl ⟨rfl, rfl, rfl⟩
      · split at h
        · cases h
          exact .inl ⟨rfl, rfl, rfl⟩
        · rename_i hhigh hnew
          have hlinked : v.Linked s := ⟨by omega, hnew⟩
          dsimp only at h
          split at h
          · cases h
            exact .inr ⟨hlinked, rfl, .inl ⟨rfl, rfl⟩⟩
          · split at h
            · cases h
              exact .inr ⟨hlinked, rfl, .inr rfl⟩
            · split at h
              · cases h
                exact .inr ⟨hlinked, rfl, .inr rfl⟩
              · cases h
                exact .inr ⟨hlinked, rfl, .inr rfl⟩
              · cases h

end Links

section Directory

variable (b : Build) (v : Volume) (src : Source) (limit : ℕ)

/-- The chain of a directory ends because its clusters are new ones of the volume. -/
def chain : While (Reading src) (Directory src) where
  body := v.chainBody b src limit
  measure s := (Finset.range (v.countOfClusters + 2) \ s.visited).card
  decreases s s' h := by
    obtain ⟨⟨hhigh, hnew⟩, hvisited, -⟩ := chainBody_next h
    rw [hvisited]
    apply Finset.card_lt_card
    refine ⟨Finset.sdiff_subset_sdiff (Finset.Subset.refl _) (Finset.subset_insert _ _), fun hback => ?_⟩
    have hmem := hback (Finset.mem_sdiff.mpr ⟨Finset.mem_range.mpr hhigh, hnew⟩)
    exact (Finset.mem_sdiff.mp hmem).2 (Finset.mem_insert_self _ _)

/-- A directory of at most `limit` bytes. The region of the root is no chain of clusters. -/
def readUpTo (loc : DirLoc) (visited : Finset ℕ) : Directory src :=
  match loc with
  | .rootRegion =>
    let read : Exec (Content src) := do
      let off ← plus b v.offset (← times b v.firstRootDirSector v.bytesPerSector)
      Content.read src off (v.rootDirSectors * v.bytesPerSector)
    match read with
    | .error e => ⟨visited, [], .empty src, .error e⟩
    | .ok content => ⟨visited, [], content, .ok ()⟩
  | .cluster start => (v.chain b src limit).eval ⟨start, visited, [], .empty src⟩

def readDirectory (loc : DirLoc) (visited : Finset ℕ) : Directory src :=
  v.readUpTo b src maxDirBytes loc visited

def rootLocation : DirLoc :=
  match v.fatType with
  | .fat32 => .cluster v.rootCluster
  | _ => .rootRegion

end Directory

section Resolve

variable (b : Build) (v : Volume) (src : Source)

def fat32Entry (cluster : ℕ) : Exec (Option ℕ) := do
  let entry ← src.readAt (← plus b (← v.fatBase b) (cluster * 4)) 4
  if entry.length < 4 then return none else return some (le entry % 2 ^ 28)

/-- The first candidate whose directory names itself as that cluster. -/
def ownDirectory : List ℕ → Exec (Option ℕ)
  | [] => return none
  | c :: rest => do
    let head ← src.readAt (← v.clusterOffset b c) entrySize
    if head.length = entrySize && startsWithDotEntry head &&
        le (window head 20 2) * 2 ^ 16 + le (window head 26 2) = c then
      return some c
    else ownDirectory rest

/-- The free clusters from `c + run` on, `fuel` of them at most. -/
def freeRun (max c : ℕ) : ℕ → ℕ → Exec ℕ
  | 0, run => return run
  | fuel + 1, run => do
    if c + run < 2 ^ 32 ∧ c + run ≤ max then
      if (← v.fat32Entry b src (c + run)) = some 0 then freeRun max c fuel (run + 1)
      else return run
    else return run

/-- The candidate with the longest run of free clusters, and among these the nearest one. -/
def bestCandidate (max needed parent : ℕ) : List ℕ → Option ((ℕ × ℕ) × ℕ) → Exec (Option ℕ)
  | [], best => return best.map (·.2)
  | c :: rest, best => do
    let run ← v.freeRun b src max c needed 0
    let far := c - parent + (parent - c)
    match best with
    | some ((run', far'), c') =>
      if run' < run ∨ (run' = run ∧ far < far') then bestCandidate max needed parent rest (some ((run, far), c))
      else bestCandidate max needed parent rest (some ((run', far'), c'))
    | none => bestCandidate max needed parent rest (some ((run, far), c))

/-- The start of a deleted entry. The upper half of it is lost on volumes that need it, and
`identify` knows the types of files by their first bytes. -/
def resolveStartCluster (identify : List UInt8 → Option Text) (entry : ParsedEntry) (parent : ℕ) : Exec ℕ := do
  let lo := entry.startCluster
  let max ← v.maxValidCluster b
  if v.fatType ≠ .fat32 ∨ max ≤ 0xFFFF ∨ lo / 2 ^ 16 ≠ 0 ∨ lo < 2 then return lo
  else
    let candidates ← ((List.range (max / 2 ^ 16 + 1)).map fun hi => lo + hi * 2 ^ 16).filterM fun c => do
      if c ≤ max then return decide ((← v.fat32Entry b src c) = some 0) else return false
    if candidates.length ≤ 1 then return candidates.headD lo
    else if entry.isDir then return (← v.ownDirectory b src candidates).getD lo
    else
      let ext := if '.' ∈ entry.name then asciiLowercase (entry.name.reverse.takeWhile (· ≠ '.')).reverse else []
      let typed ← candidates.filterM fun c => do
        let head ← src.readAt (← v.clusterOffset b c) (min v.clusterBytes 4096)
        return (identify head).any fun found => ext ≠ [] && asciiLowercase found = ext
      if typed.length = 1 then return typed.headD lo
      else
        let pool := if typed = [] then candidates else typed
        let needed := min (Max.max (divCeil entry.size v.clusterBytes) 1) 4096
        return (← v.bestCandidate b src max needed parent pool none).getD lo

end Resolve

end Volume

structure DeletedFile where
  path : Path
  startCluster : ℕ
  size : ℕ
  mtime : Option SystemTime
  atime : Option SystemTime
  deriving DecidableEq

/-- A deleted file, with the place of its entry in the source. -/
structure Report where
  place : ℕ
  file : DeletedFile
  deriving DecidableEq

/-- A directory to be walked: where it is, its path and depth, and whether it is deleted. -/
structure Frame where
  loc : DirLoc
  cluster : ℕ
  path : Path
  depth : ℕ
  deleted : Bool

/-- What the entries of a directory lead to. -/
structure Listing where
  pushed : List Frame
  reports : List Report
  error : Option Fault

namespace Volume

section Walk

variable (windows : Bool) (identify : List UInt8 → Option Text) (b : Build) (v : Volume) (src : Source)

/-- Whether an entry for a directory is followed. -/
def descends (visited : Finset ℕ) (depth start : ℕ) : Exec Bool := do
  if depth < maxDirDepth ∧ 2 ≤ start then
    return decide (start ≤ (← v.maxValidCluster b) ∧ start ∉ visited)
  else return false

/-- What one entry leads to. -/
def listEntry (visited : Finset ℕ) (frame : Frame) (places : List ℕ) (entry : ParsedEntry) : Listing :=
  if entry.isDir && (entry.name = ['.'] || entry.name = ['.', '.']) then ⟨[], [], none⟩
  else
    let gone := entry.deleted || frame.deleted
    let path := frame.path ++ [sanitizeComponent windows entry.name]
    let resolved : Exec ℕ :=
      if entry.deleted then v.resolveStartCluster b src identify entry frame.cluster
      else return entry.startCluster
    match resolved with
    | .error e => ⟨[], [], some e⟩
    | .ok start =>
      if entry.isDir then
        match v.descends b visited frame.depth start with
        | .error e => ⟨[], [], some e⟩
        | .ok true => ⟨[⟨.cluster start, start, path, frame.depth + 1, gone⟩], [], none⟩
        | .ok false => ⟨[], [], none⟩
      else if gone then
        let file := ⟨path, start, entry.size, entry.mtime, entry.atime⟩
        ⟨[], [⟨places.getD (entrySize * entry.slot) 0, file⟩], none⟩
      else ⟨[], [], none⟩

/-- What the entries of a directory lead to, up to one that ends the walk. -/
def listEntries (visited : Finset ℕ) (frame : Frame) (places : List ℕ) : List ParsedEntry → Listing
  | [] => ⟨[], [], none⟩
  | entry :: rest =>
    let one := v.listEntry windows identify b src visited frame places entry
    match one.error with
    | some _ => one
    | none =>
      let list := listEntries visited frame places rest
      ⟨one.pushed ++ list.pushed, one.reports ++ list.reports, list.error⟩

def visit (visited : Finset ℕ) (frame : Frame) : VisitResult Frame Report Fault :=
  let dir := v.readDirectory b src frame.loc visited
  match dir.result with
  -- A directory that cannot be read is left out; anything else that goes wrong is the end.
  | .error .io => ⟨dir.visited, dir.reads, [], [], none⟩
  | .error e => ⟨dir.visited, dir.reads, [], [], some e⟩
  | .ok () =>
    if frame.deleted && !startsWithDotEntry dir.content.bytes then ⟨dir.visited, dir.reads, [], [], none⟩
    else
      let list := v.listEntries windows identify b src dir.visited frame dir.content.places
        (parseEntries dir.content.bytes)
      ⟨dir.visited, dir.reads, list.pushed, list.reports, list.error⟩

def rootFrame : Frame where
  loc := v.rootLocation
  cluster := match v.rootLocation with
    | .cluster c => c
    | .rootRegion => 0
  path := []
  depth := 0
  deleted := false

/-- At most `fuel` directories of the volume, the root first. -/
def walk (fuel : ℕ) : Option (WalkResult Report Fault) :=
  TreeWalk.walk (v.visit windows identify b src) fuel v.rootFrame

end Walk

section Listed

variable {windows : Bool} {identify : List UInt8 → Option Text} {b : Build} {v : Volume} {src : Source}
  {visited : Finset ℕ} {frame : Frame}

theorem descends_depth {depth start : ℕ} (h : v.descends b visited depth start = .ok true) :
    depth < maxDirDepth := by
  unfold descends at h
  split at h
  · rename_i hdepth
    exact hdepth.1
  · cases h

theorem listEntry_pushed {places : List ℕ} {entry : ParsedEntry} {g : Frame}
    (h : g ∈ (v.listEntry windows identify b src visited frame places entry).pushed) :
    frame.depth < maxDirDepth ∧ ∃ start, g.loc = .cluster start ∧
      g.path = frame.path ++ [sanitizeComponent windows entry.name] ∧ g.depth = frame.depth + 1 := by
  unfold listEntry at h
  dsimp only at h
  split at h
  · cases h
  · split at h
    · cases h
    · split at h
      · split at h
        · cases h
        · rename_i hdescends
          cases List.mem_singleton.mp h
          exact ⟨descends_depth hdescends, _, rfl, rfl, rfl⟩
        · cases h
      · split at h <;> cases h

theorem listEntry_reports {places : List ℕ} {entry : ParsedEntry} {p : Report}
    (h : p ∈ (v.listEntry windows identify b src visited frame places entry).reports) :
    entry.isDir = false ∧ (entry.deleted || frame.deleted) = true ∧
      p.place = places.getD (entrySize * entry.slot) 0 ∧
      p.file.path = frame.path ++ [sanitizeComponent windows entry.name] := by
  unfold listEntry at h
  dsimp only at h
  split at h
  · cases h
  · split at h
    · cases h
    · split at h
      · split at h <;> cases h
      · rename_i hfile
        split at h
        · rename_i hgone
          cases List.mem_singleton.mp h
          exact ⟨by simpa using hfile, hgone, rfl, rfl⟩
        · cases h

/-- A file that is deleted, or in a deleted directory, is reported unless the walk ends there. -/
theorem exists_report {places : List ℕ} {entry : ParsedEntry}
    (herror : (v.listEntry windows identify b src visited frame places entry).error = none)
    (hfile : entry.isDir = false) (hgone : (entry.deleted || frame.deleted) = true) :
    ∃ p ∈ (v.listEntry windows identify b src visited frame places entry).reports,
      p.place = places.getD (entrySize * entry.slot) 0 := by
  unfold listEntry at herror ⊢
  dsimp only at herror ⊢
  rw [hfile, Bool.false_and] at herror ⊢
  simp only [Bool.false_eq_true, if_false, hgone, if_true] at herror ⊢
  split
  · rename_i hresolved
    rw [hresolved] at herror
    cases herror
  · exact ⟨_, List.mem_singleton_self _, rfl⟩

/-- A directory that is pushed is one level below, with a component more. -/
theorem mem_pushed {places : List ℕ} {entries : List ParsedEntry} {g : Frame}
    (h : g ∈ (v.listEntries windows identify b src visited frame places entries).pushed) :
    ∃ entry ∈ entries, g ∈ (v.listEntry windows identify b src visited frame places entry).pushed := by
  induction entries with
  | nil => cases h
  | cons entry rest ih =>
    unfold listEntries at h
    dsimp only at h
    split at h
    · exact ⟨entry, List.mem_cons_self .., h⟩
    · rcases List.mem_append.mp h with h | h
      · exact ⟨entry, List.mem_cons_self .., h⟩
      · obtain ⟨e, he, hpushed⟩ := ih h
        exact ⟨e, List.mem_cons_of_mem _ he, hpushed⟩

/-- The entries that are gone through before the walk ends, if it does. -/
def listed (windows : Bool) (identify : List UInt8 → Option Text) (b : Build) (v : Volume) (src : Source)
    (visited : Finset ℕ) (frame : Frame) (places : List ℕ) (entries : List ParsedEntry) : List ParsedEntry :=
  entries.takeWhile fun entry => (v.listEntry windows identify b src visited frame places entry).error = none

theorem mem_listed {places : List ℕ} {entries : List ParsedEntry} {entry : ParsedEntry}
    (h : entry ∈ v.listed windows identify b src visited frame places entries) : entry ∈ entries ∧
      (v.listEntry windows identify b src visited frame places entry).error = none := by
  unfold listed at h
  exact ⟨List.takeWhile_subset _ h, by simpa using List.mem_takeWhile_imp h⟩

theorem listEntry_error {places : List ℕ} {entry : ParsedEntry} {e : Fault}
    (h : (v.listEntry windows identify b src visited frame places entry).error = some e) :
    (v.listEntry windows identify b src visited frame places entry).reports = [] := by
  unfold listEntry at h ⊢
  dsimp only at h ⊢
  split
  · rfl
  · rename_i hdot
    rw [if_neg hdot] at h
    split
    · rfl
    · rename_i start hresolved
      rw [hresolved] at h
      dsimp only at h
      split
      · split <;> rfl
      · rename_i hfile
        rw [if_neg hfile] at h
        split at h <;> cases h

theorem mem_reports {places : List ℕ} {entries : List ParsedEntry} {p : Report} :
    p ∈ (v.listEntries windows identify b src visited frame places entries).reports ↔
      ∃ entry ∈ v.listed windows identify b src visited frame places entries,
        p ∈ (v.listEntry windows identify b src visited frame places entry).reports := by
  induction entries with
  | nil => exact ⟨nofun, nofun⟩
  | cons entry rest ih =>
    unfold listEntries listed
    dsimp only
    rw [List.takeWhile_cons]
    cases herror : (v.listEntry windows identify b src visited frame places entry).error with
    | some e =>
      dsimp only
      rw [listEntry_error herror]
      simp
    | none =>
      simp only [decide_true, if_true, List.mem_append, List.mem_cons, exists_eq_or_imp]
      exact or_congr Iff.rfl ih

/-- A visit visits and reads what its directory takes. -/
theorem visit_reads : (v.visit windows identify b src visited frame).visited =
      (v.readDirectory b src frame.loc visited).visited ∧
    (v.visit windows identify b src visited frame).reads =
      (v.readDirectory b src frame.loc visited).reads := by
  unfold visit
  dsimp only
  split
  · exact ⟨rfl, rfl⟩
  · exact ⟨rfl, rfl⟩
  · split <;> exact ⟨rfl, rfl⟩

/-- A visit leads nowhere, or lists a directory that has been read, and that begins with the
entry for itself when it is deleted. -/
theorem visit_lists (windows : Bool) (identify : List UInt8 → Option Text) (b : Build) (v : Volume)
    (src : Source) (visited : Finset ℕ) (frame : Frame) :
    ((v.visit windows identify b src visited frame).pushed = [] ∧
      (v.visit windows identify b src visited frame).reports = []) ∨
    ((v.readDirectory b src frame.loc visited).result = .ok () ∧
      (frame.deleted = true →
        startsWithDotEntry (v.readDirectory b src frame.loc visited).content.bytes = true) ∧
      ∃ list, list = v.listEntries windows identify b src (v.readDirectory b src frame.loc visited).visited
          frame (v.readDirectory b src frame.loc visited).content.places
          (parseEntries (v.readDirectory b src frame.loc visited).content.bytes) ∧
        (v.visit windows identify b src visited frame).pushed = list.pushed ∧
        (v.visit windows identify b src visited frame).reports = list.reports) := by
  unfold visit
  dsimp only
  split
  · exact .inl ⟨rfl, rfl⟩
  · exact .inl ⟨rfl, rfl⟩
  · rename_i hresult
    split
    · exact .inl ⟨rfl, rfl⟩
    · rename_i hdot
      refine .inr ⟨hresult, fun hdeleted => ?_, _, rfl, rfl, rfl⟩
      rw [hdeleted] at hdot
      simpa using hdot

theorem visit_reports (hread : (v.readDirectory b src frame.loc visited).result = .ok ())
    (hdot : frame.deleted = true →
      startsWithDotEntry (v.readDirectory b src frame.loc visited).content.bytes = true) :
    (v.visit windows identify b src visited frame).reports =
      (v.listEntries windows identify b src (v.readDirectory b src frame.loc visited).visited frame
        (v.readDirectory b src frame.loc visited).content.places
        (parseEntries (v.readDirectory b src frame.loc visited).content.bytes)).reports := by
  unfold visit
  dsimp only
  rw [hread]
  dsimp only
  rw [if_neg]
  cases hdeleted : frame.deleted with
  | false => exact nofun
  | true => simp [hdot hdeleted]

end Listed

end Volume

end Unearth.Fat
