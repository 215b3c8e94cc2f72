import Unearth.ExtWalk

/-!
# What can stop the undelete of an ext volume

Fields and slices are inside of their buffers for every volume that was accepted. What can
stop the program is a request for more blocks than there are: the journal's and the
directories' sizes are not checked against the volume or the source, as those of files are.
The list of free blocks can be stopped by the offset of a block.
-/

namespace Unearth.Ext
open Lines Bytes Word Loop TreeWalk Post Utf8

theorem le_divCeil_mul (x : ℕ) {y : ℕ} (hy : 0 < y) : x ≤ divCeil x y * y := by
  have hdiv := Nat.div_add_mod (x + y - 1) y
  have hmod := Nat.mod_lt (x + y - 1) hy
  rw [Nat.mul_comm] at hdiv
  unfold divCeil
  omega

theorem divCeil_le {x z : ℕ} (y : ℕ) (h : x ≤ z) : divCeil x y ≤ divCeil z y :=
  Nat.div_le_div_right (by omega)

section Inode

variable {inode : List UInt8} (h : 128 ≤ inode.length)
include h

theorem safe_iBlock : Safe (fun s => s.length = 60) (slice inode 0x28 60) := safe_slice (by omega)

theorem safe_hasBlockmap : Safe (fun _ => True) (inodeHasBlockmap inode) := by
  unfold inodeHasBlockmap
  apply Ends.ite
  · exact fun _ => trivial
  · intro _
    apply (safe_iBlock h).bind
    intro iBlock hlen
    rw [inodeFlags_eq h]
    apply Ends.ite
    · intro _
      rw [field_eq (by omega), field_eq (by omega)]
      trivial
    · exact fun _ => trivial

end Inode

section Dirents

variable {E : Fault → Prop} {filetypeDirents : Bool} {data : List UInt8}

/-- The inodes of entries are numbered by words of 32 bits. -/
def Words (entries : List DirEntry) : Prop := ∀ e ∈ entries, e.ino < 2 ^ 32

theorem words_nil : Words [] := by simp [Words]

theorem Words.append {l l' : List DirEntry} (h : Words l) (h' : Words l') : Words (l ++ l') := by
  intro e he
  exact (List.mem_append.mp he).elim (h e) (h' e)

theorem safe_readEntry {limit : ℕ} {s : Slot} (hpos : s.pos + 8 ≤ limit) (hlimit : limit ≤ data.length) :
    Ends E (fun r => Words r.1) (readEntry filetypeDirents data limit s) := by
  unfold readEntry
  apply (safe_field (by omega)).bind
  intro ino hino
  apply (safe_field (by split <;> omega)).bind
  intro nameLen _
  apply (safe_field (by omega)).bind
  intro recLen _
  apply Ends.ite
  · intro hname
    apply (safe_slice (by omega)).bind
    intro name _ e he
    cases List.mem_singleton.mp he
    exact hino
  · exact fun _ => nofun

theorem safe_direntLoop {limit : ℕ} (hlimit : limit ≤ data.length) {s : Slot} (hs : Words s.entries) :
    Ends E Words ((direntLoop filetypeDirents data limit).eval s) := by
  apply (direntLoop filetypeDirents data limit).eval_inv (I := fun s => Words s.entries) _ hs
  intro s hs
  change (direntStep filetypeDirents data limit s).Sat _ _
  unfold direntStep
  split_ifs with hend
  · exact hs
  · have hentry : Ends E (fun r => Words r.1) (readEntry filetypeDirents data limit s) :=
      safe_readEntry (not_lt.mp hend) hlimit
    cases hread : readEntry filetypeDirents data limit s with
    | error e => exact hentry.of_error hread
    | ok found =>
      have hfound := hentry.of_ok hread
      dsimp only
      split_ifs
      · exact hs.append hfound
      · exact hs.append hfound

theorem safe_recordLoop {blockEnd : ℕ} (hend : blockEnd ≤ data.length) {s : ℕ × List DirEntry}
    (hs : Words s.2) : Ends E Words ((recordLoop filetypeDirents data blockEnd).eval s) := by
  apply (recordLoop filetypeDirents data blockEnd).eval_inv (I := fun s => Words s.2) _ hs
  intro s hs
  change (recordStep filetypeDirents data blockEnd s).Sat _ _
  unfold recordStep
  split_ifs with hstop
  · exact hs
  · rw [field_eq (by omega)]
    dsimp only
    split_ifs with hrec
    · exact hs
    · rw [not_or, not_lt, not_lt] at hrec
      have hlive : Ends E Words ((direntLoop filetypeDirents data
          (s.1 + le (window data (s.1 + 4) 2))).eval ⟨s.1, true, []⟩) :=
        safe_direntLoop (hrec.2.trans hend) words_nil
      cases heval : (direntLoop filetypeDirents data (s.1 + le (window data (s.1 + 4) 2))).eval
          ⟨s.1, true, []⟩ with
      | error e => exact hlive.of_error heval
      | ok found => exact hs.append (hlive.of_ok heval)

theorem safe_parseDirBlock (filetypeDirents : Bool) (data : List UInt8) (blockSize : ℕ) :
    Ends E Words (parseDirBlock filetypeDirents data blockSize) := by
  unfold parseDirBlock
  apply Ends.foldlM (I := Words) _ words_nil
  intro entries hentries i _
  apply (safe_recordLoop (min_le_right _ _) words_nil).bind
  intro found hfound
  exact hentries.append hfound

end Dirents

namespace Volume

variable (v : Volume) (src : Source)

theorem safe_readBlock (block : ℕ) : Safe (fun _ => True) (v.readBlock src block) :=
  (safe_readAt src _ _).mono fun _ _ => trivial

theorem safe_readInode (ino : ℕ) :
    Safe (fun i => ∀ inode ∈ i, 128 ≤ inode.length) (v.readInode src ino) := by
  have hread : Safe (fun _ => True) (v.readInode src ino) := by
    unfold readInode
    apply Ends.ite
    · exact fun _ => trivial
    · intro _
      cases v.groups[(ino - 1) / v.inodesPerGroup]? with
      | none => trivial
      | some group => exact (safe_readAt src _ _).bind fun _ _ => trivial
  cases h : v.readInode src ino with
  | error e => exact hread.of_error h
  | ok i =>
    apply Ends.ok
    intro inode hi
    cases hi
    rw [v.readInode_length src h]
    exact v.inode_ge

theorem safe_collectExtents (fuel : ℕ) (node : List UInt8) (map : Extents) :
    Safe (fun _ => True) (v.collectExtents src fuel node map) := by
  induction fuel generalizing node map with
  | zero => trivial
  | succ fuel ih =>
    unfold collectExtents
    apply Ends.ite
    · exact fun _ => trivial
    · intro hnode
      rw [not_or, not_lt] at hnode
      apply Ends.foldlM _ trivial
      intro map _ i hi
      have hin : i < (node.length - 12) / 12 := lt_of_lt_of_le (List.mem_range.mp hi) (min_le_right _ _)
      apply (safe_slice (by omega)).bind
      intro e _
      apply Ends.ite
      · exact fun _ => trivial
      · intro _
        apply (v.safe_readBlock src _).bind
        intro block _
        exact ih block map

theorem safe_placeExtent {n : ℕ} {out : List ℕ} (hout : out.length = n) (e : ℕ × ℕ × ℕ) :
    Safe (fun r => r.length = n) (placeExtent n out e) := by
  unfold placeExtent
  apply Ends.foldlM (I := fun r : List ℕ => r.length = n) _ hout
  intro out hout k _
  apply Ends.ite
  · intro hk
    exact (safe_assign (by omega)).mono fun r hr => hr.trans hout
  · exact fun _ => hout

theorem safe_readIndirect (n level block : ℕ) {out : List ℕ} (hout : out.length ≤ n) :
    Safe (fun r => r.length ≤ n) (v.readIndirect src n level block out) := by
  induction level generalizing block out with
  | zero => exact hout
  | succ level ih =>
    unfold readIndirect
    apply Ends.ite
    · exact fun _ => hout
    · intro hgo
      apply (v.safe_readBlock src block).bind
      intro data _
      cases level with
      | zero =>
        apply Ends.ok
        rw [List.length_append, List.length_take]
        omega
      | succ level =>
        apply Ends.foldlM (I := fun r : List ℕ => r.length ≤ n) _ hout
        intro out hout ptr _
        apply Ends.ite
        · exact fun _ => hout
        · exact fun _ => ih ptr hout

theorem safe_mapIndirect {iBlock : List UInt8} (hlen : iBlock.length = 60) {n : ℕ} (hn : n ≤ v.limit src) :
    Safe (fun r => r.length ≤ n) (v.mapIndirect src iBlock n) := by
  unfold mapIndirect
  apply (safe_request hn).bind
  intro _ _
  have hdirect : Safe (fun r => r.length ≤ n)
      ((List.range (min 12 n)).mapM fun i => field iBlock (4 * i) 4) := by
    apply (Ends.mapM (P := fun _ => True) _).mono
    · intro r hr
      rw [hr.1, List.length_range]
      exact min_le_right _ _
    · intro i hi
      have hlt := List.mem_range.mp hi
      exact (safe_field (by omega)).mono fun _ _ => trivial
  apply hdirect.bind
  intro out hout
  rw [field_eq (by omega), field_eq (by omega), field_eq (by omega)]
  apply (v.safe_readIndirect src n 1 _ hout).bind
  intro out hout
  apply (v.safe_readIndirect src n 2 _ hout).bind
  intro out hout
  exact v.safe_readIndirect src n 3 _ hout

/-- A map of no more blocks than there are is made, or a read fails. -/
theorem safe_mapBlocks {inode : List UInt8} (h : 128 ≤ inode.length) {n : ℕ} (hn : n ≤ v.limit src) :
    Safe (fun r => r.length ≤ n) (v.mapBlocks src inode n) := by
  unfold mapBlocks
  rw [inodeFlags_eq h]
  apply (safe_iBlock h).bind
  intro iBlock hlen
  apply Ends.ite
  · intro _
    apply (v.safe_collectExtents src _ _ _).bind
    intro map _
    apply (safe_request hn).bind
    intro _ _
    apply (Ends.foldlM (I := fun r => r.length = n) _ (List.length_replicate)).mono
    · exact fun r hr => hr.le
    · exact fun out hout e _ => safe_placeExtent hout e
  · exact fun _ => v.safe_mapIndirect src hlen hn

theorem safe_readBlocks (size : ℕ) (blocks : List ℕ) (out : List UInt8) :
    Safe (fun _ => True) (v.readBlocks src size blocks out) := by
  induction blocks generalizing out with
  | nil => trivial
  | cons block rest ih =>
    unfold readBlocks
    apply Ends.ite
    · exact fun _ => trivial
    · intro _
      apply Ends.ite
      · exact fun _ => ih _
      · intro _
        apply (safe_readAt src _ _).bind
        intro data _
        apply Ends.ite
        · exact fun _ => trivial
        · exact fun _ => ih _

/-- The size of a file is cut to that of the source before any block is asked for. -/
theorem safe_readFileData {inode : List UInt8} (h : 128 ≤ inode.length) (size : ℕ) :
    Safe (fun _ => True) (v.readFileData src inode size) := by
  unfold readFileData
  apply Ends.ite
  · exact fun _ => trivial
  · intro _
    apply Ends.ite
    · exact fun _ => trivial
    · intro _
      have hblocks : divCeil (min size src.size) v.blockSize ≤ v.limit src :=
        (divCeil_le v.blockSize (min_le_right size src.size)).trans (le_max_right _ _)
      have hbytes : min size src.size ≤ v.limit src * v.blockSize :=
        (le_divCeil_mul _ v.block_pos).trans (Nat.mul_le_mul_right _ hblocks)
      apply (v.safe_mapBlocks src h hblocks).bind
      intro blocks _
      apply (safe_request hbytes).bind
      intro _ _
      exact v.safe_readBlocks src _ blocks []

theorem safe_betterCopy (within : ℕ) {best : Option (ℕ × List UInt8)}
    (hbest : ∀ e ∈ best, e.2.length = v.inodeSize) (copy : List UInt8) :
    Safe (fun r => ∀ e ∈ r, e.2.length = v.inodeSize) (v.betterCopy within best copy) := by
  unfold betterCopy
  apply Ends.ite
  · intro hin
    apply (safe_slice hin).bind
    intro inode hlen
    have hlong : 128 ≤ inode.length := hlen ▸ v.inode_ge
    apply (safe_hasBlockmap hlong).bind
    intro usable _
    apply Ends.ite
    · intro _
      apply (safe_field (by omega)).bind
      intro ctime _
      apply Ends.ok
      split
      · intro e he
        cases he
        exact hlen
      · exact hbest
    · exact fun _ => hbest
  · exact fun _ => hbest

theorem safe_journaledInode (journal : JournalIndex) (ino : ℕ) :
    Safe (fun i => ∀ inode ∈ i, 128 ≤ inode.length) (v.journaledInode src journal ino) := by
  unfold journaledInode
  apply Ends.ite
  · exact fun _ => nofun
  · intro _
    cases v.groups[(ino - 1) / v.inodesPerGroup]? with
    | none => exact nofun
    | some group =>
      apply (Ends.foldlM (I := fun r => ∀ e ∈ r, e.2.length = v.inodeSize) _ nofun).bind
      · intro best hbest inode hinode
        obtain ⟨e, he, rfl⟩ := Option.map_eq_some_iff.mp hinode
        rw [hbest e he]
        exact v.inode_ge
      · exact fun best hbest copy _ => v.safe_betterCopy _ hbest copy

theorem safe_isFormat {inode : List UInt8} (h : 128 ≤ inode.length) (format : ℕ) :
    Safe (fun _ => True) (isFormat format inode) := by
  rw [isFormat, inodeMode_eq h]
  trivial

theorem safe_liveDir (ino : ℕ) : Safe (fun i => ∀ inode ∈ i, 128 ≤ inode.length) (v.liveDir src ino) := by
  unfold liveDir
  apply (safe_tolerated (v.safe_readInode src ino) (by simp)).bind
  intro live hlive
  cases live with
  | none => exact hlive
  | some inode =>
    apply (safe_isFormat (hlive inode rfl) MODE_DIR).bind
    intro isDir _
    apply Ends.ite
    · intro _
      apply (safe_hasBlockmap (hlive inode rfl)).bind
      intro usable _
      cases usable with
      | true => exact hlive
      | false => exact Ends.ok (by simp)
    · exact fun _ => Ends.ok (by simp)

theorem safe_journaledDir (journal : JournalIndex) (ino : ℕ) :
    Safe (fun i => ∀ inode ∈ i, 128 ≤ inode.length) (v.journaledDir src journal ino) := by
  unfold journaledDir
  apply (v.safe_journaledInode src journal ino).bind
  intro copy hcopy
  cases copy with
  | none => exact hcopy
  | some inode =>
    apply (safe_isFormat (hcopy inode rfl) MODE_DIR).bind
    intro isDir _
    cases isDir with
    | true => exact hcopy
    | false => exact Ends.ok (by simp)

theorem safe_dirInode (journal : JournalIndex) (ino : ℕ) :
    Safe (fun i => ∀ inode ∈ i, 128 ≤ inode.length) (v.dirInode src journal ino) := by
  unfold dirInode
  apply (v.safe_liveDir src ino).bind
  intro live hlive
  cases live with
  | none => exact v.safe_journaledDir src journal ino
  | some inode => exact hlive

/-- A request for the blocks of a file that is not made, since its extents cannot be read, or
that is for no more blocks than there are. -/
def Fits (inode : List UInt8) (n : ℕ) : Prop :=
  (le (window inode 0x20 4) &&& FLAG_EXTENTS ≠ 0 →
    ∃ map, v.collectExtents src (MAX_EXTENT_DEPTH + 1) (window inode 0x28 60) [] = .ok map) →
  n ≤ v.limit src

theorem mapBlocks_capacity {inode : List UInt8} (h : 128 ≤ inode.length) {n : ℕ} (hn : ¬ v.Fits src inode n) :
    v.mapBlocks src inode n = .error .capacity := by
  unfold Fits at hn
  push Not at hn
  obtain ⟨hread, hlimit⟩ := hn
  rw [mapBlocks, inodeFlags_eq h, slice_eq (by omega)]
  change (if _ then _ else _) = _
  split_ifs with hextents
  · obtain ⟨map, hmap⟩ := hread hextents
    rw [hmap]
    change (request (v.limit src) n >>= _) = _
    rw [request_error hlimit]
    rfl
  · rw [mapIndirect, request_error hlimit]
    rfl

theorem safe_mapBlocks_iff {inode : List UInt8} (h : 128 ≤ inode.length) (n : ℕ) :
    Safe (fun _ => True) (v.mapBlocks src inode n) ↔ v.Fits src inode n := by
  constructor
  · intro hsafe
    by_contra hn
    have hcrash := hsafe.of_error (v.mapBlocks_capacity src h hn)
    cases hcrash
  · intro hfits
    by_cases hn : n ≤ v.limit src
    · exact (v.safe_mapBlocks src h hn).mono fun _ _ => trivial
    · have hunread := mt hfits hn
      push Not at hunread
      obtain ⟨hextents, hunread⟩ := hunread
      have hcollect := v.safe_collectExtents src (MAX_EXTENT_DEPTH + 1) (window inode 0x28 60) []
      rw [mapBlocks, inodeFlags_eq h, slice_eq (by omega)]
      change Safe _ (if _ then _ else _)
      rw [if_pos hextents]
      cases hmap : v.collectExtents src (MAX_EXTENT_DEPTH + 1) (window inode 0x28 60) [] with
      | ok map => exact absurd hmap (hunread map)
      | error e => exact hcollect.of_error hmap

theorem safe_copiedEntries {E : Fault → Prop} (journal : JournalIndex) {entries : List DirEntry}
    (hentries : Words entries) (block : ℕ) : Ends E Words (v.copiedEntries src journal entries block) := by
  unfold copiedEntries
  apply Ends.foldlM (I := Words) _ hentries
  intro entries hentries copy _
  apply (safe_parseDirBlock _ copy _).bind
  intro found hfound
  exact hentries.append hfound

theorem safe_dirEntries_iff {inode : List UInt8} (h : 128 ≤ inode.length) {size : ℕ}
    (hsize : dirSize inode = .ok size) (journal : JournalIndex) :
    Safe (fun _ => True) (v.dirEntries src journal inode) ↔
      (journal ≠ [] → v.Fits src inode (divCeil size v.blockSize)) := by
  obtain ⟨data, hdata⟩ := exists_tolerated [] (v.safe_readFileData src h size)
  obtain ⟨entries, hentries, hwords⟩ := (safe_parseDirBlock v.filetypeDirents data v.blockSize).exists_ok
  unfold dirEntries
  rw [hsize]
  change Safe _ (tolerated [] (v.readFileData src inode size) >>= _) ↔ _
  rw [hdata]
  change Safe _ (parseDirBlock v.filetypeDirents data v.blockSize >>= _) ↔ _
  rw [hentries]
  change Safe _ (if _ then _ else _) ↔ _
  by_cases hjournal : journal = []
  · rw [if_pos hjournal]
    exact iff_of_true trivial fun h => absurd hjournal h
  · rw [if_neg hjournal, ← v.safe_mapBlocks_iff src h]
    constructor
    · exact fun hall _ => safe_of_tolerated hall.of_bind
    · intro hfits
      apply (safe_tolerated (hfits hjournal) trivial).bind
      intro blocks _
      have hcopied : Safe Words ((blocks.filter (· ≠ 0)).foldlM (v.copiedEntries src journal) entries) :=
        Ends.foldlM (fun entries hentries block _ => v.safe_copiedEntries src journal hentries block) hwords
      exact hcopied.mono fun _ _ => trivial

theorem words_dirEntries (journal : JournalIndex) (inode : List UInt8) :
    Ends (fun _ => True) Words (v.dirEntries src journal inode) := by
  unfold dirEntries
  apply (Ends.any _).bind
  intro size _
  apply (Ends.any _).bind
  intro data _
  apply (safe_parseDirBlock _ data _).bind
  intro entries hentries
  apply Ends.ite
  · exact fun _ => hentries
  · intro _
    apply (Ends.any _).bind
    intro blocks _
    exact Ends.foldlM (fun entries hentries block _ => v.safe_copiedEntries src journal hentries block) hentries

/-- A directory that is pushed is named by its entry. -/
theorem safe_listEntry (windows : Bool) (frame : Frame) (entry : DirEntry) :
    Safe (fun l => ∀ g ∈ l.pushed, g.ino = entry.ino) (v.listEntry src windows frame entry) := by
  have hnone {reports : List Found} :
      Safe (fun l : Listing => ∀ g ∈ l.pushed, g.ino = entry.ino) (.ok ⟨[], reports⟩) :=
    Ends.ok (by simp)
  unfold listEntry
  apply Ends.ite
  · exact fun _ => hnone
  · intro _
    apply (safe_tolerated (v.safe_readInode src entry.ino) (by simp)).bind
    intro child hchild
    cases child with
    | none => exact hnone
    | some child =>
      have hlong := hchild child rfl
      apply (safe_field (by omega)).bind
      intro links _
      apply (safe_field (by omega)).bind
      intro dtime _
      apply (safe_isFormat hlong MODE_DIR).bind
      intro isDir _
      apply Ends.ite
      · intro _
        apply Ends.ok
        dsimp only
        split
        · intro g hg
          cases List.mem_singleton.mp hg
          rfl
        · simp
      · intro _
        apply (safe_isFormat hlong MODE_REG).bind
        intro isReg _
        apply Ends.ite
        · intro _
          apply Ends.ite
          · intro _
            rw [regSize_eq hlong]
            exact hnone
          · exact fun _ => hnone
        · exact fun _ => hnone

theorem safe_listEntries (windows : Bool) (frame : Frame) (entries : List DirEntry) :
    Safe (fun l => ∀ g ∈ l.pushed, ∃ entry ∈ entries, g.ino = entry.ino)
      (v.listEntries src windows frame entries) := by
  induction entries with
  | nil => exact Ends.ok (by simp)
  | cons entry rest ih =>
    unfold listEntries
    apply (v.safe_listEntry src windows frame entry).bind
    intro one hone
    apply ih.bind
    intro list hlist g hg
    rcases List.mem_append.mp hg with hg | hg
    · exact ⟨entry, List.mem_cons_self .., hone g hg⟩
    · obtain ⟨e, he, hino⟩ := hlist g hg
      exact ⟨e, List.mem_cons_of_mem _ he, hino⟩

/-- A directory whose blocks are asked for, if there are journaled copies to look for, is no
larger than the volume or the source. -/
def DirFits (journal : JournalIndex) (ino : ℕ) : Prop :=
  journal ≠ [] → ∀ inode size, v.dirInode src journal ino = .ok (some inode) → dirSize inode = .ok size →
    v.Fits src inode (divCeil size v.blockSize)

theorem safe_listDirectory_iff (journal : JournalIndex) (windows : Bool) (frame : Frame) :
    Safe (fun _ => True) (v.listDirectory src journal windows frame) ↔ v.DirFits src journal frame.ino := by
  have hdir := v.safe_dirInode src journal frame.ino
  unfold listDirectory DirFits
  cases hinode : v.dirInode src journal frame.ino with
  | error e => exact iff_of_true (hdir.of_error hinode) fun _ inode size h => by cases h
  | ok i =>
    cases i with
    | none => exact iff_of_true trivial fun _ inode size h => by cases h
    | some inode =>
      have hlong := hdir.of_ok hinode inode rfl
      have hsize := dirSize_eq hlong
      have hentries := v.safe_dirEntries_iff src hlong hsize journal
      change Safe _ (v.dirEntries src journal inode >>= _) ↔ _
      constructor
      · intro hall hjournal inode' size' h h'
        cases h
        rw [hsize] at h'
        cases h'
        exact hentries.mp hall.of_bind hjournal
      · intro hfits
        apply (hentries.mpr fun hjournal => hfits hjournal inode _ rfl hsize).bind
        intro entries _
        exact (v.safe_listEntries src windows frame _).mono fun _ _ => trivial

/-- The file of the journal is no larger than the volume or the source. -/
def JournalFits : Prop :=
  ∀ inode size, v.readInode src v.journalInum = .ok (some inode) → inodeHasBlockmap inode = .ok true →
    regSize inode = .ok size → size ≠ 0 → v.Fits src inode (divCeil size v.blockSize)

theorem safe_scanJournal (jblocks : List ℕ) (n : ℕ) : Safe (fun _ => True) (v.scanJournal src jblocks n) := by
  unfold scanJournal
  cases jblocks with
  | nil => trivial
  | cons first rest =>
    apply (v.safe_readBlock src first).bind
    intro sb _
    apply Ends.ite
    · exact fun _ => trivial
    · intro _
      apply (v.scan src (.read sb) (first :: rest) _).eval_inv (I := fun _ => True) _ trivial
      intro s _
      change (v.scanStep src (.read sb) (first :: rest) _ s).Sat _ _
      unfold scanStep
      split_ifs
      · trivial
      · cases (first :: rest)[s.ji]? with
        | none => trivial
        | some phys =>
          dsimp only
          cases hread : v.readBlock src phys with
          | error e => exact (v.safe_readBlock src phys).of_error hread
          | ok block =>
            dsimp only
            obtain ⟨tags, htags⟩ := exists_parseJournalTags (.read sb) block
            rw [htags]
            split_ifs <;> trivial

theorem safe_buildJournalIndex_iff : Safe (fun _ => True) (v.buildJournalIndex src) ↔ v.JournalFits src := by
  have hread := v.safe_readInode src v.journalInum
  unfold buildJournalIndex JournalFits
  cases hinode : v.readInode src v.journalInum with
  | error e => exact iff_of_true (hread.of_error hinode) fun inode size h => by cases h
  | ok i =>
    cases i with
    | none => exact iff_of_true trivial fun inode size h => by cases h
    | some inode =>
      have hlong := hread.of_ok hinode inode rfl
      have hsize := regSize_eq hlong
      change Safe _ (inodeHasBlockmap inode >>= _) ↔ _
      cases hmap : inodeHasBlockmap inode with
      | error e =>
        refine iff_of_true ((safe_hasBlockmap hlong).of_error hmap) fun inode' size h h' => ?_
        cases h
        rw [hmap] at h'
        cases h'
      | ok usable =>
        cases usable with
        | false =>
          refine iff_of_true trivial fun inode' size h h' => ?_
          cases h
          rw [hmap] at h'
          cases h'
        | true =>
          change Safe _ (regSize inode >>= _) ↔ _
          rw [hsize]
          change Safe _ (if _ then _ else _) ↔ _
          have hblocks := v.safe_mapBlocks_iff src hlong
          by_cases hzero : le (window inode 4 4) + 2 ^ 32 * le (window inode 0x6C 4) = 0
          · rw [if_pos hzero]
            refine iff_of_true trivial fun inode' size h _ h' hne => ?_
            cases h
            rw [hsize] at h'
            cases h'
            exact absurd hzero hne
          · rw [if_neg hzero]
            constructor
            · intro hall inode' size h _ h' _
              cases h
              rw [hsize] at h'
              cases h'
              exact (hblocks _).mp hall.of_bind
            · intro hfits
              apply ((hblocks _).mpr (hfits inode _ rfl hmap hsize hzero)).bind
              intro jblocks _
              exact v.safe_scanJournal src jblocks _

theorem safe_chooseInode (journal : JournalIndex) (ino : ℕ) :
    Safe (fun i => ∀ inode ∈ i, 128 ≤ inode.length) (v.chooseInode src journal ino) := by
  unfold chooseInode
  apply (safe_tolerated (v.safe_readInode src ino) (by simp)).bind
  intro live hlive
  cases live with
  | none => exact v.safe_journaledInode src journal ino
  | some inode =>
    apply (safe_hasBlockmap (hlive inode rfl)).bind
    intro usable _
    apply Ends.ite
    · exact fun _ => hlive
    · exact fun _ => v.safe_journaledInode src journal ino

theorem safe_salvage (journal : JournalIndex) (opts : RecoverOptions) (ino : ℕ) (rel : Path) :
    Safe (fun _ => True) (v.salvage src journal opts ino rel) := by
  unfold salvage
  apply (v.safe_chooseInode src journal ino).bind
  intro i hi
  cases i with
  | none => trivial
  | some inode =>
    have hlong := hi inode rfl
    change Safe _ (regSize inode >>= _)
    rw [regSize_eq hlong]
    apply (safe_field (by omega)).bind
    intro mtime _
    refine Ends.ite (fun _ => Ends.ok trivial) fun _ => ?_
    refine Ends.ite (fun _ => Ends.ok trivial) fun _ => ?_
    refine Ends.ite (fun _ => Ends.ok trivial) fun _ => ?_
    refine Ends.ite (fun _ => Ends.ok trivial) fun _ => ?_
    refine Ends.ite (fun _ => Ends.ok trivial) fun _ => ?_
    apply (safe_tolerated (v.safe_readFileData src hlong _) trivial).bind
    intro data _
    apply Ends.ite
    · exact fun _ => trivial
    · intro _
      apply (safe_field (by omega)).bind
      exact fun _ _ => trivial

section Walk

variable {v src} {journal : JournalIndex} {windows : Bool}

theorem visit_error {visited : Finset ℕ} {frame : Frame} {e : Fault}
    (h : (v.visit src journal windows visited frame).error = some e) :
    frame.ino ∉ visited ∧ v.listDirectory src journal windows frame = .error e := by
  unfold visit at h
  split at h
  · cases h
  · rename_i hnew
    split at h
    · rename_i e' hlist
      cases h
      exact ⟨hnew, hlist⟩
    · cases h

/-- The directory on top of the stack fits, if it has not been seen before. -/
def NextFits (v : Volume) (src : Source) (journal : JournalIndex) (s : TreeWalk.State Frame Found) : Prop :=
  ∀ f rest, s.stack = f :: rest → f.ino ∉ s.visited → v.DirFits src journal f.ino

/-- The states that the walk passes through. -/
def Reached (v : Volume) (src : Source) (journal : JournalIndex) (windows : Bool)
    (s : TreeWalk.State Frame Found) : Prop :=
  Reaches (body (v.visit src journal windows)) (.start rootFrame) s

theorem walk_error_iff : (∀ fuel r, v.walk src journal windows fuel = some r → ∀ e ∈ r.error, e.crash = false) ↔
    ∀ s, v.Reached src journal windows s → v.NextFits src journal s := by
  constructor
  · intro h s hs f rest hstack hnew
    by_contra hfits
    have hcrash := mt (v.safe_listDirectory_iff src journal windows f).mp hfits
    obtain ⟨e, he, hne⟩ := Ends.error_of_not hcrash
    have hbody : body (v.visit src journal windows) s = .done ⟨s.reads ++ [f.ino], s.reports ++ [], some e⟩ := by
      rw [body, hstack]
      dsimp only
      rw [visit, if_neg hnew, he]
    obtain ⟨fuel, hrun⟩ := run_of_reaches hs (run_done hbody 0)
    exact hne (h fuel _ hrun e rfl)
  · intro h fuel r hr e he
    obtain ⟨s, hs, hdone⟩ := exists_reaches_of_run hr
    have hnext := h s hs
    unfold body at hdone
    split at hdone
    · cases hdone
      cases he
    · rename_i f rest hstack
      dsimp only at hdone
      split at hdone
      · rename_i e' herror
        cases hdone
        cases he
        obtain ⟨hnew, hlist⟩ := visit_error herror
        exact ((v.safe_listDirectory_iff src journal windows f).mpr (hnext f rest hstack hnew)).of_error hlist
      · cases hdone

/-- The directories that are pushed are numbered by words. -/
theorem pushed_lt {frame : Frame} {list : Listing} (h : v.listDirectory src journal windows frame = .ok list) :
    ∀ g ∈ list.pushed, g.ino < 2 ^ 32 := by
  obtain ⟨i, -, h⟩ := exec_bind_ok h
  cases i with
  | none =>
    cases h
    simp
  | some inode =>
    obtain ⟨entries, hentries, h⟩ := exec_bind_ok h
    have hwords := (v.words_dirEntries src journal inode).of_ok hentries
    intro g hg
    obtain ⟨e, he, hino⟩ := (v.safe_listEntries src windows frame _).of_ok h g hg
    rw [hino]
    exact hwords e (List.mem_eraseDups.mp he)

theorem visit_bounded (v : Volume) (src : Source) (journal : JournalIndex) (windows : Bool) :
    Bounded (v.visit src journal windows) (2 ^ 32) fun f => f.ino < 2 ^ 32 := by
  refine ⟨fun visited f => ?_, fun visited f g hg => ?_, fun visited f hf hpushed => ?_⟩
  · unfold visit
    split
    · exact Finset.Subset.refl _
    · split <;> exact Finset.subset_insert _ _
  · unfold visit at hg
    split at hg
    · cases hg
    · split at hg
      · cases hg
      · rename_i list hlist
        exact pushed_lt hlist g hg
  · unfold visit at hpushed ⊢
    split at hpushed
    · exact absurd rfl hpushed
    · rename_i hnew
      refine ⟨f.ino, hf, hnew, ?_⟩
      rw [if_neg hnew]
      split <;> exact Finset.mem_insert_self _ _

end Walk

variable (windows : Bool) (opts : RecoverOptions)

/-- An undelete of a volume comes to its end, and nothing stops it on the way. -/
structure Unstopped : Prop where
  ends : ∃ fuel r, v.recoverDeleted src windows opts fuel = some r
  safe : ∀ fuel r, v.recoverDeleted src windows opts fuel = some r → Safe (fun _ => True) r

theorem unstopped_iff : v.Unstopped src windows opts ↔ v.JournalFits src ∧
    ∀ journal, tolerated [] (v.buildJournalIndex src) = .ok journal →
      ∀ s, v.Reached src journal windows s → v.NextFits src journal s := by
  rw [← v.safe_buildJournalIndex_iff src]
  constructor
  · intro h
    have hindex : Safe (fun _ => True) (v.buildJournalIndex src) := by
      by_contra hcrash
      obtain ⟨e, he, hne⟩ := Ends.error_of_not hcrash
      have hkept : tolerated [] (v.buildJournalIndex src) = .error e := by
        rw [he]
        cases e with
        | io | refused => exact absurd rfl hne
        | overflow | slice | capacity => rfl
      have hsafe := h.safe 0 (.error e) (by rw [recoverDeleted, hkept])
      exact hne hsafe
    refine ⟨hindex, fun journal hjournal => walk_error_iff.mp fun fuel r hr e he => ?_⟩
    have hsafe := h.safe fuel (.error e) (by
      rw [recoverDeleted, hjournal]
      dsimp only
      rw [hr, Option.map_some, Option.mem_def.mp he])
    exact hsafe
  · intro ⟨hindex, hwalk⟩
    obtain ⟨journal, hjournal⟩ := exists_tolerated [] hindex
    have hstates := walk_error_iff.mpr (hwalk journal hjournal)
    obtain ⟨fuel, r, hr⟩ := exists_walk (visit_bounded v src journal windows) rootFrame
    refine ⟨⟨fuel, _, by rw [recoverDeleted, hjournal]; dsimp only; rw [walk, hr]; rfl⟩, fun fuel r hr => ?_⟩
    rw [recoverDeleted, hjournal] at hr
    obtain ⟨w, hw, rfl⟩ := Option.map_eq_some_iff.mp hr
    have herror := hstates fuel w hw
    cases he : w.error with
    | some e => exact herror e he
    | none =>
      refine (Ends.filterMapM (P := fun _ => True) fun f _ => ?_).mono fun _ _ => trivial
      exact (v.safe_salvage src journal opts f.1 f.2.1).mono fun _ _ _ _ => trivial

end Volume

end Unearth.Ext
