import Unearth.NtfsRecord

/-!
# An NTFS volume and its torn records

The boot sector leads to record 0, which says where the records are. Every other record is
read through `readRecord`, which does not return a torn one, so that what is found in a
volume and recovered from it is the same whatever a torn record holds. Record 0 is fixed up
without a look at the verdict.
-/

namespace Unearth.Ntfs
open Lines Decimal Bytes Word Loop Utf16

def VOLUME_RECORD : ℕ := 3
def ROOT_RECORD : ℕ := 5
def MAX_PATH_DEPTH : ℕ := 64
def MAX_RECORDS : ℕ := 8000000

/-- What the boot sector says. -/
structure Geometry where
  bytesPerSector : ℕ
  clusterSize : ℕ
  recordSize : ℕ
  volumeSize : ℕ
  mftCluster : ℕ
  serial : ℕ

structure Volume where
  offset : ℕ
  bytesPerSector : ℕ
  clusterSize : ℕ
  recordSize : ℕ
  volumeSize : ℕ
  mftRuns : Runs
  recordCount : ℕ
  serial : ℕ
  label : Text := []
  clean : Option Bool := none
  created : Option ℕ := none
  written : Option ℕ := none

def isNtfsVbr (s : List UInt8) : Bool :=
  11 ≤ s.length && window s 3 8 = [0x4E, 0x54, 0x46, 0x53, 0x20, 0x20, 0x20, 0x20]

def refused {α : Type} (message : Text) : Exec (Except ParseError α) := .ok (.error (.refused message))

section Boot

variable (b : Build)

/-- A literal count, or the exponent of a power of two. -/
def sectorsPerClusterOf (raw : ℕ) : Except ParseError ℕ :=
  if raw ≤ 0x80 then .ok raw
  else if 32 ≤ 256 - raw then
    .error (.refused ("implausible NTFS sectors-per-cluster shift ".toList ++ decimal (256 - raw)))
  else .ok (2 ^ (256 - raw))

/-- The exponent that a negative byte stands for; the least one has no opposite. -/
def negated (raw : ℕ) : Exec ℕ :=
  if raw = 128 then
    match b with
    | .debug => .error .overflow
    | .release => .ok (2 ^ 32 - 128)
  else .ok (256 - raw)

def recordSizeOf (raw clusterSize : ℕ) : Exec (Except ParseError ℕ) := do
  let size ← if raw < 128 then pure (Except.ok (satMul raw clusterSize))
    else do
      let exp ← negated b raw
      pure <| if 32 ≤ exp then
        .error (.refused ("implausible NTFS record-size shift ".toList ++ decimal exp))
      else Except.ok (2 ^ exp)
  match size with
  | .error e => return .error e
  | .ok size =>
    return if 42 ≤ size ∧ size ≤ 2 ^ 20 then .ok size
      else .error (.refused ("implausible NTFS record size ".toList ++ decimal size))

def Geometry.read (boot : List UInt8) (offset : ℕ) : Exec (Except ParseError Geometry) :=
  if isNtfsVbr boot = false then return .error (atOffset "not an NTFS volume" offset)
  else
    let bytesPerSector := le (window boot 11 2)
    match sectorsPerClusterOf (byteAt boot 13).toNat with
    | .error e => return .error e
    | .ok sectorsPerCluster =>
      if bytesPerSector = 0 ∨ sectorsPerCluster = 0 then
        refused "invalid NTFS BPB (zero sector/cluster size)".toList
      else do
        let clusterSize := satMul bytesPerSector sectorsPerCluster
        match ← recordSizeOf b (byteAt boot 64).toNat clusterSize with
        | .error e => return .error e
        | .ok recordSize => return .ok {
            bytesPerSector
            clusterSize
            recordSize
            volumeSize := satMul (le (window boot 40 8)) bytesPerSector
            mftCluster := le (window boot 48 8)
            serial := le (window boot 72 8) }

/-- Record 0 as it is on the disk. -/
def record0 (src : Source) (offset : ℕ) : Exec (Except ParseError (Geometry × List UInt8)) := do
  match src.readAt offset 512 with
  | .error _ => return .error .io
  | .ok boot =>
    if boot.length < 512 then return .error (atOffset "could not read boot sector" offset)
    else
      match ← Geometry.read b boot offset with
      | .error e => return .error e
      | .ok g =>
        match src.readAt (satAdd offset (satMul g.mftCluster g.clusterSize)) g.recordSize with
        | .error _ => return .error .io
        | .ok rec0 =>
          if rec0.length < g.recordSize then refused "could not read $MFT record 0".toList
          else return .ok (g, rec0)

/-- The runs and the size of the `$MFT`. The verdict on the fixup of record 0 is dropped. -/
def mftExtent (src : Source) (offset : ℕ) : Exec (Except ParseError (Geometry × Runs × ℕ)) := do
  match ← record0 b src offset with
  | .error e => return .error e
  | .ok (g, rec0) =>
    let rec0 := (applyFixup rec0 g.bytesPerSector).2
    if window rec0 0 4 ≠ magic then refused "$MFT record 0 is not a FILE record".toList
    else
      match ← mftDataExtent b rec0 with
      | .error e => refused ("parsing $MFT $DATA runs: ".toList ++ e)
      | .ok (runs, size) => return .ok (g, runs, size)

end Boot

section Records

variable (b : Build) (src : Source) (v : Volume)

/-- The bytes of a record as they are on the disk. -/
def rawRecord (index : ℕ) : Exec (List UInt8) := do
  let start ← times b index v.recordSize
  readRunsRange b src v.offset v.clusterSize v.mftRuns start v.recordSize

/-- A record that was read, fixed up, unless it is cut, is none or is torn. -/
def fixedUp (rec : List UInt8) : Option (List UInt8) :=
  if rec.length < v.recordSize then none
  else if window rec 0 4 ≠ magic then none
  else
    match applyFixup rec v.bytesPerSector with
    | (true, fixed) => some fixed
    | (false, _) => none

def readRecord (index : ℕ) : Exec (Option (List UInt8)) := do
  let rec ← rawRecord b src v index
  return fixedUp v rec

end Records

/-- A failed read leaves nothing; a fault of the program goes on. -/
def orNone {α : Type} : Exec (Option α) → Exec (Option α)
  | .error .io => .ok none
  | x => x

section Found

variable (b : Build) (records : ℕ → Exec (Option (List UInt8)))

def volumeContent (want : ℕ) : Exec (Option (List UInt8)) := do
  return (← orNone (records VOLUME_RECORD)).bind (residentAttrContent · want)

def readVolumeLabel : Exec (Option Text) := do
  return (← volumeContent records ATTR_VOLUME_NAME).bind fun content =>
    if content.length < 2 then none
    else
      let name := fromUtf16Lossy (unitsOf content)
      if name = [] then none else some name

def readDirty : Exec (Option Bool) := do
  return (← volumeContent records ATTR_VOLUME_INFORMATION).bind fun content =>
    if content.length < 12 then none else some (le (window content 10 2) % 2 = 0)

def readTimes : Exec (Option ℕ × Option ℕ) := do
  let filetime (content : List UInt8) (o : ℕ) : Option ℕ :=
    if content.length < o + 8 then none
    else (fromFiletime (le (window content o 8))).map Prod.fst
  match ← volumeContent records ATTR_STANDARD_INFO with
  | none => return (none, none)
  | some content => return (filetime content 0x00, filetime content 0x08)

/-- The label, the state and the times of a volume. -/
def Volume.describe (v : Volume) : Exec Volume := do
  let label ← readVolumeLabel records
  let clean ← readDirty records
  let (created, written) ← readTimes records
  return { v with label := label.getD [], clean, created, written }

variable (windows : Bool) (opts : RecoverOptions)

/-- The path of a file, up to `n` directories further up. -/
def resolveFrom : ℕ → ℕ → List ℕ → Path → Exec Path
  | 0, _, _, components => return components
  | n + 1, current, seen, components =>
    if current = ROOT_RECORD ∨ current ∈ seen then return components
    else do
      match ← orNone (records current) with
      | none => return components
      | some rec =>
        match ← parseRecord b rec with
        | none => return components
        | some parsed =>
          match parsed.fileName with
          | none => return components
          | some (name, parent) =>
            resolveFrom n (parent % 2 ^ 48) (current :: seen)
              (sanitizeComponent windows name :: components)

def resolvePath (parent : ℕ) (name : Text) : Exec Path :=
  resolveFrom b records windows MAX_PATH_DEPTH (parent % 2 ^ 48) [] [sanitizeComponent windows name]

/-- A file to be recovered: where to, its data and its times. -/
structure Recovery where
  rel : Path
  data : DataAttr
  times : Option SystemTime × Option SystemTime
  nameless : Bool

/-- The record of a file that was deleted, and not of a directory. -/
def deletedFile (rec : List UInt8) : Bool :=
  let flags := le (window rec 22 2)
  flags % 2 = 0 && flags / 2 % 2 = 0

def recoverRecord (index : ℕ) : Exec (Option Recovery) := do
  match ← orNone (records index) with
  | none => return none
  | some rec =>
    if deletedFile rec = false then return none
    else
      match ← parseRecord b rec with
      | none => return none
      | some parsed =>
        match parsed.data with
        | none => return none
        | some data =>
          let times := (parsed.mtime, parsed.atime)
          if opts.sizeOk data.size = false ∨ opts.timeOk parsed.mtime = false then return none
          else
            match parsed.fileName with
            | none =>
              let name := "mft-".toList ++ decimal index ++ ".bin".toList
              return if data.size = 0 then none
                else some ⟨["_unnamed".toList, name], data, times, true⟩
            | some (name, parent) =>
              if opts.nameOk name = false then return none
              else do
                let rel ← resolvePath b records windows parent name
                return some ⟨rel, data, times, false⟩

/-- The files of the deleted records, in the order in which they are written. -/
def recoverDeleted (v : Volume) : Exec (List Recovery) :=
  (List.range v.recordCount).filterMapM (recoverRecord b records windows opts)

end Found

def Volume.parse (b : Build) (src : Source) (offset : ℕ) : Exec (Except ParseError Volume) := do
  match ← mftExtent b src offset with
  | .error e => return .error e
  | .ok (g, mftRuns, mftSize) =>
    let v : Volume := {
      offset
      bytesPerSector := g.bytesPerSector
      clusterSize := g.clusterSize
      recordSize := g.recordSize
      volumeSize := g.volumeSize
      mftRuns
      recordCount := min (mftSize / g.recordSize) MAX_RECORDS
      serial := g.serial }
    return .ok (← v.describe (readRecord b src v))

theorem Volume.describe_offset {records : ℕ → Exec (Option (List UInt8))} {v w : Volume}
    (h : v.describe records = .ok w) : w.offset = v.offset := by
  obtain ⟨label, -, h⟩ := exec_bind_ok h
  obtain ⟨clean, -, h⟩ := exec_bind_ok h
  obtain ⟨times, -, h⟩ := exec_bind_ok h
  cases h
  rfl

theorem Volume.parse_offset {b : Build} {src : Source} {offset : ℕ} {v : Volume}
    (h : Volume.parse b src offset = .ok (.ok v)) : v.offset = offset := by
  obtain ⟨extent, -, h⟩ := exec_bind_ok h
  cases extent with
  | error e => cases h
  | ok extent =>
    obtain ⟨w, hw, h⟩ := exec_bind_ok h
    cases h
    exact Volume.describe_offset hw

section Torn

variable {b : Build} {src src' : Source} {v : Volume}

/-- The sources have the same records, apart from records that are torn in both. -/
def SameButTorn (b : Build) (v : Volume) (src src' : Source) : Prop :=
  ∀ index, rawRecord b src v index = rawRecord b src' v index ∨
    ∃ rec rec', rawRecord b src v index = .ok rec ∧ rawRecord b src' v index = .ok rec' ∧
      ¬ Whole rec v.bytesPerSector ∧ ¬ Whole rec' v.bytesPerSector

/-- No attribute of a torn record has an influence: the extent of the `$MFT` is not taken from
a torn record 0, and sources that differ in torn records have the same volume and the same
files to recover. -/
structure Untrusting (b : Build) (src : Source) (offset : ℕ) : Prop where
  extent : ∀ g rec0 runs size, record0 b src offset = .ok (.ok (g, rec0)) →
    mftExtent b src offset = .ok (.ok (g, runs, size)) → Whole rec0 g.bytesPerSector
  described : ∀ v src', SameButTorn b v src src' →
    v.describe (readRecord b src v) = v.describe (readRecord b src' v)
  recovered : ∀ v src', SameButTorn b v src src' → ∀ windows opts,
    recoverDeleted b (readRecord b src v) windows opts v =
      recoverDeleted b (readRecord b src' v) windows opts v

/-- A torn record 0 is refused for another reason: it is no record, or has no runs. -/
def TornRefused (b : Build) (src : Source) (offset : ℕ) : Prop :=
  ∀ g rec0, record0 b src offset = .ok (.ok (g, rec0)) → ¬ Whole rec0 g.bytesPerSector →
    window rec0 0 4 = magic → ∀ extent, mftDataExtent b rec0 ≠ .ok (.ok extent)

theorem fixedUp_torn {rec : List UInt8} (h : ¬ Whole rec v.bytesPerSector) : fixedUp v rec = none := by
  have hverdict : (applyFixup rec v.bytesPerSector).1 = false := by
    rw [← applyFixup_accepts_iff] at h
    exact Bool.eq_false_iff.mpr h
  unfold fixedUp
  rw [applyFixup_rejected hverdict]
  split_ifs <;> rfl

/-- Every record is read alike in sources that differ in torn records. -/
theorem readRecord_same (h : SameButTorn b v src src') : readRecord b src v = readRecord b src' v := by
  funext index
  unfold readRecord
  obtain heq | ⟨rec, rec', hrec, hrec', htorn, htorn'⟩ := h index
  · rw [heq]
  · rw [hrec, hrec']
    change Except.ok (fixedUp v rec) = Except.ok (fixedUp v rec')
    rw [fixedUp_torn htorn, fixedUp_torn htorn']

theorem mftExtent_ok {offset : ℕ} {g : Geometry} {rec0 : List UInt8}
    (h : record0 b src offset = .ok (.ok (g, rec0))) {runs : Runs} {size : ℕ} :
    mftExtent b src offset = .ok (.ok (g, runs, size)) ↔
      window (applyFixup rec0 g.bytesPerSector).2 0 4 = magic ∧
        mftDataExtent b (applyFixup rec0 g.bytesPerSector).2 = .ok (.ok (runs, size)) := by
  unfold mftExtent
  rw [h]
  dsimp only [bind, Except.bind]
  by_cases hmagic : window (applyFixup rec0 g.bytesPerSector).2 0 4 ≠ magic
  · rw [if_pos hmagic]
    refine iff_of_false nofun fun h => hmagic h.1
  · rw [if_neg hmagic]
    rw [not_not] at hmagic
    rcases mftDataExtent b (applyFixup rec0 g.bytesPerSector).2 with e | e | ⟨runs', size'⟩
    · exact iff_of_false nofun fun h => nomatch h.2
    · exact iff_of_false nofun fun h => nomatch h.2
    · constructor
      · intro heq
        cases heq
        exact ⟨hmagic, rfl⟩
      · rintro ⟨-, heq⟩
        cases heq
        rfl

/-- Torn records have no influence exactly when a torn record 0 is refused anyway. -/
theorem untrusting_iff {offset : ℕ} : Untrusting b src offset ↔ TornRefused b src offset := by
  constructor
  · intro h g rec0 hrec0 htorn hmagic extent hextent
    have hverdict := fun hacc => htorn (applyFixup_accepts_iff.mp hacc)
    have hsame := applyFixup_rejected (Bool.eq_false_iff.mpr hverdict)
    apply htorn
    apply h.extent g rec0 extent.1 extent.2 hrec0
    rw [mftExtent_ok hrec0, hsame]
    exact ⟨hmagic, hextent⟩
  · intro h
    refine ⟨fun g rec0 runs size hrec0 hextent => ?_, fun v src' hsame => ?_,
      fun v src' hsame windows opts => ?_⟩
    · by_contra htorn
      have hverdict := fun hacc => htorn (applyFixup_accepts_iff.mp hacc)
      have hleft := applyFixup_rejected (Bool.eq_false_iff.mpr hverdict)
      rw [mftExtent_ok hrec0, hleft] at hextent
      exact h g rec0 hrec0 htorn hextent.1 (runs, size) hextent.2
    · rw [readRecord_same hsame]
    · rw [readRecord_same hsame]

/-- Torn records are all or nothing and never trusted exactly when no entry of the array of
a whole record holds another value than the one below it, and a torn record 0 is refused. -/
theorem torn_records_iff (b : Build) (src : Source) (offset : ℕ) (rec usn : List UInt8) (bps : ℕ) :
    (AllOrNothing rec bps ∧ (Protectable rec bps → Restored rec usn bps) ∧ Untrusting b src offset) ↔
      Unlapped rec bps ∧ TornRefused b src offset := by
  constructor
  · rintro ⟨hall, -, huntrusting⟩
    exact ⟨unlapped_of_allOrNothing hall, untrusting_iff.mp huntrusting⟩
  · rintro ⟨hunlapped, hrefused⟩
    exact ⟨allOrNothing_of_unlapped hunlapped, protect_restored, untrusting_iff.mpr hrefused⟩

/-- A record 0 with the runs of the `$MFT`, of which the last two bytes are of an older write. -/
def tornRecord : List UInt8 :=
  magic ++ [48, 0, 2, 0] ++ List.replicate 12 0 ++ [56, 0] ++ List.replicate 26 0 ++
    [1, 2, 0, 0, 0, 0, 0, 0] ++
    [0x80, 0, 0, 0, 72, 0, 0, 0, 1] ++ List.replicate 23 0 ++ [64] ++ List.replicate 16 0 ++
    [2] ++ List.replicate 14 0 ++ [0x11, 1, 1, 0, 0, 0, 0, 0] ++
    [0xFF, 0xFF, 0xFF, 0xFF] ++ List.replicate 378 0 ++ [9, 9]

/-- A volume of two sectors: the boot sector and record 0. -/
def tornImage : Source where
  data := [0, 0, 0, 0x4E, 0x54, 0x46, 0x53, 0x20, 0x20, 0x20, 0x20, 0, 2, 1] ++
    List.replicate 26 0 ++ [2, 0, 0, 0, 0, 0, 0, 0, 1] ++ List.replicate 15 0 ++ [1] ++
    List.replicate 447 0 ++ tornRecord
  size_lt := by decide +kernel

/-- The fixup rejects the record, and the volume takes its runs from it. -/
theorem torn_record_trusted : applyFixup tornRecord 512 = (false, tornRecord) ∧
    ((Volume.parse .debug tornImage 0).toOption.bind Except.toOption).map
      (fun v => (v.mftRuns, v.recordCount)) = some ([(some 1, 1)], 1) ∧
    ¬ (AllOrNothing tornRecord 512 ∧ (Protectable tornRecord 512 → Restored tornRecord [1, 2] 512) ∧
      Untrusting .debug tornImage 0) := by
  have htorn : applyFixup tornRecord 512 = (false, tornRecord) := by decide +kernel
  refine ⟨htorn, by decide +kernel, fun h => ?_⟩
  have hread : ((record0 .debug tornImage 0).toOption.bind Except.toOption).map
      (fun r => (r.1.bytesPerSector, r.2)) = some (512, tornRecord) := by decide +kernel
  have hextent : mftDataExtent .debug tornRecord = .ok (.ok ([(some 1, 1)], 512)) := by decide +kernel
  rcases hrec0 : record0 .debug tornImage 0 with e | e | ⟨g, rec0⟩
  · rw [hrec0] at hread
    cases hread
  · rw [hrec0] at hread
    cases hread
  · rw [hrec0] at hread
    simp only [Except.toOption, Option.bind_some, Option.map_some, Option.some.injEq,
      Prod.mk.injEq] at hread
    obtain ⟨hbps, rfl⟩ := hread
    refine untrusting_iff.mp h.2.2 g tornRecord hrec0 ?_ (by decide +kernel) _ hextent
    rw [hbps, ← applyFixup_accepts_iff, htorn]
    decide

end Torn

end Unearth.Ntfs
