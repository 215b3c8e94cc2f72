import Unearth.Checkpoint
import Unearth.FileLength
import Unearth.OutputFolder
import Unearth.Scan

/-!
# The carving run

The scan hands every match to `candidate`, which decides whether it is a file, writes it
and moves the boundary below which nothing more is carved. The run goes from chunk to
chunk, can be cancelled between two of them, and leaves a checkpoint to resume from.
-/

namespace Unearth
open Lines Decimal Hex Bytes Word Loop

def COPY_CHUNK : ℕ := 4 * mb
def CHECKPOINT_INTERVAL : ℕ := 256 * mb
def HEADER_LEN : ℕ := 64

structure CarveOptions where
  start : ℕ
  end_ : Option ℕ
  minSize : ℕ
  maxSize : Option ℕ
  maxFiles : Option ℕ
  allowNested : Bool
  validate : Bool
  dedup : Bool
  /-- Whether a checkpoint file is kept. -/
  checkpoint : Bool
  resume : Bool
  organize : Bool
  dryRun : Bool
  align : ℕ

inductive Validity
  | valid
  | invalid
  | unknown
  deriving DecidableEq

def Validity.accept (v : Validity) : Bool := v ≠ .invalid

/-- What the run takes as it comes: the other length strategies, the header checks of the
types and the digest. -/
structure Formats where
  walk : Walker
  validate : Signature → List UInt8 → Validity
  sha256 : List UInt8 → Digest

inductive Outcome
  | skippedLarge
  | rejected
  | duplicate
  | recovered
  deriving DecidableEq

/-- A candidate that was decided, and what became of it. -/
structure Decision where
  magicAbs : ℕ
  fileStart : ℕ
  len : ℕ
  outcome : Outcome
  deriving DecidableEq

/-- The variables of a run that its candidates change. The `log` is a history variable:
the program does not have it. -/
structure Carving where
  stats : CarveStats := {}
  skipUntil : ℕ := 0
  seen : List Digest := []
  folder : Folder := []
  log : List Decision := []

/-- A counter of candidates. It never comes near its end, so that no build stops at it. -/
def tick (n : ℕ) : ℕ := wrapAdd n 1

def CarveStats.countConfidence (s : CarveStats) : Confidence → CarveStats
  | .verified => { s with verified := tick s.verified }
  | .plausible_ => { s with plausible_ := tick s.plausible_ }
  | .truncated => { s with truncated := tick s.truncated }

section Candidate

variable (b : Build) (fmt : Formats) (src : Source) (opts : CarveOptions) (scanEnd : ℕ)

def validationOf (sig : Signature) (fileStart len : ℕ) : Exec Validity := do
  let hdr ← src.readAt fileStart (min len HEADER_LEN)
  return fmt.validate sig hdr

/-- The strategies that return a length only when they have seen the end of the file. -/
def Extent.endWasMarked : Extent → Bool
  | .fixed _ => true
  | .footer _ _ => true
  | .jpeg => true
  | .headerSizeLe32 _ => true
  | .headerSizeBe32 _ => true
  | .sizeField _ _ _ _ _ => true
  | .riffSize => true
  | _ => false

def confidenceOf (sig : Signature) (fileStart len : ℕ) (validity : Validity) : Confidence :=
  let cap := min (satAdd fileStart sig.maxSize) scanEnd - fileStart
  if cap ≤ len ∧ !sig.extent.endWasMarked then .truncated
  else if validity = .valid then .verified
  else .plausible_

/-- The extension to write a file under: archives and compound files are looked into. -/
def effectiveExt (sig : Signature) (fileStart len : ℕ) : Exec Text :=
  if sig.ext ≠ "zip".toList ∧ sig.ext ≠ "ole".toList then return sig.ext
  else do
    let head ← src.readAt fileStart (min len (64 * kb))
    if sig.ext = "ole".toList then return (classifyCfbf head).getD "ole".toList
    else return (classifyZip head).getD "zip".toList

def copyBody (bufLen : ℕ) : ℕ × ℕ × List UInt8 → Ctl (ℕ × ℕ × List UInt8) (Exec (ℕ × List UInt8))
  | (pos, remaining, content) =>
    if 0 < remaining then
      match src.readAt pos (min remaining bufLen) with
      | .error f => .done (.error f)
      | .ok [] => .done (.ok (remaining, content))
      | .ok (byte :: bytes) =>
        let n := bytes.length + 1
        .next (pos + n, remaining - n, content ++ byte :: bytes)
    else .done (.ok (remaining, content))

def copyLoop (bufLen : ℕ) : While (ℕ × ℕ × List UInt8) (Exec (ℕ × List UInt8)) where
  body := copyBody src bufLen
  measure p := p.2.1
  decreases := by
    rintro ⟨pos, remaining, content⟩ p h
    simp only [copyBody] at h
    split_ifs at h with hpos
    split at h <;> cases h
    simp only
    omega

/-- The bytes of a file in pieces of the copy buffer, and how many the source did not have. -/
def copyRange (fileStart len : ℕ) : Exec (ℕ × List UInt8) :=
  (copyLoop src (min (max len 1) COPY_CHUNK)).eval (fileStart, len, [])

def outputName (filesRecovered fileStart : ℕ) (ext : Text) : Text :=
  pad 8 (decimal filesRecovered) ++ '_' :: ("0x".toList ++ pad 14 (hex fileStart) ++ '.' :: ext)

/-- The components of a path with slashes between them. -/
def manifestName : Path → Text
  | [] => []
  | [comp] => comp
  | comp :: rest => comp ++ '/' :: manifestName rest

/-- Where a file goes below the output folder. -/
def outputPath (filesRecovered fileStart : ℕ) (ext : Text) : Path :=
  let base := outputName filesRecovered fileStart ext
  if opts.organize then [ext, base] else [base]

/-- The new file; a preview only says what it would be called. -/
def openOutput (folder : Folder) (rel : Path) : Exec (Path × Folder) :=
  if opts.dryRun then return (confine rel, folder) else createOutputFile folder rel

/-- Write a file out, unless it is a copy of one that was written before. -/
def writeFile (sig : Signature) (fileStart len : ℕ) (confidence : Confidence) (c : Carving) :
    Exec (Carving × Outcome) := do
  let ext ← effectiveExt src sig fileStart len
  let (path, folder) ← openOutput opts c.folder
    (outputPath opts c.stats.filesRecovered fileStart ext)
  let (remaining, content) ← copyRange src fileStart len
  let folder := if opts.dryRun then folder else folder.fill path content
  let digest := fmt.sha256 content
  if opts.dedup ∧ digest ∈ c.seen then
    let stats := { c.stats with duplicates := tick c.stats.duplicates }
    return ({ c with stats, folder := if opts.dryRun then folder else folder.remove path }, .duplicate)
  else
    let written := len - remaining
    let bytesRecovered ← plus b c.stats.bytesRecovered written
    let confidence := if 0 < remaining then .truncated else confidence
    let stats := { c.stats with filesRecovered := tick c.stats.filesRecovered, bytesRecovered }
    let stats := (stats.countConfidence confidence).record
      { name := manifestName path, ext, offset := fileStart, size := written, sha256 := digest,
        confidence }
    let seen := if opts.dedup then insertDigest digest c.seen else c.seen
    return ({ c with stats, folder, seen }, .recovered)

/-- The file start of a match, when it is one that may be carved. -/
def eligible (sig : Signature) (magicAbs skipUntil : ℕ) : Option ℕ :=
  if sig.magicOffset ≤ magicAbs then
    let fileStart := magicAbs - sig.magicOffset
    if (opts.align ≤ 1 ∨ fileStart % opts.align = 0) ∧ (opts.allowNested ∨ skipUntil ≤ fileStart) then
      some fileStart
    else none
  else none

/-- Move the boundary behind a file, unless other files may lie in it. -/
def skipPast (sig : Signature) (fileStart len : ℕ) (c : Carving) : Exec Carving :=
  if !opts.allowNested && !sig.isVolume then do
    return { c with skipUntil := ← plus b fileStart len }
  else return c

/-- What becomes of a match; the flag says that the limit of files is reached. -/
def candidate (sig : Signature) (magicAbs : ℕ) (c : Carving) : Exec (Carving × Bool) :=
  match eligible opts sig magicAbs c.skipUntil with
  | none => return (c, false)
  | some fileStart => do
    match ← fileLength fmt.walk b src sig fileStart scanEnd with
    | none => return (c, false)
    | some len =>
      let note (c : Carving) (outcome : Outcome) : Carving :=
        { c with log := c.log ++ [⟨magicAbs, fileStart, len, outcome⟩] }
      if len < opts.minSize then return (c, false)
      else if opts.maxSize.any (· < len) then
        let stats := { c.stats with skippedLarge := tick c.stats.skippedLarge }
        let c ← skipPast b opts sig fileStart len { c with stats }
        return (note c .skippedLarge, false)
      else
        let validity ← validationOf fmt src sig fileStart len
        if opts.validate && !validity.accept then
          let stats := { c.stats with rejected := tick c.stats.rejected }
          return (note { c with stats } .rejected, false)
        else
          let confidence := confidenceOf scanEnd sig fileStart len validity
          let (c, outcome) ← writeFile b fmt src opts sig fileStart len confidence c
          let c ← skipPast b opts sig fileStart len c
          return (note c outcome, opts.maxFiles.any (· ≤ c.stats.filesRecovered))

def visit : Visit Carving Carving := fun magicAbs sig c =>
  match candidate b fmt src opts scanEnd sig magicAbs c with
  | .error f => .done (.error f)
  | .ok (c, false) => .next c
  | .ok (c, true) => .done (.ok c)

end Candidate

/-- The variables of a run, with its checkpoint file as it is on disk. -/
structure CarveState where
  abs : ℕ
  lastCheckpoint : ℕ
  polls : ℕ
  checkpoint : Option Text
  carving : Carving

/-- What a run finds and what it leaves: the checkpoint file and the output folder. -/
structure CarveDisk where
  checkpoint : Option Text := none
  folder : Folder := []
  log : List Decision := []

section Run

variable (b : Build) (fmt : Formats) (src : Source) (active : List Signature) (opts : CarveOptions)
  (cancelled : ℕ → Bool)

def CarveOptions.stop : ℕ := scanEndOf src opts.end_
def CarveOptions.first : ℕ := baseStartOf src opts.start opts.end_

/-- Write the checkpoint, when one is kept. -/
def CarveState.save (s : CarveState) : CarveState :=
  if opts.checkpoint then
    { s with
      checkpoint := some (writeCheckpoint s.abs (opts.stop src) s.carving.skipUntil s.carving.stats
        s.carving.seen opts.dedup) }
  else s

def CarveState.advance (s : CarveState) (abs : ℕ) (c : Carving) : CarveState :=
  let c := { c with stats := { c.stats with bytesScanned := abs - opts.first src } }
  let s := { s with abs, polls := s.polls + 1, carving := c }
  if opts.checkpoint ∧ CHECKPOINT_INTERVAL ≤ abs - s.lastCheckpoint then
    { s.save src opts with lastCheckpoint := abs }
  else s

def carveBody (sc : Scanner) (s : CarveState) : Ctl CarveState (Exec CarveState) :=
  if s.abs < opts.stop src then
    if cancelled s.polls then .done (.ok (s.save src opts))
    else match scanChunk b src sc (opts.stop src) (visit b fmt src opts (opts.stop src)) s.abs s.carving with
      | .exit (.error f) => .done (.error f)
      -- the limit is reached inside of a chunk, whose start is what the checkpoint says
      | .exit (.ok c) => .done (.ok ({ s with carving := c }.save src opts))
      | .empty => .done (.ok (s.save src opts))
      | .advance abs c => .next (s.advance src opts abs c)
  else .done (.ok (s.save src opts))

/-- The checkpoint that a run resumes from. -/
def resumeFrom (disk : CarveDisk) : Option LoadedCheckpoint :=
  if opts.resume ∧ opts.checkpoint then disk.checkpoint.map readCheckpoint else none

def startState (seed : List Digest) (disk : CarveDisk) : CarveState :=
  let fresh : Carving := { seen := seed, folder := disk.folder, log := disk.log }
  match resumeFrom opts disk with
  | none => ⟨opts.first src, opts.first src, 0, disk.checkpoint, fresh⟩
  | some saved =>
    let abs := max (opts.first src) (min saved.pos (opts.stop src))
    ⟨abs, abs, 0, disk.checkpoint,
      { fresh with
        stats := saved.stats
        skipUntil := saved.skipUntil
        seen := saved.seen.foldl (fun acc h => insertDigest h acc) seed }⟩

/-- At most `fuel` chunks of a run; `none` while it is still going. -/
def carve (seed : List Digest) (disk : CarveDisk) (fuel : ℕ) : Option (Exec CarveState) :=
  match Scanner.build b active SCAN_CHUNK with
  | .error f => some (.error f)
  | .ok sc => run (carveBody b fmt src opts cancelled sc) fuel (startState src opts seed disk)

def CarveState.disk (s : CarveState) : CarveDisk := ⟨s.checkpoint, s.carving.folder, s.carving.log⟩

end Run

end Unearth
