import Unearth.Lib.Bytes
import Unearth.Lib.Loop
import Unearth.ImageMap

/-!
# The imaging run

`image` copies a range of a failing source into an output file. The source is an
oracle: the outcome of a read depends on how many reads were issued before it, so
two attempts at one place may differ. Cancellation is polled in the same way. The
copy loop, its sector-wise fallback and the retry passes are the loops of the
source, each given by its body.
-/

namespace Unearth.Image
open Lines Decimal Spans Bytes Word Loop

def imageChunk : ℕ := 4 * 1024 * 1024
def sparseBlock : ℕ := 64 * 1024
def mapFlushInterval : ℕ := 64 * 1024 * 1024

structure ImageOptions where
  output : String := ""
  start : ℕ := 0
  end_ : Option ℕ := none
  sparse : Bool := true
  sectorSize : ℕ := 512
  /-- Whether a map file is kept. -/
  map : Bool := false
  resume : Bool := false
  retries : ℕ := 0

structure ImageStats where
  bytesTotal : ℕ := 0
  bytesCopied : ℕ := 0
  bytesZeroed : ℕ := 0
  bytesSparse : ℕ := 0
  badRegions : List Span := []
  retryPasses : ℕ := 0
  bytesRecoveredRetry : ℕ := 0
  cancelled : Bool := false
  deriving DecidableEq

/-- What one read reports: an error, or the bytes it put into the buffer. -/
inductive Answer
  | err
  | ok (bytes : List UInt8)

/-- A positioned byte source; `readAt k` is the read issued after `k` others. A read
never delivers more than the buffer holds. -/
structure BlockSource where
  size : ℕ
  size_lt : size < 2 ^ 64
  readAt : ℕ → ℕ → ℕ → Answer
  readAt_le : ∀ k off len bytes, readAt k off len = .ok bytes → bytes.length ≤ len

/-- The two files of a run as they are on disk. -/
structure Disk where
  output : Option (List UInt8) := none
  map : Option Text := none
  deriving DecidableEq

inductive ImageError
  | map (e : MapError)
  | openImage
  deriving DecidableEq

/-- The variables of a run. `reads` and `polls` count the calls made so far. -/
structure State where
  out : List UInt8
  bad : List Span
  stats : ImageStats
  abs : ℕ
  reads : ℕ := 0
  polls : ℕ := 0
  lastFlush : ℕ := 0
  map : Option Text := none
  deriving DecidableEq

def State.copied (s : State) (off : ℕ) (data : List UInt8) : State :=
  { s with
    out := writeAt s.out off data
    stats := { s.stats with bytesCopied := s.stats.bytesCopied + data.length } }

def State.skipped (s : State) (n : ℕ) : State :=
  { s with stats := { s.stats with bytesSparse := s.stats.bytesSparse + n } }

def writeBlocks : ℕ → List (List UInt8) → State → State
  | _, [], s => s
  | off, block :: blocks, s =>
    if block.all (· == 0) then writeBlocks (off + sparseBlock) blocks (s.skipped block.length)
    else writeBlocks (off + sparseBlock) blocks (s.copied off block)

def writeRegion (sparse : Bool) (outOff : ℕ) (data : List UInt8) (s : State) : State :=
  if sparse then writeBlocks outOff (chunks sparseBlock data) s
  else s.copied outOff data

def mergeRegions (sectors : List Span) : List Span := coalesce sectors

section Run

variable (src : BlockSource) (opts : ImageOptions) (cancelled : ℕ → Bool)

def ImageOptions.sector : ℕ := max opts.sectorSize 1
def ImageOptions.stop : ℕ := min (opts.end_.getD src.size) src.size
def ImageOptions.first : ℕ := min opts.start (opts.stop src)

theorem sector_pos : 0 < opts.sector := by simp [ImageOptions.sector]

/-- Leave a hole for an unreadable sector and record it. -/
def State.lost (s : State) (pos len : ℕ) : State :=
  { s with
    bad := s.bad ++ [⟨pos, len⟩]
    stats := { s.stats with bytesZeroed := s.stats.bytesZeroed + len } }

/-- One sector of the fallback, between the read position and the end of the block. -/
def sectorBody (start blockEnd : ℕ) : ℕ × State → Ctl (ℕ × State) State
  | (pos, s) =>
    if pos < blockEnd then
      let len := min opts.sector (blockEnd - pos)
      let s' := { s with reads := s.reads + 1 }
      match src.readAt s.reads pos len with
      | .ok bytes =>
        if 0 < bytes.length then
          .next (pos + bytes.length, writeRegion opts.sparse (pos - start) bytes s')
        else .next (pos + len, s'.lost pos len)
      | .err => .next (pos + len, s'.lost pos len)
    else .done s

def sectorLoop (start blockEnd : ℕ) : While (ℕ × State) State where
  body := sectorBody src opts start blockEnd
  measure p := blockEnd - p.1
  decreases := by
    rintro ⟨pos, s⟩ p h
    have hs := sector_pos opts
    simp only [sectorBody] at h
    split_ifs at h with hlt
    split at h
    · split_ifs at h <;> cases h <;> simp only <;> omega
    · cases h; simp only; omega

/-- The periodic checkpoint at the end of an iteration of the copy loop. -/
def flushMap (stop : ℕ) (s : State) : State :=
  if opts.map ∧ mapFlushInterval ≤ s.abs - s.lastFlush then
    { s with map := some (writeMap stop s.abs (mergeRegions s.bad)), lastFlush := s.abs }
  else s

def copyBody (start stop : ℕ) (s : State) : Ctl State State :=
  if s.abs < stop then
    if cancelled s.polls then
      .done { s with polls := s.polls + 1, stats := { s.stats with cancelled := true } }
    else
      let want := min (stop - s.abs) imageChunk
      let s' := { s with polls := s.polls + 1, reads := s.reads + 1 }
      match src.readAt s.reads s.abs want with
      | .ok [] => .done s'
      | .ok bytes =>
        let s' := writeRegion opts.sparse (s.abs - start) bytes s'
        .next (flushMap opts stop { s' with abs := s.abs + bytes.length })
      | .err =>
        let blockEnd := s.abs + want
        let s' := (sectorLoop src opts start blockEnd).eval (s.abs, s')
        .next (flushMap opts stop { s' with abs := blockEnd })
  else .done s

@[simp]
theorem flushMap_abs (stop : ℕ) (s : State) : (flushMap opts stop s).abs = s.abs := by
  unfold flushMap
  split_ifs <;> rfl

theorem imageChunk_pos : 0 < imageChunk := by decide

def copyLoop (start stop : ℕ) : While State State where
  body := copyBody src opts cancelled start stop
  measure s := stop - s.abs
  decreases := by
    intro s s' h
    have hc := imageChunk_pos
    simp only [copyBody] at h
    split_ifs at h with hlt
    split at h
    · cases h
    · rename_i bytes hne _
      have hpos : 0 < bytes.length := List.length_pos_iff.mpr fun he => hne he
      cases h
      simp only [flushMap_abs]
      omega
    · cases h
      simp only [flushMap_abs]
      omega

/-- Where the retry of one region stands: the position and whether the pass has read
anything. -/
structure Retry where
  pos : ℕ
  recovered : Bool
  state : State

def State.salvaged (s : State) (n : ℕ) : State :=
  { s with
    stats := { s.stats with
      bytesZeroed := s.stats.bytesZeroed - n
      bytesRecoveredRetry := s.stats.bytesRecoveredRetry + n } }

def State.stillBad (s : State) (pos len : ℕ) : State := { s with bad := s.bad ++ [⟨pos, len⟩] }

/-- One sector of a region that is read again; `true` when the run is cancelled there. -/
def regionBody (start regionEnd : ℕ) (r : Retry) : Ctl Retry (Bool × Retry) :=
  if r.pos < regionEnd then
    if cancelled r.state.polls then
      .done (true, { r with state := { r.state with
        polls := r.state.polls + 1, stats := { r.state.stats with cancelled := true } } })
    else
      let len := min opts.sector (regionEnd - r.pos)
      let s := { r.state with polls := r.state.polls + 1, reads := r.state.reads + 1 }
      match src.readAt r.state.reads r.pos len with
      | .ok bytes =>
        if 0 < bytes.length then
          .next ⟨r.pos + bytes.length, true,
            (writeRegion opts.sparse (r.pos - start) bytes s).salvaged bytes.length⟩
        else .next ⟨r.pos + len, r.recovered, s.stillBad r.pos len⟩
      | .err => .next ⟨r.pos + len, r.recovered, s.stillBad r.pos len⟩
  else .done (false, r)

def regionLoop (start regionEnd : ℕ) : While Retry (Bool × Retry) where
  body := regionBody src opts cancelled start regionEnd
  measure r := regionEnd - r.pos
  decreases := by
    intro r r' h
    have hs := sector_pos opts
    simp only [regionBody] at h
    split_ifs at h with hlt
    split at h
    · split_ifs at h <;> cases h <;> simp only <;> omega
    · cases h; simp only; omega

/-- The regions of one pass; on cancellation the rest of the region and every later
region go back into the list. -/
def retryRegions (start : ℕ) : List Span → Bool → State → Bool × Bool × State
  | [], recovered, s => (false, recovered, s)
  | region :: later, recovered, s =>
    match (regionLoop src opts cancelled start region.stop).eval ⟨region.offset, recovered, s⟩ with
    | (true, r) =>
      (true, r.recovered,
        { r.state with bad := r.state.bad ++ ⟨r.pos, region.stop - r.pos⟩ :: later })
    | (false, r) => retryRegions start later r.recovered r.state

def retryPasses (start stop : ℕ) : ℕ → State → State
  | 0, s => s
  | passes + 1, s =>
    if s.bad = [] then s
    else match retryRegions src opts cancelled start (mergeRegions s.bad) false { s with bad := [] } with
      | (true, _, s) => s
      | (false, recovered, s) =>
        let s := { s with stats := { s.stats with retryPasses := s.stats.retryPasses + 1 } }
        let s := if opts.map then { s with map := some (writeMap stop stop (mergeRegions s.bad)) } else s
        if recovered then retryPasses start stop passes s else s

def retryBadRegions (start : ℕ) (s : State) : State :=
  retryPasses src opts cancelled start (opts.stop src) opts.retries s

/-- The map to resume from, once it is read, parsed and validated. -/
def loadMap (disk : Disk) (start stop : ℕ) : Except ImageError (Option ImageMap) :=
  if opts.resume ∧ opts.map then
    match disk.map with
    | none => .ok none
    | some text =>
      let saved := parseMap text
      match validateMap saved start stop opts.output (disk.output.elim 0 List.length) with
      | .error e => .error (.map e)
      | .ok accepted => .ok (if accepted then some saved else none)
  else .ok none

/-- The variables with which the copy loop starts. -/
def startState (disk : Disk) (start stop : ℕ) : Option ImageMap → Except ImageError State
  | none => .ok
    { out := setLen [] (stop - start), bad := [], stats := { bytesTotal := stop - start }
      abs := start, lastFlush := start, map := disk.map }
  | some saved =>
    match disk.output with
    | none => .error .openImage
    | some image => .ok
      { out := setLen image (stop - start), bad := saved.bad
        stats := { bytesTotal := stop - start, bytesZeroed := total saved.bad }
        abs := saved.pos, lastFlush := saved.pos, map := disk.map }

/-- The run from its starting variables to the end of the retry passes. -/
def copyAll (s : State) : State :=
  let s := (copyLoop src opts cancelled (opts.first src) (opts.stop src)).eval s
  if ¬ s.stats.cancelled ∧ 0 < opts.retries ∧ s.bad ≠ [] then
    retryBadRegions src opts cancelled (opts.first src) s
  else s

def finish (stop : ℕ) (s : State) : ImageStats × Disk :=
  let badRegions := mergeRegions s.bad
  ({ s.stats with badRegions := badRegions },
    { output := some s.out
      map := if opts.map then some (writeMap stop s.abs badRegions) else s.map })

/-- The variables of a run when its loops are over. -/
def imageRun (disk : Disk) : Except ImageError State := do
  let saved ← loadMap opts disk (opts.first src) (opts.stop src)
  let s ← startState disk (opts.first src) (opts.stop src) saved
  return copyAll src opts cancelled s

def image (disk : Disk) : Except ImageError (ImageStats × Disk) :=
  (imageRun src opts cancelled disk).map (finish opts (opts.stop src))

end Run

end Unearth.Image
