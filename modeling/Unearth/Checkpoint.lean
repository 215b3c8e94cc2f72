import Unearth.Lib.Hex
import Unearth.SignatureTable

/-!
# The scan checkpoint

A checkpoint records the position of a scan, the boundary below which nothing is carved,
the tally, the digests of the files already written and one row for each file. It is read
back leniently: a line that does not parse is skipped.
-/

namespace Unearth
open Lines Decimal Hex

abbrev Digest := { bytes : List UInt8 // bytes.length = 32 }

instance : LawfulBEq Digest := inferInstance

inductive Confidence
  | verified
  | plausible_
  | truncated
  deriving DecidableEq

def Confidence.asStr : Confidence → Text
  | .verified => "verified".toList
  | .plausible_ => "plausible".toList
  | .truncated => "truncated".toList

structure CarvedFile where
  name : Text
  ext : Text
  offset : ℕ
  size : ℕ
  sha256 : Digest
  confidence : Confidence
  deriving DecidableEq

structure CarveStats where
  bytesScanned : ℕ := 0
  verified : ℕ := 0
  plausible_ : ℕ := 0
  truncated : ℕ := 0
  filesRecovered : ℕ := 0
  bytesRecovered : ℕ := 0
  rejected : ℕ := 0
  duplicates : ℕ := 0
  skippedLarge : ℕ := 0
  perType : Text → ℕ := fun _ => 0
  files : List CarvedFile := []

/-- Put a row down and count its type. -/
def CarveStats.record (s : CarveStats) (f : CarvedFile) : CarveStats :=
  { s with
    perType := fun ext => if ext = f.ext then s.perType ext + 1 else s.perType ext
    files := s.files ++ [f] }

/-- The set of digests as a list; the order of a set of digests has no meaning. -/
def insertDigest (h : Digest) (seen : List Digest) : List Digest :=
  if h ∈ seen then seen else seen ++ [h]

theorem mem_insertDigest {h k : Digest} {seen : List Digest} :
    k ∈ insertDigest h seen ↔ k = h ∨ k ∈ seen := by
  unfold insertDigest
  split_ifs with hm
  · constructor
    · exact .inr
    · rintro (rfl | hk)
      · exact hm
      · exact hk
  · rw [List.mem_append, List.mem_singleton, or_comm]

/-- What is restored from a checkpoint. -/
structure LoadedCheckpoint where
  pos : ℕ := 0
  skipUntil : ℕ := 0
  seen : List Digest := []
  stats : CarveStats := {}

def checkpointHeader : Text := "# unearth scan checkpoint v1".toList
def fieldLine (key : String) (n : ℕ) : Text := key.toList ++ ' ' :: decimal n
def seenLine (h : Digest) : Text := "seen".toList ++ ' ' :: toHex h.1

def fileLine (f : CarvedFile) : Text :=
  "file".toList ++ ' ' :: (f.ext ++ ' ' :: (decimal f.offset ++ ' ' :: (decimal f.size ++ ' ' ::
    (toHex f.sha256.1 ++ ' ' :: (f.name ++ ' ' :: f.confidence.asStr)))))

def fieldLines (pos stop skipUntil : ℕ) (stats : CarveStats) : List Text := [
  fieldLine "pos" pos,
  fieldLine "end" stop,
  fieldLine "skip_until" skipUntil,
  fieldLine "files" stats.filesRecovered,
  fieldLine "bytes" stats.bytesRecovered,
  fieldLine "rejected" stats.rejected,
  fieldLine "duplicates" stats.duplicates,
  fieldLine "verified" stats.verified,
  fieldLine "plausible" stats.plausible_,
  fieldLine "truncated" stats.truncated]

def checkpointLines (pos stop skipUntil : ℕ) (stats : CarveStats) (seen : List Digest)
    (dedup : Bool) : List Text :=
  checkpointHeader :: fieldLines pos stop skipUntil stats ++
    (if dedup then seen.map seenLine else []) ++ stats.files.map fileLine

def writeCheckpoint (pos stop skipUntil : ℕ) (stats : CarveStats) (seen : List Digest)
    (dedup : Bool) : Text :=
  unlines (checkpointLines pos stop skipUntil stats seen dedup)

/-- The extension, when it is one of the built-in table. -/
def internExt (s : Text) : Option Text := (signatures.map Signature.ext).find? (· = s)

def parseHex32 (s : Text) : Option Digest :=
  if s.length ≠ 64 then none
  else match parseHex s with
    | none => none
    | some bytes => if h : bytes.length = 32 then some ⟨bytes, h⟩ else none

def parseGrade (grade : Text) : Confidence :=
  if grade = "verified".toList then .verified
  else if grade = "truncated".toList then .truncated
  else .plausible_

/-- A row from its fields; the last one holds the name and the grade. -/
def readRow : List Text → Option CarvedFile
  | ext :: offset :: size :: sha :: rest :: _ =>
    match internExt ext, parseU64 offset, parseU64 size, parseHex32 sha with
    | some ext, some offset, some size, some sha256 =>
      let (name, grade) := (rsplitOnce ' ' rest).getD (rest, [])
      some { name, ext, offset, size, sha256, confidence := parseGrade grade }
    | _, _, _, _ => none
  | _ => none

def readItem (l : LoadedCheckpoint) (key : Text) (args : List Text) : LoadedCheckpoint :=
  let number := args.head?.bind parseU64
  if key = "pos".toList then { l with pos := number.getD l.pos }
  else if key = "skip_until".toList then { l with skipUntil := number.getD l.skipUntil }
  else if key = "files".toList then
    { l with stats := { l.stats with filesRecovered := number.getD 0 } }
  else if key = "bytes".toList then
    { l with stats := { l.stats with bytesRecovered := number.getD 0 } }
  else if key = "rejected".toList then
    { l with stats := { l.stats with rejected := number.getD 0 } }
  else if key = "duplicates".toList then
    { l with stats := { l.stats with duplicates := number.getD 0 } }
  else if key = "verified".toList then
    { l with stats := { l.stats with verified := number.getD 0 } }
  else if key = "plausible".toList then
    { l with stats := { l.stats with plausible_ := number.getD 0 } }
  else if key = "truncated".toList then
    { l with stats := { l.stats with truncated := number.getD 0 } }
  else if key = "seen".toList then
    match args.head?.bind parseHex32 with
    | some h => { l with seen := insertDigest h l.seen }
    | none => l
  else if key = "file".toList then
    match readRow args with
    | some f => { l with stats := l.stats.record f }
    | none => l
  else l

def readLine (l : LoadedCheckpoint) (line : Text) : LoadedCheckpoint :=
  let line := trim line
  if line = [] ∨ line.head? = some '#' then l
  else match splitn ' ' 6 line with
    | [] => l
    | key :: args => readItem l key args

def readCheckpoint (text : Text) : LoadedCheckpoint := (lines text).foldl readLine {}

/-- What a row has to be for its line to hold it. -/
structure CarvedFile.Printable (f : CarvedFile) : Prop where
  name : Token f.name
  ext : Token f.ext
  offset_lt : f.offset < 2 ^ 64
  size_lt : f.size < 2 ^ 64

/-- A tally that the text of a checkpoint can hold: the counters are words, the rows are
printable, and the types are counted by the rows. -/
structure CarveStats.Printable (s : CarveStats) : Prop where
  files_lt : s.filesRecovered < 2 ^ 64
  bytes_lt : s.bytesRecovered < 2 ^ 64
  rejected_lt : s.rejected < 2 ^ 64
  duplicates_lt : s.duplicates < 2 ^ 64
  verified_lt : s.verified < 2 ^ 64
  plausible_lt : s.plausible_ < 2 ^ 64
  truncated_lt : s.truncated < 2 ^ 64
  rows : ∀ f ∈ s.files, f.Printable
  perType : ∀ ext, s.perType ext = s.files.countP (·.ext = ext)

/-- Whether the extension is one that a row can be read back with. -/
def builtIn (ext : Text) : Bool := (internExt ext).isSome

/-- The tally that is left after a checkpoint: the rows of unknown types and the count of
skipped files are gone. -/
def CarveStats.restored (s : CarveStats) : CarveStats :=
  { s with
    bytesScanned := 0
    skippedLarge := 0
    perType := fun ext => (s.files.filter (builtIn ·.ext)).countP (·.ext = ext)
    files := s.files.filter (builtIn ·.ext) }

section Reading

theorem asStr_token (c : Confidence) : Token c.asStr := by cases c <;> decide

theorem parseGrade_asStr (c : Confidence) : parseGrade c.asStr = c := by cases c <;> decide

theorem internExt_some {s ext : Text} (h : internExt s = some ext) : ext = s := by
  simpa using List.find?_some h

theorem internExt_eq (s : Text) : internExt s = if builtIn s then some s else none := by
  unfold builtIn
  cases h : internExt s with
  | none => rfl
  | some ext => simp [internExt_some h]

theorem digest_token (h : Digest) : Token (toHex h.1) := by
  apply toHex_token
  intro hnil
  have := h.2
  rw [hnil] at this
  simp at this

theorem parseHex32_toHex (h : Digest) : parseHex32 (toHex h.1) = some h := by
  have hlen : (toHex h.1).length = 64 := by rw [length_toHex, h.2]
  simp [parseHex32, hlen, parseHex_toHex, h.2]

/-- A line of a key and its fields is read by the key. -/
theorem readLine_key (l : LoadedCheckpoint) {key rest last : Text} (hkey : Token key)
    (hhead : key.head? ≠ some '#') (hlast : Token last) (hrest : rest = last ∨ ∃ t, rest = t ++ ' ' :: last) :
    readLine l (key ++ ' ' :: rest) = readItem l key (splitn ' ' 5 rest) := by
  have htrim : trim (key ++ ' ' :: rest) = key ++ ' ' :: rest := by
    rcases hrest with rfl | ⟨t, rfl⟩
    · exact trim_pair hkey hlast
    · exact trim_triple hkey hlast
  have hfirst : (key ++ ' ' :: rest).head? = key.head? := List.head?_append_of_ne_nil _ hkey.1
  simp only [readLine, htrim, hfirst, hhead, or_false]
  rw [if_neg (by simp), splitn_append hkey.space_not_mem]

theorem readLine_field (l : LoadedCheckpoint) {key value : Text} (hkey : Token key)
    (hhead : key.head? ≠ some '#') (hvalue : Token value) :
    readLine l (key ++ ' ' :: value) = readItem l key [value] := by
  rw [readLine_key l hkey hhead hvalue (.inl rfl), splitn_of_not_mem hvalue.space_not_mem]

theorem readRow_fields {f : CarvedFile} (h : f.Printable) :
    readRow [f.ext, decimal f.offset, decimal f.size, toHex f.sha256.1,
      f.name ++ ' ' :: f.confidence.asStr] = if builtIn f.ext then some f else none := by
  have hgrade := (asStr_token f.confidence).space_not_mem
  simp only [readRow, internExt_eq, parseU64_decimal h.offset_lt, parseU64_decimal h.size_lt,
    parseHex32_toHex, rsplitOnce_append hgrade, Option.getD_some, parseGrade_asStr]
  split_ifs <;> rfl

theorem readLine_fileLine (l : LoadedCheckpoint) {f : CarvedFile} (h : f.Printable) :
    readLine l (fileLine f) =
      if builtIn f.ext then { l with stats := l.stats.record f } else l := by
  have hsplit : splitn ' ' 5 (f.ext ++ ' ' :: (decimal f.offset ++ ' ' :: (decimal f.size ++ ' ' ::
      (toHex f.sha256.1 ++ ' ' :: (f.name ++ ' ' :: f.confidence.asStr))))) =
      [f.ext, decimal f.offset, decimal f.size, toHex f.sha256.1,
        f.name ++ ' ' :: f.confidence.asStr] := by
    rw [splitn_append h.ext.space_not_mem, splitn_append (decimal_token _).space_not_mem,
      splitn_append (decimal_token _).space_not_mem, splitn_append (digest_token _).space_not_mem,
      splitn]
  rw [fileLine, readLine_key l (by decide) (by decide) (asStr_token f.confidence)
    (.inr ⟨f.ext ++ ' ' :: (decimal f.offset ++ ' ' :: (decimal f.size ++ ' ' ::
      (toHex f.sha256.1 ++ ' ' :: f.name))), by simp⟩), hsplit]
  have hitem (args : List Text) : readItem l "file".toList args =
      match readRow args with
      | some f => { l with stats := l.stats.record f }
      | none => l := rfl
  rw [hitem, readRow_fields h]
  cases builtIn f.ext <;> rfl

theorem foldl_fileLine (l : LoadedCheckpoint) {files : List CarvedFile}
    (h : ∀ f ∈ files, f.Printable) :
    (files.map fileLine).foldl readLine l =
      { l with stats := (files.filter (builtIn ·.ext)).foldl CarveStats.record l.stats } := by
  induction files generalizing l with
  | nil => rfl
  | cons f files ih =>
    rw [List.map_cons, List.foldl_cons, readLine_fileLine l (h f List.mem_cons_self),
      ih _ fun g hg => h g (List.mem_cons_of_mem _ hg), List.filter_cons]
    split_ifs <;> rfl

theorem foldl_record (files : List CarvedFile) (s : CarveStats) :
    files.foldl CarveStats.record s =
      { s with
        perType := fun ext => s.perType ext + files.countP (·.ext = ext)
        files := s.files ++ files } := by
  induction files generalizing s with
  | nil => simp
  | cons f files ih =>
    rw [List.foldl_cons, ih]
    simp only [CarveStats.record, List.append_assoc, List.singleton_append, List.countP_cons]
    congr 1
    funext ext
    by_cases he : ext = f.ext
    · simp [he]
      omega
    · simp [he, Ne.symm he]

theorem readLine_seenLine (l : LoadedCheckpoint) (h : Digest) :
    readLine l (seenLine h) = { l with seen := insertDigest h l.seen } := by
  rw [seenLine, readLine_field l (by decide) (by decide) (digest_token h)]
  simp [readItem, parseHex32_toHex]

theorem foldl_seenLine (l : LoadedCheckpoint) (seen : List Digest) :
    (seen.map seenLine).foldl readLine l =
      { l with seen := seen.foldl (fun acc h => insertDigest h acc) l.seen } := by
  induction seen generalizing l with
  | nil => rfl
  | cons h seen ih => rw [List.map_cons, List.foldl_cons, readLine_seenLine, ih]; rfl

theorem mem_foldl_insertDigest {h : Digest} (seen acc : List Digest) :
    h ∈ seen.foldl (fun acc h => insertDigest h acc) acc ↔ h ∈ acc ∨ h ∈ seen := by
  induction seen generalizing acc with
  | nil => simp
  | cons k seen ih =>
    rw [List.foldl_cons, ih, mem_insertDigest, List.mem_cons]
    tauto

theorem readLine_header (l : LoadedCheckpoint) : readLine l checkpointHeader = l := by
  have hhead := trim_head (c := '#') (by decide) " unearth scan checkpoint v1".toList
  have hheader : checkpointHeader = '#' :: " unearth scan checkpoint v1".toList := by decide
  simp only [readLine, hheader, hhead, or_true, if_true]

theorem readLine_number (l : LoadedCheckpoint) {key : String} (hkey : Token key.toList)
    (hhead : key.toList.head? ≠ some '#') (n : ℕ) :
    readLine l (fieldLine key n) = readItem l key.toList [decimal n] :=
  readLine_field l hkey hhead (decimal_token n)

theorem foldl_fieldLines {pos skipUntil : ℕ} (stop : ℕ) {stats : CarveStats} (hp : pos < 2 ^ 64)
    (hs : skipUntil < 2 ^ 64) (h : stats.Printable) :
    (fieldLines pos stop skipUntil stats).foldl readLine {} =
      { pos, skipUntil
        stats := { stats with bytesScanned := 0, skippedLarge := 0, perType := fun _ => 0, files := [] } } := by
  simp only [fieldLines, List.foldl_cons, List.foldl_nil]
  iterate 10 rw [readLine_number _ (by decide) (by decide)]
  simp [readItem, parseU64_decimal hp, parseU64_decimal hs, parseU64_decimal h.files_lt,
    parseU64_decimal h.bytes_lt, parseU64_decimal h.rejected_lt, parseU64_decimal h.duplicates_lt,
    parseU64_decimal h.verified_lt, parseU64_decimal h.plausible_lt, parseU64_decimal h.truncated_lt]

theorem checkpointLines_oneLine (pos stop skipUntil : ℕ) {stats : CarveStats} (seen : List Digest)
    (dedup : Bool) (h : stats.Printable) :
    ∀ l ∈ checkpointLines pos stop skipUntil stats seen dedup, OneLine l := by
  have hfield (key : String) (n : ℕ) (hk : OneLine key.toList) : OneLine (fieldLine key n) :=
    oneLine_append hk (decimal_token n).oneLine
  have hfields : ∀ l ∈ fieldLines pos stop skipUntil stats, OneLine l := by
    simp only [fieldLines, List.forall_mem_cons, List.not_mem_nil, false_imp_iff, implies_true,
      and_true]
    refine ⟨?_, ?_, ?_, ?_, ?_, ?_, ?_, ?_, ?_, ?_⟩
    all_goals exact hfield _ _ (by decide)
  intro l hl
  simp only [checkpointLines, List.cons_append, List.mem_cons, List.mem_append, List.mem_map] at hl
  rcases hl with rfl | (hl | hl) | ⟨f, hf, rfl⟩
  · unfold checkpointHeader
    decide
  · exact hfields l hl
  · split_ifs at hl
    · obtain ⟨d, -, rfl⟩ := List.mem_map.mp hl
      exact oneLine_append (by decide) (digest_token d).oneLine
    · exact absurd hl (by simp)
  · have hf := h.rows f hf
    exact oneLine_append (by decide) (oneLine_append hf.ext.oneLine
      (oneLine_append (decimal_token _).oneLine (oneLine_append (decimal_token _).oneLine
        (oneLine_append (digest_token _).oneLine
          (oneLine_append hf.name.oneLine (asStr_token _).oneLine)))))

/-- A checkpoint is read back as the tally without its rows of unknown types. -/
theorem readCheckpoint_writeCheckpoint {pos skipUntil : ℕ} (stop : ℕ) {stats : CarveStats}
    (seen : List Digest) (dedup : Bool) (hp : pos < 2 ^ 64) (hs : skipUntil < 2 ^ 64)
    (h : stats.Printable) :
    ∃ seen', readCheckpoint (writeCheckpoint pos stop skipUntil stats seen dedup) =
        ⟨pos, skipUntil, seen', stats.restored⟩ ∧
      ∀ d, d ∈ seen' ↔ dedup = true ∧ d ∈ seen := by
  have hlines := checkpointLines_oneLine pos stop skipUntil seen dedup h
  refine ⟨(if dedup then seen else []).foldl (fun acc h => insertDigest h acc) [], ?_, fun d => ?_⟩
  · have hseen : (if dedup then seen.map seenLine else []) = (if dedup then seen else []).map seenLine := by
      cases dedup <;> rfl
    rw [readCheckpoint, writeCheckpoint, lines_unlines hlines, checkpointLines, hseen,
      List.cons_append, List.cons_append, List.foldl_cons, readLine_header, List.foldl_append,
      List.foldl_append, foldl_fieldLines stop hp hs h, foldl_seenLine, foldl_fileLine _ h.rows,
      foldl_record]
    simp only [CarveStats.restored, Nat.zero_add, List.nil_append]
  · rw [mem_foldl_insertDigest]
    cases dedup <;> simp

end Reading

end Unearth
