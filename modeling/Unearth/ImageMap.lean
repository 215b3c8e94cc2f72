import Unearth.Lib.Decimal
import Unearth.Lib.Spans
import Unearth.Lib.Word

/-!
# The map file of an imaging run

The map records the end of the copied range, the position reached and the
unreadable regions, one item a line. It is parsed leniently, checked against the
run that is about to resume from it, and written over in place.
-/

namespace Unearth.Image
open Lines Decimal Spans Word

/-- Parsed contents of a map file. -/
structure ImageMap where
  total : Option ℕ
  pos : ℕ
  bad : List Span
  deriving DecidableEq

/-- The reasons for which a map is refused, with the values their messages print. -/
inductive MapError
  | differentRange (total stop : ℕ)
  | position (pos start stop : ℕ)
  | outside (off len start stop : ℕ)
  | overlapping (off : ℕ)
  | shortImage (output : String) (have_ copied : ℕ)
  deriving DecidableEq

def MapError.message : MapError → Text
  | .differentRange total stop =>
    "image map is for a different range (it ends at ".toList ++ decimal total ++
      ", this copy ends at ".toList ++ decimal stop ++ ")".toList
  | .position pos start stop =>
    "image map position ".toList ++ decimal pos ++ " is outside this copy's range ".toList ++
      decimal start ++ "..".toList ++ decimal stop
  | .outside off len start stop =>
    "image map names an unreadable region ".toList ++ decimal off ++ "+".toList ++ decimal len ++
      " outside ".toList ++ decimal start ++ "..".toList ++ decimal stop
  | .overlapping off =>
    "image map has overlapping unreadable regions at ".toList ++ decimal off
  | .shortImage output have_ copied =>
    "image ".toList ++ output.toList ++ " holds ".toList ++ decimal have_ ++
      " bytes but the map says ".toList ++ decimal copied ++
      " were copied; it is not the image this map describes".toList

/-- The loop over the recorded regions; `lastEnd` is the end of the one before. -/
def validateRegions (start stop : ℕ) : ℕ → List Span → Except MapError Unit
  | _, [] => .ok ()
  | lastEnd, r :: bad =>
    let regionEnd := satAdd r.offset r.len
    if r.offset < start ∨ stop < regionEnd then .error (.outside r.offset r.len start stop)
    else if r.offset < lastEnd then .error (.overlapping r.offset)
    else validateRegions start stop regionEnd bad

/-- `have_` is the length of the image on disk, zero when there is none. -/
def validateMap (map : ImageMap) (start stop : ℕ) (output : String) (have_ : ℕ) :
    Except MapError Bool :=
  match map.total with
  | none => .ok false
  | some total =>
    if total ≠ stop then .error (.differentRange total stop)
    else if map.pos < start ∨ stop < map.pos then .error (.position map.pos start stop)
    else match validateRegions start stop 0 map.bad with
      | .error e => .error e
      | .ok () =>
        if have_ < map.pos - start then .error (.shortImage output have_ (map.pos - start))
        else .ok true

def parseMapItem (m : ImageMap) (key : Text) (args : List Text) : ImageMap :=
  if key = "total".toList then { m with total := args[0]?.bind parseU64 }
  else if key = "pos".toList then
    match args[0]?.bind parseU64 with
    | some v => { m with pos := v }
    | none => m
  else if key = "bad".toList then
    match args[0]?.bind parseU64, args[1]?.bind parseU64 with
    | some off, some len => { m with bad := m.bad ++ [⟨off, len⟩] }
    | _, _ => m
  else m

def parseMapLine (m : ImageMap) (line : Text) : ImageMap :=
  let line := trim line
  if line = [] ∨ line.head? = some '#' then m
  else match splitWhitespace line with
    | [] => m
    | key :: args => parseMapItem m key args

def parseMap (text : Text) : ImageMap := (lines text).foldl parseMapLine ⟨none, 0, []⟩

def mapHeader : Text := "# unearth image map v1".toList
def totalLine (total : ℕ) : Text := "total".toList ++ ' ' :: decimal total
def posLine (pos : ℕ) : Text := "pos".toList ++ ' ' :: decimal pos
def badLine (r : Span) : Text := "bad".toList ++ ' ' :: (decimal r.offset ++ ' ' :: decimal r.len)

def writeMap (total pos : ℕ) (bad : List Span) : Text :=
  mapHeader ++ ['\n'] ++ (totalLine total ++ ['\n']) ++ (posLine pos ++ ['\n']) ++
    bad.flatMap fun r => badLine r ++ ['\n']

def mapLines (total pos : ℕ) (bad : List Span) : List Text :=
  mapHeader :: totalLine total :: posLine pos :: bad.map badLine

theorem writeMap_eq_unlines (total pos : ℕ) (bad : List Span) :
    writeMap total pos bad = unlines (mapLines total pos bad) := by
  simp only [writeMap, mapLines, unlines, List.flatMap_cons, List.flatMap_map, List.append_assoc]

theorem token_total : Token "total".toList := by decide
theorem token_pos : Token "pos".toList := by decide
theorem token_bad : Token "bad".toList := by decide

theorem mapLines_oneLine (total pos : ℕ) (bad : List Span) :
    ∀ l ∈ mapLines total pos bad, OneLine l := by
  intro l hl
  have hd (n : ℕ) : OneLine (decimal n) := (decimal_token n).oneLine
  simp only [mapLines, List.mem_cons, List.mem_map] at hl
  rcases hl with rfl | rfl | rfl | ⟨r, -, rfl⟩
  · unfold OneLine mapHeader; decide
  · exact oneLine_append token_total.oneLine (hd total)
  · exact oneLine_append token_pos.oneLine (hd pos)
  · exact oneLine_append token_bad.oneLine (oneLine_append (hd r.offset) (hd r.len))

theorem parseMapLine_of_split {m : ImageMap} {line key : Text} {args : List Text}
    (hkey : key.head? ≠ some '#') (htrim : trim line = line)
    (hsplit : splitWhitespace line = key :: args) (hhead : line.head? = key.head?)
    (hne : line ≠ []) : parseMapLine m line = parseMapItem m key args := by
  simp only [parseMapLine, htrim, hhead, hne, hkey, or_self, if_false, hsplit]

theorem head_append {k t : Text} (hk : Token k) : (k ++ t).head? = k.head? :=
  List.head?_append_of_ne_nil _ hk.1

theorem parseMapLine_pair (m : ImageMap) {k a : Text} (hk : Token k) (h : k.head? ≠ some '#')
    (ha : Token a) : parseMapLine m (k ++ ' ' :: a) = parseMapItem m k [a] :=
  parseMapLine_of_split h (trim_pair hk ha) (splitWhitespace_pair hk ha) (head_append hk) (by simp)

theorem parseMapLine_triple (m : ImageMap) {k a b : Text} (hk : Token k) (h : k.head? ≠ some '#')
    (ha : Token a) (hb : Token b) :
    parseMapLine m (k ++ ' ' :: (a ++ ' ' :: b)) = parseMapItem m k [a, b] :=
  parseMapLine_of_split h (trim_triple hk hb) (splitWhitespace_triple hk ha hb) (head_append hk)
    (by simp)

theorem parseMapLine_comment (m : ImageMap) (t : Text) : parseMapLine m ('#' :: t) = m := by
  have hhead := trim_head (c := '#') (by decide) t
  simp only [parseMapLine, hhead, or_true, if_true]

theorem parseMapLine_totalLine (m : ImageMap) {total : ℕ} (h : total < 2 ^ 64) :
    parseMapLine m (totalLine total) = { m with total := some total } := by
  rw [totalLine, parseMapLine_pair m token_total (by decide) (decimal_token total)]
  simp [parseMapItem, parseU64_decimal h]

theorem parseMapLine_posLine (m : ImageMap) {pos : ℕ} (h : pos < 2 ^ 64) :
    parseMapLine m (posLine pos) = { m with pos := pos } := by
  rw [posLine, parseMapLine_pair m token_pos (by decide) (decimal_token pos)]
  simp [parseMapItem, parseU64_decimal h]

theorem parseMapLine_badLine (m : ImageMap) {r : Span} (ho : r.offset < 2 ^ 64)
    (hl : r.len < 2 ^ 64) : parseMapLine m (badLine r) = { m with bad := m.bad ++ [r] } := by
  rw [badLine, parseMapLine_triple m token_bad (by decide) (decimal_token _) (decimal_token _)]
  simp [parseMapItem, parseU64_decimal ho, parseU64_decimal hl]

theorem foldl_badLine (m : ImageMap) {bad : List Span}
    (h : ∀ r ∈ bad, r.offset < 2 ^ 64 ∧ r.len < 2 ^ 64) :
    (bad.map badLine).foldl parseMapLine m = { m with bad := m.bad ++ bad } := by
  induction bad generalizing m with
  | nil => simp
  | cons r bad ih =>
    have hr := h r List.mem_cons_self
    rw [List.map_cons, List.foldl_cons, parseMapLine_badLine m hr.1 hr.2,
      ih _ fun s hs => h s (List.mem_cons_of_mem _ hs)]
    simp

/-- A map that was written whole is read back as it was. -/
theorem parseMap_writeMap {total pos : ℕ} {bad : List Span} (ht : total < 2 ^ 64)
    (hp : pos < 2 ^ 64) (hb : ∀ r ∈ bad, r.offset < 2 ^ 64 ∧ r.len < 2 ^ 64) :
    parseMap (writeMap total pos bad) = ⟨some total, pos, bad⟩ := by
  rw [parseMap, writeMap_eq_unlines, lines_unlines (mapLines_oneLine total pos bad), mapLines,
    List.foldl_cons, List.foldl_cons, List.foldl_cons]
  rw [show mapHeader = '#' :: " unearth image map v1".toList by decide, parseMapLine_comment,
    parseMapLine_totalLine _ ht, parseMapLine_posLine _ hp, foldl_badLine _ hb]
  rfl

theorem validateRegions_ok {start stop lo lastEnd : ℕ} {bad : List Span} (hstop : stop < 2 ^ 64)
    (h : Within lo stop bad) (hstart : start ≤ lo) (hlast : lastEnd ≤ lo) :
    validateRegions start stop lastEnd bad = .ok () := by
  induction bad generalizing lo lastEnd with
  | nil => rfl
  | cons r bad ih =>
    have hle := h.2.le
    have hlo := h.1
    have hsat : satAdd r.offset r.len = r.stop := satAdd_eq (lt_of_le_of_lt hle hstop)
    simp only [validateRegions, hsat]
    rw [if_neg (by omega), if_neg (by omega)]
    have hstop' : r.offset ≤ r.stop := Nat.le_add_right _ _
    exact ih h.2 (by omega) le_rfl

/-- A map of the same copy whose image is there is accepted. -/
theorem validateMap_ok {start stop pos have_ : ℕ} {bad : List Span} (output : String)
    (hstop : stop < 2 ^ 64) (hpos : start ≤ pos ∧ pos ≤ stop) (hbad : Within start stop bad)
    (hhave : pos - start ≤ have_) :
    validateMap ⟨some stop, pos, bad⟩ start stop output have_ = .ok true := by
  simp only [validateMap, ne_eq, not_true_eq_false, if_false,
    validateRegions_ok hstop hbad le_rfl (Nat.zero_le start)]
  rw [if_neg (by omega), if_neg (by omega)]

end Unearth.Image
