import Unearth.OutputFolder

/-!
# What every undelete shares

The names of deleted files come from the disk and become components of a path below the
output folder; the options say which of the files are wanted.
-/

namespace Unearth
open Lines

/-- Seconds since the epoch, and nanoseconds. -/
abbrev SystemTime := ℕ × ℕ

def fromFiletime (ft : ℕ) : Option SystemTime :=
  let epochDiffSecs := 11644473600
  if ft = 0 then none
  else if ft / 10000000 < epochDiffSecs then none
  else some (ft / 10000000 - epochDiffSecs, ft % 10000000 * 100)

def fromUnix (secs : ℕ) : Option SystemTime := if secs = 0 then none else some (secs, 0)

structure RecoverOptions where
  minSize : ℕ
  maxSize : Option ℕ
  modifiedAfter : Option SystemTime
  modifiedBefore : Option SystemTime
  /-- The verdict of the patterns for names. -/
  nameOk : Text → Bool
  dryRun : Bool

namespace RecoverOptions

variable (opts : RecoverOptions)

def timeLe (s t : SystemTime) : Bool := s.1 < t.1 || (s.1 = t.1 && s.2 ≤ t.2)

def timeOk : Option SystemTime → Bool
  | none => true
  | some t => opts.modifiedAfter.all (timeLe · t) && opts.modifiedBefore.all (timeLe t ·)

def sizeOk (size : ℕ) : Bool := opts.minSize ≤ size && opts.maxSize.all (size ≤ ·)

end RecoverOptions

/-- The control characters of Unicode. -/
def isControl (c : Char) : Bool := c.val < 0x20 || (0x7F ≤ c.val && c.val < 0xA0)

def asciiUppercase (t : Text) : Text := t.map Char.toUpper

/-- A name of a device, whatever its extension. -/
def isWindowsReserved (name : Text) : Bool :=
  let stem := asciiUppercase (name.takeWhile (· ≠ '.'))
  stem = "CON".toList || stem = "PRN".toList || stem = "AUX".toList || stem = "NUL".toList ||
    (("COM".toList.isPrefixOf stem || "LPT".toList.isPrefixOf stem) && stem.length = 4 &&
      (stem.getD 3 '0').isDigit && stem.getD 3 '0' ≠ '0')

section Sanitize

variable (windows : Bool)

def windowsChar (c : Char) : Bool := ['<', '>', ':', '"', '|', '?', '*'].contains c

def cleanChar (c : Char) : Char :=
  if c = '/' || c = '\\' || c = '\x00' || isControl c || (windows && windowsChar c) then '_' else c

def trimName (name : Text) : Text :=
  let trimmed := trim (name.map (cleanChar windows))
  if windows then (trimmed.reverse.dropWhile fun c => c = '.' || c = ' ').reverse else trimmed

/-- A name as one component of a path. -/
def sanitizeComponent (name : Text) : Text :=
  let trimmed := trimName windows name
  if trimmed = [] || trimmed = ['.'] || trimmed = ['.', '.'] then "_recovered".toList
  else if windows && isWindowsReserved trimmed then '_' :: trimmed
  else trimmed

/-- What a path can have as a component that leads nowhere else. -/
structure Component (name : Text) : Prop where
  ne_nil : name ≠ []
  ne_dot : name ≠ ['.']
  ne_dots : name ≠ ['.', '.']
  no_separator : '/' ∉ name ∧ '\\' ∉ name
  no_control : ∀ c ∈ name, isControl c = false

theorem cleanChar_spec (c : Char) : cleanChar windows c ≠ '/' ∧ cleanChar windows c ≠ '\\' ∧
    isControl (cleanChar windows c) = false := by
  unfold cleanChar
  split_ifs with h
  · decide
  · simp only [Bool.or_eq_true, decide_eq_true_eq, not_or, Bool.not_eq_true] at h
    exact ⟨h.1.1.1.1, h.1.1.1.2, h.1.2⟩

theorem mem_trimName {name : Text} {c : Char} (h : c ∈ trimName windows name) :
    ∃ d ∈ name, cleanChar windows d = c := by
  have htrim : ∀ t : Text, c ∈ trim t → c ∈ t := by
    intro t ht
    unfold trim trimEnd trimStart at ht
    exact (List.dropWhile_suffix _).subset
      (List.mem_reverse.mp ((List.dropWhile_suffix _).subset (List.mem_reverse.mp ht)))
  unfold trimName at h
  dsimp only at h
  split_ifs at h
  · exact List.mem_map.mp (htrim _ (List.mem_reverse.mp
      ((List.dropWhile_suffix _).subset (List.mem_reverse.mp h))))
  · exact List.mem_map.mp (htrim _ h)

theorem recovered_no_control : ∀ c ∈ "_recovered".toList, isControl c = false := by
  intro c hc
  have hall : "_recovered".toList.all (fun c => !isControl c) = true := by decide
  simpa using List.all_eq_true.mp hall c hc

/-- A sanitized name is a component of a path, whatever the disk says. -/
theorem sanitizeComponent_component (name : Text) : Component (sanitizeComponent windows name) := by
  have hclean : ∀ c ∈ trimName windows name, c ≠ '/' ∧ c ≠ '\\' ∧ isControl c = false := by
    intro c hc
    obtain ⟨d, -, rfl⟩ := mem_trimName windows hc
    exact cleanChar_spec windows d
  unfold sanitizeComponent
  dsimp only
  split_ifs with hplain hreserved
  · exact ⟨by decide, by decide, by decide, by decide, recovered_no_control⟩
  · have hmem : ∀ c ∈ '_' :: trimName windows name, c ≠ '/' ∧ c ≠ '\\' ∧ isControl c = false := by
      intro c hc
      rcases List.mem_cons.mp hc with rfl | hc
      · decide
      · exact hclean c hc
    refine ⟨List.cons_ne_nil _ _, ?_, ?_, ⟨fun h => (hmem _ h).1 rfl, fun h => (hmem _ h).2.1 rfl⟩,
      fun c hc => (hmem c hc).2.2⟩
    · intro h
      cases h
    · intro h
      cases h
  · simp only [Bool.or_eq_true, decide_eq_true_eq, not_or] at hplain
    exact ⟨hplain.1.1, hplain.1.2, hplain.2, ⟨fun h => (hclean _ h).1 rfl, fun h => (hclean _ h).2.1 rfl⟩,
      fun c hc => (hclean c hc).2.2⟩

theorem cleanChar_of_clean {c : Char} (hsep : c ≠ '/') (hback : c ≠ '\\') (hcontrol : isControl c = false) :
    cleanChar false c = c := by
  have hzero : c ≠ '\x00' := by
    rintro rfl
    exact absurd hcontrol (by decide)
  simp [cleanChar, hsep, hback, hcontrol, hzero]

/-- A sanitized name has nothing left to clean or to trim. -/
theorem sanitizeComponent_idempotent (name : Text) :
    sanitizeComponent false (sanitizeComponent false name) = sanitizeComponent false name := by
  have hcomponent := sanitizeComponent_component false name
  have hclean : (sanitizeComponent false name).map (cleanChar false) = sanitizeComponent false name := by
    rw [List.map_congr_left (g := id), List.map_id]
    exact fun c hc => cleanChar_of_clean (fun h => hcomponent.no_separator.1 (h ▸ hc))
      (fun h => hcomponent.no_separator.2 (h ▸ hc)) (hcomponent.no_control c hc)
  have htrim : trim (sanitizeComponent false name) = sanitizeComponent false name := by
    have hcases : sanitizeComponent false name = "_recovered".toList ∨
        sanitizeComponent false name = trim (name.map (cleanChar false)) := by
      rw [sanitizeComponent, trimName]
      simp only [Bool.false_and, Bool.false_eq_true, if_false]
      split_ifs
      · exact .inl rfl
      · exact .inr rfl
    rcases hcases with h | h
    · rw [h]
      decide
    · rw [h, trim_trim]
  have hplain : trimName false (sanitizeComponent false name) = sanitizeComponent false name := by
    rw [trimName, hclean, htrim]
    rfl
  rw [sanitizeComponent, hplain]
  simp [hcomponent.ne_nil, hcomponent.ne_dot, hcomponent.ne_dots]

end Sanitize

end Unearth
