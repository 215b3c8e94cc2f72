import Unearth.CivilDays
import Unearth.Lib.Numerals
import Unearth.Lib.Utf8

/-!
# Dates as text and as fields

A time is printed in UTC and a date is read back from an option. The descriptors of an image hold
times as digits, its records as bytes, both with an offset from UTC in quarters of an hour.
-/

namespace Unearth
open Bytes Word Lines Decimal Hex Signed Calendar Utf8

section Text

/-- `YYYY-MM-DDTHH:MM:SSZ` -/
def formatUtc (secs : ℕ) : Text :=
  let (y, m, d) := civilFromDays (secs / 86400 : ℕ)
  let rem := secs % 86400
  let (h, mi, s) := (rem / 3600, rem % 3600 / 60, rem % 60)
  padded 4 y ++ '-' :: (padded 2 m ++ '-' :: (padded 2 d ++ 'T' :: (pad 2 (decimal h) ++ ':' ::
    (pad 2 (decimal mi) ++ ':' :: (pad 2 (decimal s) ++ ['Z'])))))

/-- The number of the next piece of a text. -/
def nextNum (parts : List Text) (field : String) (whole : Text) : Except Text (ℤ × List Text) :=
  match parts.head?.bind parseI64 with
  | some n => .ok (n, parts.tail)
  | none => .error ("invalid ".toList ++ field.toList ++ " in '".toList ++ whole ++ "'".toList)

def dateFields (s date : Text) : Except Text (ℤ × ℤ × ℤ) := do
  let (year, dp) ← nextNum (date.splitOn '-') "year" s
  let (month, dp) ← nextNum dp "month" s
  let (day, dp) ← nextNum dp "day" s
  if dp ≠ [] ∨ ¬ (1 ≤ month ∧ month ≤ 12) ∨ ¬ (1 ≤ day ∧ day ≤ 31) then
    .error ("invalid date '".toList ++ s ++ "' (expected YYYY-MM-DD)".toList)
  else return (year, month, day)

def timeFields (s : Text) : Option Text → Except Text (ℤ × ℤ × ℤ)
  | none => return (0, 0, 0)
  | some t => do
    let (h, tp) ← nextNum (t.splitOn ':') "hour" s
    let (mi, tp) ← nextNum tp "minute" s
    let sec := tp.head?.elim 0 fun v => (parseI64 v).getD (-1)
    if tp.tail ≠ [] ∨ ¬ (0 ≤ h ∧ h ≤ 23) ∨ ¬ (0 ≤ mi ∧ mi ≤ 59) ∨ ¬ (0 ≤ sec ∧ sec ≤ 60) then
      .error ("invalid time in '".toList ++ s ++ "' (expected HH:MM[:SS])".toList)
    else return (h, mi, sec)

/-- The fields of a date and of a time behind it. -/
def momentFields (s : Text) : Except Text ((ℤ × ℤ × ℤ) × (ℤ × ℤ × ℤ)) := do
  let (date, time) := match splitOnceAny (fun c => c = 'T' || c = ' ') s with
    | some (d, t) => (d, some t)
    | none => (s, none)
  let fields ← dateFields s date
  return (fields, ← timeFields s time)

def parseDate (b : Build) (text : Text) : Exec (Except Text SystemTime) :=
  let s := trim text
  match momentFields s with
  | .error message => return .error message
  | .ok ((year, month, day), h, mi, sec) => do
    let secs ← int64 b ((← daysFromCivil64 b year month day) * 86400)
    let secs ← int64 b (secs + (← int64 b (h * 3600)))
    let secs ← int64 b ((← int64 b (secs + (← int64 b (mi * 60)))) + sec)
    return if secs < 0 then .error ("date '".toList ++ s ++ "' is before the Unix epoch (1970)".toList)
      else .ok (secs.toNat, 0)

end Text

section Fields

/-- Seconds since the epoch, unless the fields are no date of it. At most four digits make a field, so that no
sum leaves its word. -/
def utcSeconds (year month day hour min sec tz : ℤ) : Option ℕ :=
  if ¬ (1 ≤ month ∧ month ≤ 12) ∨ ¬ (1 ≤ day ∧ day ≤ 31) ∨ 23 < hour ∨ 59 < min ∨ 60 < sec then none
  else
    let total := daysFromCivil year month day * 86400 + hour * 3600 + min * 60 + sec - tz * 15 * 60
    if total < 0 then none else some total.toNat

/-- The offset of a zone from UTC in quarters of an hour. -/
def zone (byte : UInt8) : ℤ := signed 1 byte.toNat

def iso9660Datetime (field : List UInt8) : Option ℕ :=
  if field.length < 17 then none
  else if (field.take 16).all (· == 0) ∨ (field.take 16).all (· == 0x30) then none
  else do
    let num (start len : ℕ) : Option ℤ := (fromUtf8 (window field start len)).bind parseI64
    let year ← num 0 4
    let month ← num 4 2
    let day ← num 6 2
    let hour ← num 8 2
    let min ← num 10 2
    let sec ← num 12 2
    utcSeconds year month day hour min sec (zone (field.getD 16 0))

def fromIso9660Dir (b : List UInt8) : Option SystemTime :=
  if b.length < 7 ∨ (b.take 6).all (· == 0) then none
  else
    let byte (i : ℕ) : ℤ := (b.getD i 0).toNat
    (utcSeconds (1900 + byte 0) (byte 1) (byte 2) (byte 3) (byte 4) (byte 5) (zone (b.getD 6 0))).map (·, 0)

end Fields

section ReadBack

variable {b : Build}

theorem digit_ne {width n : ℕ} {c sep : Char} (hsep : sep.isDigit = false) (h : c ∈ pad width (decimal n)) :
    c ≠ sep := by
  rintro rfl
  rw [isDigit_of_mem_pad h] at hsep
  cases hsep

theorem pad_token (width n : ℕ) : Token (pad width (decimal n)) :=
  ⟨pad_ne_nil width n, fun _ hc => isWhitespace_of_isDigit (isDigit_of_mem_pad hc)⟩

theorem nextNum_pad (width : ℕ) {n : ℕ} (hn : n < 2 ^ 63) (rest : List Text) (field : String) (whole : Text) :
    nextNum (pad width (decimal n) :: rest) field whole = .ok ((n : ℤ), rest) := by
  unfold nextNum
  rw [List.head?_cons, Option.bind_some, parseI64_pad width hn]
  rfl

theorem split_pads {sep : Char} (hsep : sep.isDigit = false) (w x y : ℕ) (i j k : ℕ) :
    (pad w (decimal i) ++ sep :: (pad x (decimal j) ++ sep :: pad y (decimal k))).splitOn sep =
      [pad w (decimal i), pad x (decimal j), pad y (decimal k)] := by
  have hno (width n : ℕ) : sep ∉ pad width (decimal n) := fun h => digit_ne hsep h rfl
  rw [List.splitOn_append_cons_self_of_not_mem (hno w i), List.splitOn_append_cons_self_of_not_mem (hno x j),
    List.splitOn_eq_singleton (hno y k)]

theorem dateFields_pads (s : Text) {y m d : ℕ} (hy : y < 2 ^ 63) (hm : 1 ≤ m ∧ m ≤ 12) (hd : 1 ≤ d ∧ d ≤ 31) :
    dateFields s (pad 4 (decimal y) ++ '-' :: (pad 2 (decimal m) ++ '-' :: pad 2 (decimal d))) =
      .ok ((y : ℤ), (m : ℤ), (d : ℤ)) := by
  unfold dateFields
  rw [split_pads (by decide), nextNum_pad 4 hy]
  change (nextNum _ "month" s >>= _) = _
  rw [nextNum_pad 2 (by omega)]
  change (nextNum _ "day" s >>= _) = _
  rw [nextNum_pad 2 (by omega)]
  refine if_neg ?_
  simp only [ne_eq, not_true_eq_false, false_or]
  omega

theorem timeFields_pads (s : Text) {h mi sec : ℕ} (hh : h ≤ 23) (hmi : mi ≤ 59) (hsec : sec ≤ 60) :
    timeFields s (some (pad 2 (decimal h) ++ ':' :: (pad 2 (decimal mi) ++ ':' :: pad 2 (decimal sec)))) =
      .ok ((h : ℤ), (mi : ℤ), (sec : ℤ)) := by
  have hparse : ((parseI64 (pad 2 (decimal sec))).getD (-1) : ℤ) = sec := by
    rw [parseI64_pad 2 (by omega), Option.getD_some]
  unfold timeFields
  dsimp only
  rw [split_pads (by decide), nextNum_pad 2 (by omega)]
  change (nextNum _ "minute" s >>= _) = _
  rw [nextNum_pad 2 (by omega)]
  dsimp only [bind, Except.bind, List.head?_cons, Option.elim_some]
  refine (if_neg ?_).trans ?_
  · rw [hparse]
    simp only [List.tail_cons, ne_eq, not_true_eq_false, false_or]
    omega
  · rw [hparse]
    rfl

/-- The text of a time without its last letter. -/
def stamp (y m d h mi sec : ℕ) : Text :=
  (pad 4 (decimal y) ++ '-' :: (pad 2 (decimal m) ++ '-' :: pad 2 (decimal d))) ++ 'T' ::
    (pad 2 (decimal h) ++ ':' :: (pad 2 (decimal mi) ++ ':' :: pad 2 (decimal sec)))

theorem trim_stamp (y m d h mi sec : ℕ) : trim (stamp y m d h mi sec) = stamp y m d h mi sec := by
  have htokens := trim_of_tokens (t := '-' :: (pad 2 (decimal m) ++ '-' :: pad 2 (decimal d)) ++ 'T' ::
    (pad 2 (decimal h) ++ ':' :: (pad 2 (decimal mi) ++ [':']))) (pad_token 4 y) (pad_token 2 sec)
  simpa [stamp] using htokens

theorem momentFields_stamp {y m d h mi sec : ℕ} (hy : y < 2 ^ 63) (hm : 1 ≤ m ∧ m ≤ 12) (hd : 1 ≤ d ∧ d ≤ 31)
    (hh : h ≤ 23) (hmi : mi ≤ 59) (hsec : sec ≤ 60) :
    momentFields (stamp y m d h mi sec) = .ok (((y : ℤ), (m : ℤ), (d : ℤ)), (h : ℤ), (mi : ℤ), (sec : ℤ)) := by
  have hdate : ∀ c ∈ pad 4 (decimal y) ++ '-' :: (pad 2 (decimal m) ++ '-' :: pad 2 (decimal d)),
      (decide (c = 'T') || decide (c = ' ')) = false := by
    intro c hc
    simp only [List.mem_append, List.mem_cons] at hc
    obtain hc | rfl | hc | rfl | hc := hc
    · simp [digit_ne (by decide : 'T'.isDigit = false) hc, digit_ne (by decide : ' '.isDigit = false) hc]
    · decide
    · simp [digit_ne (by decide : 'T'.isDigit = false) hc, digit_ne (by decide : ' '.isDigit = false) hc]
    · decide
    · simp [digit_ne (by decide : 'T'.isDigit = false) hc, digit_ne (by decide : ' '.isDigit = false) hc]
  have hsplit := splitOnceAny_append hdate (show (decide ('T' = 'T') || decide ('T' = ' ')) = true from rfl)
    (pad 2 (decimal h) ++ ':' :: (pad 2 (decimal mi) ++ ':' :: pad 2 (decimal sec)))
  unfold momentFields
  rw [stamp, hsplit]
  dsimp only
  rw [dateFields_pads _ hy hm hd]
  change (timeFields _ _ >>= _) = _
  rw [timeFields_pads _ hh hmi hsec]
  rfl

theorem parseDate_stamp {y m d h mi sec : ℕ} (hy : y ≤ 10 ^ 12) (hm : 1 ≤ m ∧ m ≤ 12) (hd : 1 ≤ d ∧ d ≤ 31)
    (hh : h ≤ 23) (hmi : mi ≤ 59) (hsec : sec ≤ 60) (hdays : 0 ≤ daysFromCivil y m d ∧ daysFromCivil y m d ≤ 2 ^ 40) :
    parseDate b (stamp y m d h mi sec) =
      .ok (.ok ((daysFromCivil y m d * 86400 + h * 3600 + mi * 60 + sec).toNat, 0)) := by
  unfold parseDate
  rw [trim_stamp]
  dsimp only
  rw [momentFields_stamp (by omega) hm hd hh hmi hsec]
  dsimp only
  rw [daysFromCivil64_eq (by omega) (by omega) (by omega), exec_ok_bind]
  generalize daysFromCivil y m d = days at hdays ⊢
  rw [int64_bind (by omega), int64_bind (by omega), int64_bind (by omega), int64_bind (by omega),
    int64_bind (by omega), int64_bind (by omega)]
  exact congrArg Except.ok (if_neg (by omega))

/-- The date of a moment that is printed. -/
theorem date_of_secs (days : ℕ) (hdays : days ≤ 2932896) :
    ∃ y m d : ℕ, civilFromDays days = ((y : ℤ), (m : ℤ), (d : ℤ)) ∧ daysFromCivil y m d = days ∧ y ≤ 10 ^ 12 ∧
      (1 ≤ m ∧ m ≤ 12) ∧ 1 ≤ d ∧ d ≤ 31 := by
  obtain ⟨date, hdate⟩ : ∃ date : Date, date = (tomorrow ^ (days : ℤ)) epoch := ⟨_, rfl⟩
  have hcount : daysFromCivil date.year date.month date.day = days := by
    rw [hdate]
    exact days_after days
  have hmonth := date.month_range
  have hday := date.day_range
  have hlast := (monthDays_range date.year date.month).2
  have hcivil := civilFromDays_days date
  have hformula := daysFromCivil_eq date.year hmonth date.day
  have hmarch := marchMonth_range hmonth
  have hyear : 0 ≤ date.year ∧ date.year ≤ 10 ^ 12 := by
    rw [hcount, eraDays_add, marchYear] at hformula
    split_ifs at hformula <;> omega
  rw [hcount] at hcivil
  refine ⟨date.year.toNat, date.month.toNat, date.day.toNat, ?_, ?_, by omega, by omega, by omega⟩
  · rw [hcivil, Int.toNat_of_nonneg hyear.1, Int.toNat_of_nonneg (by omega), Int.toNat_of_nonneg (by omega)]
  · rw [Int.toNat_of_nonneg hyear.1, Int.toNat_of_nonneg (by omega), Int.toNat_of_nonneg (by omega), hcount]

/-- A time is read back from its text. -/
theorem parseDate_formatUtc {secs : ℕ} (h : secs < 253402300800) :
    parseDate b (formatUtc secs).dropLast = .ok (.ok (secs, 0)) := by
  obtain ⟨y, m, d, hcivil, hdays, hy, hm, hd⟩ := date_of_secs (secs / 86400) (by omega)
  have htext : formatUtc secs =
      stamp y m d (secs % 86400 / 3600) (secs % 86400 % 3600 / 60) (secs % 86400 % 60) ++ ['Z'] := by
    unfold formatUtc
    rw [hcivil]
    dsimp only
    rw [padded_of_nonneg 4 (by omega), padded_of_nonneg 2 (by omega), padded_of_nonneg 2 (by omega)]
    simp [stamp]
  rw [htext, List.dropLast_concat, parseDate_stamp hy hm hd (by omega) (by omega) (by omega) (by omega), hdays]
  congr 3
  omega

end ReadBack

section Recorded

variable {m : Moment} {t : ℤ}

theorem since_eq (h : m.Since epoch t) :
    t = daysFromCivil m.date.year m.date.month m.date.day * 86400 + m.hour * 3600 + m.min * 60 + m.sec := by
  obtain ⟨n, hdate, rfl⟩ := h
  rw [← hdate, days_after]

theorem days_nonneg {d : Date} (h : 1970 ≤ d.year) : 0 ≤ daysFromCivil d.year d.month d.day := by
  have hmarch := marchMonth_range d.month_range
  have hday := d.day_range
  have hmonth := d.month_range
  rw [daysFromCivil_eq _ d.month_range, eraDays_add]
  unfold marchYear
  unfold marchMonth at hmarch ⊢
  split_ifs at hmarch ⊢ <;> omega

def packDate (d : Date) : ℕ := (d.year - 1980).toNat * 512 + d.month.toNat * 32 + d.day.toNat

def packTime (m : Moment) : ℕ := m.hour * 2048 + m.min * 32 + m.sec / 2

theorem fromDos_pack (h : m.Since epoch t) (hyear : 1980 ≤ m.date.year ∧ m.date.year ≤ 2107) (heven : m.sec % 2 = 0) :
    0 ≤ t ∧ fromDos (packDate m.date) (packTime m) = some (t.toNat, 0) := by
  have hday := m.date.day_range
  have hmonth := m.date.month_range
  have hlast := (monthDays_range m.date.year m.date.month).2
  have hnonneg := days_nonneg (d := m.date) (by omega)
  have hlt := m.min_lt
  have hsec := m.sec_lt
  have hhour := m.hour_lt
  have ht := since_eq h
  have hpos : 0 ≤ t := by omega
  refine ⟨hpos, ?_⟩
  have hd : ((packDate m.date % 32 : ℕ) : ℤ) = m.date.day := by
    unfold packDate
    omega
  have hm : ((packDate m.date / 32 % 16 : ℕ) : ℤ) = m.date.month := by
    unfold packDate
    omega
  have hy : ((1980 + packDate m.date / 512 % 128 : ℕ) : ℤ) = m.date.year := by
    unfold packDate
    omega
  have hsecond : packTime m % 32 * 2 = m.sec := by
    unfold packTime
    omega
  have hminute : packTime m / 32 % 64 = m.min := by
    unfold packTime
    omega
  have hour : packTime m / 2048 % 32 = m.hour := by
    unfold packTime
    omega
  unfold fromDos
  dsimp only
  rw [if_neg (by omega), if_neg (by omega), hd, hm, hsecond, hminute, hour]
  push_cast at hy ⊢
  rw [hy, ← ht, if_neg (by omega)]

theorem utcSeconds_eq (h : m.Since epoch t) (tz : ℤ) :
    utcSeconds m.date.year m.date.month m.date.day m.hour m.min m.sec tz =
      if t - tz * 900 < 0 then none else some (t - tz * 900).toNat := by
  have hday := m.date.day_range
  have hmonth := m.date.month_range
  have hlast := (monthDays_range m.date.year m.date.month).2
  have hmin := m.min_lt
  have hsec := m.sec_lt
  have hhour := m.hour_lt
  have htotal : daysFromCivil m.date.year m.date.month m.date.day * 86400 + m.hour * 3600 + m.min * 60 + m.sec -
      tz * 15 * 60 = t - tz * 900 := by
    rw [since_eq h]
    ring
  unfold utcSeconds
  dsimp only
  rw [if_neg (by omega), htotal]

/-- The bytes of a date in a record. -/
def dirField (m : Moment) (tz : UInt8) : List UInt8 :=
  [(m.date.year - 1900).toNat, m.date.month.toNat, m.date.day.toNat, m.hour, m.min, m.sec].map UInt8.ofNat ++ [tz]

theorem fromIso9660Dir_field (h : m.Since epoch t) (hyear : 1900 ≤ m.date.year ∧ m.date.year ≤ 2155) (tz : UInt8)
    (rest : List UInt8) : fromIso9660Dir (dirField m tz ++ rest) =
      if t - zone tz * 900 < 0 then none else some ((t - zone tz * 900).toNat, 0) := by
  have hday := m.date.day_range
  have hmonth := m.date.month_range
  have hlast := (monthDays_range m.date.year m.date.month).2
  have hmin := m.min_lt
  have hsec := m.sec_lt
  have hhour := m.hour_lt
  have hbyte {x : ℕ} (hx : x < 256) : (UInt8.ofNat x).toNat = x := by
    rw [UInt8.toNat_ofNat']
    omega
  have hsome : UInt8.ofNat m.date.month.toNat ≠ 0 := by
    intro hzero
    have hmod := congrArg UInt8.toNat hzero
    rw [hbyte (by omega)] at hmod
    change m.date.month.toNat = 0 at hmod
    omega
  have hset : ¬ ((dirField m tz ++ rest).length < 7 ∨ ((dirField m tz ++ rest).take 6).all (· == 0)) := by
    simp [dirField, hsome]
  have hyear' : (1900 : ℤ) + (m.date.year - 1900).toNat = m.date.year := by omega
  have hseconds := utcSeconds_eq h (zone tz)
  unfold fromIso9660Dir
  rw [if_neg hset]
  change (utcSeconds (1900 + ((UInt8.ofNat (m.date.year - 1900).toNat).toNat : ℕ))
    ((UInt8.ofNat m.date.month.toNat).toNat : ℕ) ((UInt8.ofNat m.date.day.toNat).toNat : ℕ)
    ((UInt8.ofNat m.hour).toNat : ℕ) ((UInt8.ofNat m.min).toNat : ℕ) ((UInt8.ofNat m.sec).toNat : ℕ) (zone tz)).map
      (·, 0) = _
  rw [hbyte (by omega), hbyte (by omega), hbyte (by omega), hbyte (by omega), hbyte (by omega), hbyte (by omega),
    hyear', Int.toNat_of_nonneg (by omega), Int.toNat_of_nonneg (by omega), hseconds]
  split_ifs <;> rfl

/-- The digits of a date in a descriptor. -/
def digitsAt (width n : ℕ) : List UInt8 := (pad width (decimal n)).map fun c => UInt8.ofNat c.toNat

def isoField (m : Moment) (hundredths : UInt8 × UInt8) (tz : UInt8) : List UInt8 :=
  digitsAt 4 m.date.year.toNat ++ digitsAt 2 m.date.month.toNat ++ digitsAt 2 m.date.day.toNat ++ digitsAt 2 m.hour ++
    digitsAt 2 m.min ++ digitsAt 2 m.sec ++ [hundredths.1, hundredths.2, tz]

theorem digit_byte {c : Char} (h : c.isDigit) : UInt8.ofNat c.toNat < 0x80 ∧ UInt8.ofNat c.toNat ≠ 0 ∧
    Char.ofNat (UInt8.ofNat c.toNat).toNat = c := by
  simp only [Char.isDigit, Bool.and_eq_true, decide_eq_true_eq] at h
  have hlow : 48 ≤ c.toNat := h.1
  have hhigh : c.toNat ≤ 57 := h.2
  have hbyte : (UInt8.ofNat c.toNat).toNat = c.toNat := by
    rw [UInt8.toNat_ofNat']
    omega
  refine ⟨?_, ?_, ?_⟩
  · rw [UInt8.lt_iff_toNat_lt, hbyte]
    exact hhigh.trans_lt (by decide)
  · intro hzero
    rw [hzero] at hbyte
    have hnil : (0 : UInt8).toNat = 0 := rfl
    omega
  · rw [hbyte, Char.ofNat_toNat]

theorem length_digitsAt {width n : ℕ} (hn : n < 10 ^ width) (hwidth : 0 < width) :
    (digitsAt width n).length = width := by
  rw [digitsAt, List.length_map, length_pad hn hwidth]

/-- A number is read from its digits, and the next one from those behind them. -/
theorem number_at {field rest : List UInt8} {start width n : ℕ} (hfield : field.drop start = digitsAt width n ++ rest)
    (hn : n < 10 ^ width) (hwidth : 0 < width) (hword : n < 2 ^ 63) :
    (fromUtf8 (window field start width)).bind parseI64 = some (n : ℤ) ∧ field.drop (start + width) = rest := by
  have hlength := length_digitsAt hn hwidth
  have hwindow : window field start width = digitsAt width n := by
    rw [window, hfield, List.take_left' hlength]
  have hascii : ∀ c ∈ pad width (decimal n), c.toNat < 0x80 := by
    intro c hc
    have hdigit := isDigit_of_mem_pad hc
    simp only [Char.isDigit, Bool.and_eq_true, decide_eq_true_eq] at hdigit
    have hhigh : c.toNat ≤ 57 := hdigit.2
    omega
  constructor
  · rw [hwindow, digitsAt, fromUtf8_text hascii, Option.bind_some, parseI64_pad width hword]
  · rw [← List.drop_drop, hfield, List.drop_left' hlength]

/-- Zeros are the digits of zero. -/
theorem eq_zero_of_zeros {width n : ℕ} (h : ∀ x ∈ digitsAt width n, x = 0x30) : n = 0 := by
  have hzeros : pad width (decimal n) = List.replicate (pad width (decimal n)).length '0' := by
    refine List.eq_replicate_of_mem fun c hc => ?_
    have hback := (digit_byte (isDigit_of_mem_pad hc)).2.2
    rw [h _ (List.mem_map_of_mem hc)] at hback
    exact hback.symm
  have hvalue := ofDigitChars_pad width (decimal n)
  rw [hzeros, Nat.ofDigitChars_replicate_zero, ofDigitChars_decimal, Nat.mul_zero] at hvalue
  exact hvalue.symm

theorem iso9660Datetime_field (h : m.Since epoch t) (hyear : 0 ≤ m.date.year ∧ m.date.year ≤ 9999)
    (hundredths : UInt8 × UInt8) (tz : UInt8) (rest : List UInt8) :
    iso9660Datetime (isoField m hundredths tz ++ rest) =
      if t - zone tz * 900 < 0 then none else some (t - zone tz * 900).toNat := by
  have hday := m.date.day_range
  have hmonth := m.date.month_range
  have hlast := (monthDays_range m.date.year m.date.month).2
  have hmin := m.min_lt
  have hsec := m.sec_lt
  have hhour := m.hour_lt
  have hY := length_digitsAt (show m.date.year.toNat < 10 ^ 4 by omega) (by decide)
  have hM := length_digitsAt (show m.date.month.toNat < 10 ^ 2 by omega) (by decide)
  have hD := length_digitsAt (show m.date.day.toNat < 10 ^ 2 by omega) (by decide)
  have hH := length_digitsAt (show m.hour < 10 ^ 2 by omega) (by decide)
  have hI := length_digitsAt (show m.min < 10 ^ 2 by omega) (by decide)
  have hS := length_digitsAt (show m.sec < 10 ^ 2 by omega) (by decide)
  have hfield : (isoField m hundredths tz ++ rest).drop 0 = digitsAt 4 m.date.year.toNat ++
      (digitsAt 2 m.date.month.toNat ++ (digitsAt 2 m.date.day.toNat ++ (digitsAt 2 m.hour ++
        (digitsAt 2 m.min ++ (digitsAt 2 m.sec ++ ([hundredths.1, hundredths.2, tz] ++ rest)))))) := by
    simp [isoField]
  obtain ⟨hyear, h4⟩ := number_at hfield (by omega) (by decide) (by omega)
  obtain ⟨hmonth', h6⟩ := number_at h4 (by omega) (by decide) (by omega)
  obtain ⟨hday', h8⟩ := number_at h6 (by omega) (by decide) (by omega)
  obtain ⟨hour, h10⟩ := number_at h8 (by omega) (by decide) (by omega)
  obtain ⟨hminute, h12⟩ := number_at h10 (by omega) (by decide) (by omega)
  obtain ⟨hsecond, h14⟩ := number_at h12 (by omega) (by decide) (by omega)
  have hmem : ∀ x ∈ digitsAt 2 m.date.month.toNat, x ∈ (isoField m hundredths tz ++ rest).take 16 := by
    intro x hx
    have hsplit : (isoField m hundredths tz ++ rest).take 16 = (isoField m hundredths tz ++ rest).take 4 ++
        ((isoField m hundredths tz ++ rest).drop 4).take 12 := by rw [← List.take_add]
    rw [hsplit]
    refine List.mem_append_right _ ?_
    rw [h4, List.take_append, List.take_of_length_le (by omega)]
    exact List.mem_append_left _ hx
  have hset : ¬ (((isoField m hundredths tz ++ rest).take 16).all (· == 0) ∨
      ((isoField m hundredths tz ++ rest).take 16).all (· == 0x30)) := by
    rintro (hzero | hzero)
    · obtain ⟨x, hx⟩ := List.exists_mem_of_length_pos (hM ▸ Nat.two_pos)
      have hnone := beq_iff_eq.mp (List.all_eq_true.mp hzero x (hmem x hx))
      obtain ⟨c, hc, rfl⟩ := List.mem_map.mp hx
      exact (digit_byte (isDigit_of_mem_pad hc)).2.1 hnone
    · have hnone := eq_zero_of_zeros fun x hx => beq_iff_eq.mp (List.all_eq_true.mp hzero x (hmem x hx))
      omega
  have hzone : (isoField m hundredths tz ++ rest).getD 16 0 = tz := by
    rw [List.getD_eq_getElem?_getD, ← List.getElem?_drop (i := 14) (j := 2), h14]
    rfl
  have hlong : ¬ (isoField m hundredths tz ++ rest).length < 17 := by
    have hbehind := congrArg List.length h14
    rw [List.length_drop] at hbehind
    simp only [List.length_append, List.length_cons, List.length_nil] at hbehind ⊢
    omega
  have hseconds := utcSeconds_eq h (zone tz)
  unfold iso9660Datetime
  rw [if_neg hlong, if_neg hset, hzone]
  dsimp only
  rw [hyear, hmonth', hday', hour, hminute, hsecond]
  simp only [Option.bind_eq_bind, Option.bind_some]
  rw [Int.toNat_of_nonneg (by omega), Int.toNat_of_nonneg (by omega), Int.toNat_of_nonneg (by omega), hseconds]

end Recorded

section Exact

variable {b : Build}

/-- The days of a date are those of the calendar, and the date is that of its days. -/
theorem days_iff {d : Date} (hyear : -10 ^ 9 ≤ d.year ∧ d.year ≤ 10 ^ 9) (n : ℤ) :
    (daysFromCivil64 b d.year d.month d.day = .ok n ↔ (tomorrow ^ n) epoch = d) ∧
      ((tomorrow ^ n) epoch = d → civilFromDays64 b n = .ok (d.year, d.month, d.day)) := by
  have hday := d.day_range
  have hlast := (monthDays_range d.year d.month).2
  have hcount := @daysFromCivil64_eq b d.year d.month d.day (by omega) d.month_range (by omega)
  have hsame (h : (tomorrow ^ n) epoch = d) : daysFromCivil d.year d.month d.day = n := by rw [← h, days_after]
  refine ⟨?_, fun h => ?_⟩
  · rw [hcount, Except.ok.injEq]
    exact ⟨fun h => h ▸ days_since d, hsame⟩
  · have hmarch := marchMonth_range d.month_range
    have hformula := daysFromCivil_eq d.year d.month_range d.day
    have hrange : -10 ^ 15 ≤ n ∧ n ≤ 10 ^ 15 := by
      rw [hsame h, eraDays_add, marchYear] at hformula
      split_ifs at hformula <;> omega
    rw [civilFromDays64_eq hrange, ← hsame h, civilFromDays_days]

theorem civil_days {n : ℤ} (h : daysFromCivil (-10 ^ 9) 1 1 ≤ n ∧ n ≤ daysFromCivil (10 ^ 9) 12 31) :
    ∃ y m d, civilFromDays64 b n = .ok (y, m, d) ∧ daysFromCivil64 b y m d = .ok n := by
  have hlow : daysFromCivil (-10 ^ 9) 1 1 = -365243219528 := by decide +kernel
  have hhigh : daysFromCivil (10 ^ 9) 12 31 = 365241780837 := by decide +kernel
  obtain ⟨d, hd⟩ : ∃ d, d = (tomorrow ^ n) epoch := ⟨_, rfl⟩
  have hcount : daysFromCivil d.year d.month d.day = n := by rw [hd, days_after]
  have hday := d.day_range
  have hlast := (monthDays_range d.year d.month).2
  have hmarch := marchMonth_range d.month_range
  have hformula := daysFromCivil_eq d.year d.month_range d.day
  have hyear : -10 ^ 12 ≤ d.year ∧ d.year ≤ 10 ^ 12 := by
    rw [hcount, eraDays_add, marchYear] at hformula
    split_ifs at hformula <;> omega
  refine ⟨d.year, d.month, d.day, ?_, ?_⟩
  · rw [civilFromDays64_eq (by omega), ← hcount, civilFromDays_days]
  · rw [daysFromCivil64_eq hyear d.month_range (by omega), hcount]

/-- The calendar of the times is exact. A moment before the epoch is no time of an image. -/
theorem calendar_exact (b : Build) :
    (∀ d : Date, -10 ^ 9 ≤ d.year ∧ d.year ≤ 10 ^ 9 → ∀ n,
      (daysFromCivil64 b d.year d.month d.day = .ok n ↔ (tomorrow ^ n) epoch = d) ∧
        ((tomorrow ^ n) epoch = d → civilFromDays64 b n = .ok (d.year, d.month, d.day))) ∧
    (∀ n, daysFromCivil (-10 ^ 9) 1 1 ≤ n ∧ n ≤ daysFromCivil (10 ^ 9) 12 31 →
      ∃ y m d, civilFromDays64 b n = .ok (y, m, d) ∧ daysFromCivil64 b y m d = .ok n) ∧
    (∀ secs < 253402300800, parseDate b (formatUtc secs).dropLast = .ok (.ok (secs, 0))) ∧
    ∀ (m : Moment) (t : ℤ), m.Since epoch t →
      (1980 ≤ m.date.year ∧ m.date.year ≤ 2107 → m.sec % 2 = 0 →
        0 ≤ t ∧ fromDos (packDate m.date) (packTime m) = some (t.toNat, 0)) ∧
      ∀ (tz : UInt8) (rest : List UInt8),
        (1900 ≤ m.date.year ∧ m.date.year ≤ 2155 → fromIso9660Dir (dirField m tz ++ rest) =
          if t - zone tz * 900 < 0 then none else some ((t - zone tz * 900).toNat, 0)) ∧
        (0 ≤ m.date.year ∧ m.date.year ≤ 9999 → ∀ hundredths, iso9660Datetime (isoField m hundredths tz ++ rest) =
          if t - zone tz * 900 < 0 then none else some (t - zone tz * 900).toNat) :=
  ⟨fun _ hyear => days_iff hyear, fun _ => civil_days, fun _ => parseDate_formatUtc, fun _ _ h =>
    ⟨fromDos_pack h, fun tz rest => ⟨fun hyear => fromIso9660Dir_field h hyear tz rest,
      fun hyear hundredths => iso9660Datetime_field h hyear hundredths tz rest⟩⟩⟩

theorem december_range : (1 : ℤ) ≤ 12 ∧ (12 : ℤ) ≤ 12 := by decide

def lastOfSixties : Moment where
  date := .last 1969 12 december_range
  hour := 0
  min := 0
  sec := 0
  hour_lt := by decide
  min_lt := by decide
  sec_lt := by decide

theorem sixties_since : lastOfSixties.Since epoch (-86400) := by
  refine ⟨-1, ?_, by decide⟩
  rw [zpow_neg_one]
  exact Date.previous_january 1970

/-- A day before the epoch is a valid date of a record, and no time is made of it. -/
theorem sixties_unread : lastOfSixties.Since epoch (-86400) ∧ dirField lastOfSixties 0 = [69, 12, 31, 0, 0, 0, 0] ∧
    fromIso9660Dir (dirField lastOfSixties 0) = none :=
  ⟨sixties_since, by decide, by decide⟩

end Exact

end Unearth
