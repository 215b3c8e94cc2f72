import Unearth.FooterSearch
import Unearth.LengthJpeg

/-!
# The length of a ZIP archive

An archive ends with a record that states the place and the size of its directory, and a
comment. A record is the archive's own when the directory that it states ends where the
record is; those of archives that are stored in it state places of their own.
-/

namespace Unearth
open Bytes Word Loop Post

def eocdMarker : List UInt8 := [0x50, 0x4B, 0x05, 0x06]

section Search

variable (b : Build) (src : Source) (fileStart limit : ℕ)

/-- What is made of a marker: the length of the archive, or the length to fall back on. -/
def examineEocd (eocdAbs : ℕ) (zip64Best : Option ℕ) : Exec (Ctl (Option ℕ) ℕ) := do
  let e ← src.readAt eocdAbs 22
  if e.length < 22 then return .next zip64Best
  else
    let cdSize := le (window e 12 4)
    let cdOff := le (window e 16 4)
    let commentLen := le (window e 20 2)
    let stop ← plus b (← plus b eocdAbs 22) commentLen
    let isZip64 := cdSize = 0xFFFFFFFF ∨ cdOff = 0xFFFFFFFF
    if limit < stop then return .next zip64Best
    else if isZip64 then return .next (some (← minus b stop fileStart))
    else if (← plus b (← plus b fileStart cdOff) cdSize) = eocdAbs then return .done (← minus b stop fileStart)
    else return .next zip64Best

/-- The markers of the window at `pos` from an index on. -/
def eocdBody (pos : ℕ) (bytes : List UInt8) (s : ℕ × Option ℕ) :
    Ctl (ℕ × Option ℕ) (Exec (Ctl (Option ℕ) ℕ)) :=
  let (start, zip64Best) := s
  match findSubsequence (bytes.drop start) eocdMarker with
  | none => .done (.ok (.next zip64Best))
  | some rel =>
    match do examineEocd b src fileStart limit (← plus b pos (start + rel)) zip64Best with
    | .error e => .done (.error e)
    | .ok (.done len) => .done (.ok (.done len))
    | .ok (.next zip64Best) => .next (start + rel + eocdMarker.length, zip64Best)

def eocdLoop (pos : ℕ) (bytes : List UInt8) : While (ℕ × Option ℕ) (Exec (Ctl (Option ℕ) ℕ)) where
  body := eocdBody b src fileStart limit pos bytes
  measure s := bytes.length - s.1
  decreases := by
    rintro ⟨start, best⟩ ⟨start', best'⟩ h
    unfold eocdBody at h
    dsimp only at h
    split at h
    · cases h
    · rename_i rel hfind
      have hle := findSubsequence_le hfind
      rw [List.length_drop] at hle
      have hmarker : eocdMarker.length = 4 := rfl
      split at h
      · cases h
      · cases h
      · cases h
        dsimp only
        omega

def zipWindow : ℕ := 1024 * 1024
def zipOverlap : ℕ := eocdMarker.length - 1

def zipBody (s : ℕ × Option ℕ) : Ctl (ℕ × Option ℕ) (Exec (Option ℕ)) :=
  let (pos, zip64Best) := s
  if limit ≤ pos then .done (.ok zip64Best)
  else
    let want := min (limit - pos) (zipWindow + zipOverlap)
    match src.readAt pos want with
    | .error e => .done (.error e)
    | .ok bytes =>
      if bytes = [] then .done (.ok zip64Best)
      else
        match (eocdLoop b src fileStart limit pos bytes).eval (0, zip64Best) with
        | .error e => .done (.error e)
        | .ok (.done len) => .done (.ok (some len))
        | .ok (.next zip64Best) =>
          if bytes.length < want ∨ limit ≤ pos + bytes.length then .done (.ok zip64Best)
          else .next (pos + (bytes.length - zipOverlap), zip64Best)

theorem zipBody_decreases (s s' : ℕ × Option ℕ) (h : zipBody b src fileStart limit s = .next s') :
    limit - s'.1 < limit - s.1 := by
  obtain ⟨pos, best⟩ := s
  obtain ⟨pos', best'⟩ := s'
  unfold zipBody at h
  dsimp only at h
  split_ifs at h with hend
  split at h
  · cases h
  · rename_i bytes hread
    by_cases hne : bytes = []
    · rw [if_pos hne] at h
      cases h
    rw [if_neg hne] at h
    split at h
    · cases h
    · cases h
    · split_ifs at h with hlast
      have hlen : bytes.length ≤ min (limit - pos) (zipWindow + zipOverlap) := by
        rw [Source.readAt_ok hread, length_window]
        exact min_le_left _ _
      have hwindow : zipWindow = 1024 * 1024 := rfl
      cases h
      dsimp only
      omega

def zipLoop : While (ℕ × Option ℕ) (Exec (Option ℕ)) where
  body := zipBody b src fileStart limit
  measure s := limit - s.1
  decreases := zipBody_decreases b src fileStart limit

def zipLength : Exec (Option ℕ) := (zipLoop b src fileStart limit).eval (fileStart, none)

end Search

section Plain

variable (data : List UInt8) (fileStart limit : ℕ)

/-- A record that lies in the source and ends within the limit. -/
structure Fits (p : ℕ) : Prop where
  marked : window data p 4 = eocdMarker
  whole : p + 22 ≤ data.length
  inside : p + 22 + le (window data (p + 20) 2) ≤ limit

instance (p : ℕ) : Decidable (Fits data limit p) :=
  decidable_of_iff (window data p 4 = eocdMarker ∧ p + 22 ≤ data.length ∧
    p + 22 + le (window data (p + 20) 2) ≤ limit) ⟨fun h => ⟨h.1, h.2.1, h.2.2⟩, fun h => ⟨h.1, h.2, h.3⟩⟩

def cdSize (p : ℕ) : ℕ := le (window data (p + 12) 4)
def cdOff (p : ℕ) : ℕ := le (window data (p + 16) 4)
def recordEnd (p : ℕ) : ℕ := p + 22 + le (window data (p + 20) 2)

/-- A size or a place that is stated elsewhere. -/
abbrev Sentinel (p : ℕ) : Prop := cdSize data p = 0xFFFFFFFF ∨ cdOff data p = 0xFFFFFFFF

/-- The directory that the record states ends where the record is. -/
abbrev Own (p : ℕ) : Prop := ¬ Sentinel data p ∧ fileStart + cdOff data p + cdSize data p = p

def recordsBetween (lo hi : ℕ) : List ℕ := (List.range' lo (hi - lo)).filter (Fits data limit ·)

/-- The end of the first record that is the archive's own, or else of the last one whose fields
are stated elsewhere. -/
def zipEnd : Option ℕ :=
  let records := recordsBetween data limit fileStart limit
  match records.find? (Own data fileStart ·) with
  | some p => some (recordEnd data p - fileStart)
  | none => (records.filter (Sentinel data ·)).getLast?.map fun p => recordEnd data p - fileStart

/-- What records are made of one after the other. -/
def weigh : List ℕ → Option ℕ → Ctl (Option ℕ) ℕ
  | [], best => .next best
  | p :: rest, best =>
    if Own data fileStart p then .done (recordEnd data p - fileStart)
    else if Sentinel data p then weigh rest (some (recordEnd data p - fileStart))
    else weigh rest best

def outcome : Ctl (Option ℕ) ℕ → Option ℕ
  | .done len => some len
  | .next best => best

end Plain

section Records

variable {data : List UInt8} {fileStart limit : ℕ}

theorem weigh_append (l₁ l₂ : List ℕ) (best : Option ℕ) :
    weigh data fileStart (l₁ ++ l₂) best = match weigh data fileStart l₁ best with
      | .next best => weigh data fileStart l₂ best
      | .done len => .done len := by
  induction l₁ generalizing best with
  | nil => rfl
  | cons p rest ih =>
    rw [List.cons_append, weigh, weigh]
    split_ifs
    · rfl
    · exact ih _
    · exact ih _

/-- The first own record decides, and without one the last that states nothing. -/
theorem outcome_weigh (l : List ℕ) (best : Option ℕ) :
    outcome (weigh data fileStart l best) = match l.find? (Own data fileStart ·) with
      | some p => some (recordEnd data p - fileStart)
      | none => ((l.filter (Sentinel data ·)).getLast?.map fun p => recordEnd data p - fileStart).or best := by
  induction l generalizing best with
  | nil => rfl
  | cons p rest ih =>
    rw [weigh, List.find?_cons]
    by_cases hown : Own data fileStart p
    · rw [if_pos hown, decide_eq_true hown]
      rfl
    · rw [if_neg hown, decide_eq_false hown]
      dsimp only
      by_cases hsentinel : Sentinel data p
      · have hfilter : (p :: rest).filter (Sentinel data ·) = p :: rest.filter (Sentinel data ·) :=
          List.filter_cons_of_pos (decide_eq_true hsentinel)
        rw [if_pos hsentinel, ih, hfilter]
        cases rest.find? (Own data fileStart ·) with
        | some q => rfl
        | none =>
          dsimp only
          rw [List.getLast?_cons]
          cases (rest.filter (Sentinel data ·)).getLast? with
          | none => rfl
          | some q => rfl
      · have hfilter : (p :: rest).filter (Sentinel data ·) = rest.filter (Sentinel data ·) :=
          List.filter_cons_of_neg (by simpa using hsentinel)
        rw [if_neg hsentinel, ih, hfilter]

theorem zipEnd_eq : zipEnd data fileStart limit =
    outcome (weigh data fileStart (recordsBetween data limit fileStart limit) none) := by
  rw [outcome_weigh, zipEnd]
  cases (recordsBetween data limit fileStart limit).find? (Own data fileStart ·) with
  | some p => rfl
  | none => exact Option.or_none.symm

theorem mem_recordsBetween {lo hi p : ℕ} : p ∈ recordsBetween data limit lo hi ↔ (lo ≤ p ∧ p < hi) ∧ Fits data limit p := by
  rw [recordsBetween, List.mem_filter, List.mem_range'_1, decide_eq_true_eq]
  refine and_congr_left fun _ => ?_
  omega

theorem recordsBetween_eq_nil {lo hi : ℕ} (h : ∀ p, lo ≤ p → p < hi → ¬ Fits data limit p) :
    recordsBetween data limit lo hi = [] :=
  List.eq_nil_iff_forall_not_mem.mpr fun p hp => by
    obtain ⟨⟨hlo, hhi⟩, hfits⟩ := mem_recordsBetween.mp hp
    exact h p hlo hhi hfits

theorem recordsBetween_split {lo mid hi : ℕ} (hlo : lo ≤ mid) (hhi : mid ≤ hi) :
    recordsBetween data limit lo hi = recordsBetween data limit lo mid ++ recordsBetween data limit mid hi := by
  have hrange : List.range' lo (hi - lo) = List.range' lo (mid - lo) ++ List.range' mid (hi - mid) := by
    have happend : List.range' lo (mid - lo) ++ List.range' (lo + (mid - lo)) (hi - mid) =
        List.range' lo (mid - lo + (hi - mid)) := List.range'_append_1
    rw [show lo + (mid - lo) = mid by omega, show mid - lo + (hi - mid) = hi - lo by omega] at happend
    exact happend.symm
  rw [recordsBetween, hrange, List.filter_append]
  rfl

/-- A marker does not overlap itself. -/
theorem not_marked_within {p k : ℕ} (h : window data p 4 = eocdMarker) (hk : 1 ≤ k) (hk' : k ≤ 3) :
    window data (p + k) 4 ≠ eocdMarker := by
  intro h'
  have hbyte := byteAt_window data p 4 k
  have hfirst := byteAt_window data (p + k) 4 0
  rw [h, if_pos (by omega)] at hbyte
  rw [h', if_pos (by decide), Nat.add_zero, ← hbyte] at hfirst
  obtain rfl | rfl | rfl : k = 1 ∨ k = 2 ∨ k = 3 := by omega
  all_goals exact absurd hfirst (by decide)

theorem lt_of_marked {p : ℕ} (h : window data p 4 = eocdMarker) : p + 4 ≤ data.length := by
  have hlen := length_window data p 4
  rw [h] at hlen
  change 4 = _ at hlen
  omega

/-- The records from a marker on: perhaps the one that it belongs to, and those behind it. -/
theorem recordsBetween_marker {lo p hi : ℕ} (hlo : lo ≤ p) (hhi : p < hi) (hp : window data p 4 = eocdMarker)
    (hnone : ∀ q, lo ≤ q → q < p → window data q 4 ≠ eocdMarker) :
    recordsBetween data limit lo hi =
      (if Fits data limit p then [p] else []) ++ recordsBetween data limit (p + 4) hi := by
  have hbefore : recordsBetween data limit lo p = [] :=
    recordsBetween_eq_nil fun q hq hq' hfits => hnone q hq hq' hfits.marked
  have hone : recordsBetween data limit p (p + 1) = if Fits data limit p then [p] else [] := by
    rw [recordsBetween, Nat.add_sub_cancel_left, List.range'_one, List.filter_singleton]
    by_cases hfits : Fits data limit p
    · rw [if_pos hfits, decide_eq_true hfits]
      rfl
    · rw [if_neg hfits, decide_eq_false hfits]
      rfl
  have hskip : ∀ q, p + 1 ≤ q → q < p + 4 → ¬ Fits data limit q := by
    intro q hq hq' hfits
    refine not_marked_within hp (show 1 ≤ q - p by omega) (by omega) ?_
    rw [show p + (q - p) = q by omega]
    exact hfits.marked
  have hrest : recordsBetween data limit (p + 1) hi = recordsBetween data limit (p + 4) hi := by
    rcases Nat.lt_or_ge hi (p + 4) with hshort | hlong
    · rw [recordsBetween_eq_nil fun q hq hq' => hskip q hq (by omega),
        recordsBetween_eq_nil fun q hq hq' => absurd hq (by omega)]
    · rw [recordsBetween_split (show p + 1 ≤ p + 4 by omega) hlong, recordsBetween_eq_nil hskip, List.nil_append]
  rw [recordsBetween_split hlo hhi.le, hbefore, List.nil_append, recordsBetween_split (Nat.le_succ p) hhi, hone, hrest]

end Records

section Windows

variable {b : Build} {src : Source} {fileStart limit : ℕ} {E : Fault → Prop}

/-- A marker is examined as the record that it belongs to is weighed. -/
theorem ends_examineEocd (hread : ∀ off < 2 ^ 63, ∀ len, Ends E (· = window src.data off len) (src.readAt off len))
    {p : ℕ} (hp : window src.data p 4 = eocdMarker) (hstart : fileStart ≤ p) (best : Option ℕ) :
    Ends E (· = weigh src.data fileStart (if Fits src.data limit p then [p] else []) best)
      (examineEocd b src fileStart limit p best) := by
  have hsize := src.size_lt
  have hmarker := lt_of_marked hp
  unfold examineEocd
  refine (hread p (by omega) 22).bind fun e he => ?_
  have hlen : e.length = min 22 (src.data.length - p) := by rw [he, length_window]
  by_cases hshort : e.length < 22
  · rw [if_pos hshort, if_neg fun hfits => absurd hfits.whole (by omega)]
    exact Ends.ok rfl
  · rw [if_neg hshort]
    have hfield : ∀ i n, i + n ≤ 22 → window e i n = window src.data (p + i) n := by
      intro i n hi
      have hwithin : i + n ≤ (window src.data p 22).length := by
        rw [← he]
        omega
      rw [he]
      exact window_window hwithin
    rw [hfield 12 4 (by decide), hfield 16 4 (by decide), hfield 20 2 (by decide)]
    have hcomment : le (window src.data (p + 20) 2) < 2 ^ 16 := le_window_lt _ _ 2
    have hdirSize : le (window src.data (p + 12) 4) < 2 ^ 32 := le_window_lt _ _ 4
    have hdirOff : le (window src.data (p + 16) 4) < 2 ^ 32 := le_window_lt _ _ 4
    dsimp only
    rw [plus_eq (by omega), exec_ok_bind, plus_eq (by omega), exec_ok_bind]
    by_cases hlimit : limit < p + 22 + le (window src.data (p + 20) 2)
    · rw [if_pos hlimit, if_neg fun hfits => absurd hfits.inside (by omega)]
      exact Ends.ok rfl
    · rw [if_neg hlimit, if_pos ⟨hp, by omega, by omega⟩]
      change Ends E _ (if Sentinel src.data p then _ else _)
      by_cases hsentinel : Sentinel src.data p
      · rw [if_pos hsentinel, minus_eq (by omega), weigh, if_neg fun hown => hown.1 hsentinel, if_pos hsentinel]
        exact Ends.ok rfl
      · rw [if_neg hsentinel, plus_eq (by omega), exec_ok_bind, plus_eq (by omega), exec_ok_bind, weigh]
        change Ends E _ (if fileStart + cdOff src.data p + cdSize src.data p = p then _ else _)
        by_cases hown : Own src.data fileStart p
        · rw [if_pos hown.2, if_pos hown, minus_eq (by omega)]
          exact Ends.ok rfl
        · rw [if_neg fun heq => hown ⟨hsentinel, heq⟩, if_neg hown, if_neg hsentinel]
          exact Ends.ok rfl

/-- The markers of a window lead to its records, from an index on. -/
theorem ends_eocdLoop (hread : ∀ off < 2 ^ 63, ∀ len, Ends E (· = window src.data off len) (src.readAt off len))
    {pos n : ℕ} (hpos : fileStart ≤ pos) (s : ℕ × Option ℕ) :
    Ends E (· = weigh src.data fileStart (recordsBetween src.data limit (pos + s.1)
        (pos + ((window src.data pos n).length - 3))) s.2)
      ((eocdLoop b src fileStart limit pos (window src.data pos n)).eval s) := by
  generalize hbytes : window src.data pos n = bytes
  have hsize := src.size_lt
  have hdata := length_window src.data pos n
  rw [hbytes] at hdata
  have hmarker : eocdMarker.length = 4 := rfl
  -- What is found in the window is in the source.
  have hplace : ∀ start i, start + i + 4 ≤ bytes.length →
      window (bytes.drop start) i 4 = window src.data (pos + (start + i)) 4 := by
    intro start i hi
    have hwithin : start + i + 4 ≤ (window src.data pos n).length := by rwa [hbytes]
    rw [← window_window hwithin, hbytes, window, window, List.drop_drop]
  induction s using (eocdLoop b src fileStart limit pos bytes).induct with
  | step s ih =>
    obtain ⟨start, best⟩ := s
    have hbody : (eocdLoop b src fileStart limit pos bytes).body (start, best) =
        eocdBody b src fileStart limit pos bytes (start, best) := rfl
    rw [hbody] at ih
    unfold eocdBody at hbody ih
    dsimp only at hbody ih ⊢
    cases hfind : findSubsequence (bytes.drop start) eocdMarker with
    | none =>
      simp only [hfind] at hbody
      rw [While.eval_done _ hbody, recordsBetween_eq_nil fun p hlo hhi hfits => ?_]
      · exact Ends.ok rfl
      · have hmiss := findSubsequence_eq_none (by decide) hfind (i := p - (pos + start))
          (by rw [List.length_drop, hmarker]; omega)
        rw [hmarker, hplace start _ (by omega), show pos + (start + (p - (pos + start))) = p by omega] at hmiss
        exact hmiss hfits.marked
    | some rel =>
      have hle := findSubsequence_le hfind
      rw [List.length_drop, hmarker] at hle
      obtain ⟨hfound, hfirst⟩ := findSubsequence_eq_some hfind
      rw [hmarker, hplace start rel (by omega)] at hfound
      have hnone : ∀ q, pos + start ≤ q → q < pos + (start + rel) → window src.data q 4 ≠ eocdMarker := by
        intro q hlo hhi
        have hmiss := hfirst (q - (pos + start)) (by omega)
        rw [hmarker, hplace start _ (by omega), show pos + (start + (q - (pos + start))) = q by omega] at hmiss
        exact hmiss
      have hplus : plus b pos (start + rel) = .ok (pos + (start + rel)) := plus_eq (by omega)
      rw [recordsBetween_marker (show pos + start ≤ pos + (start + rel) by omega) (by omega) hfound hnone,
        weigh_append]
      have hexamine := @ends_examineEocd b src fileStart limit E hread (pos + (start + rel)) hfound
        (show fileStart ≤ pos + (start + rel) by omega) best
      simp only [hfind, hplus, exec_ok_bind] at hbody ih
      cases hx : examineEocd b src fileStart limit (pos + (start + rel)) best with
      | error e =>
        simp only [hx] at hbody
        rw [While.eval_done _ hbody]
        exact hexamine.of_error hx
      | ok r =>
        have hr := hexamine.of_ok hx
        rw [← hr]
        cases r with
        | done len =>
          simp only [hx] at hbody
          rw [While.eval_done _ hbody]
          exact Ends.ok rfl
        | next best' =>
          simp only [hx] at hbody ih
          rw [While.eval_next _ hbody]
          have hrest := ih _ rfl
          rw [hmarker] at hrest
          rw [hmarker, show pos + (start + rel) + 4 = pos + (start + rel + 4) by omega]
          exact hrest

/-- Ahead of `pos` is all that still counts. -/
def Ahead (data : List UInt8) (fileStart limit : ℕ) (s : ℕ × Option ℕ) : Prop :=
  (fileStart ≤ s.1 ∧ s.1 < 2 ^ 63) ∧
    outcome (weigh data fileStart (recordsBetween data limit s.1 limit) s.2) = zipEnd data fileStart limit

/-- The windows of the search meet, each by three bytes in the next, and no record is in two. -/
theorem zipBody_ahead (hread : ∀ off < 2 ^ 63, ∀ len, Ends E (· = window src.data off len) (src.readAt off len))
    {s : ℕ × Option ℕ} (hs : Ahead src.data fileStart limit s) :
    (zipBody b src fileStart limit s).Sat (Ahead src.data fileStart limit)
      (Ends E (· = zipEnd src.data fileStart limit)) := by
  obtain ⟨pos, best⟩ := s
  obtain ⟨⟨hlo, hbound⟩, hs⟩ := hs
  dsimp only at hlo hbound hs
  have hsize := src.size_lt
  unfold zipBody
  dsimp only
  have hnothing : recordsBetween src.data limit pos limit = [] → best = zipEnd src.data fileStart limit := by
    intro hnil
    rw [hnil] at hs
    exact hs
  by_cases hend : limit ≤ pos
  · rw [if_pos hend]
    exact @Ends.ok _ _ E _ _ (hnothing (recordsBetween_eq_nil fun p hp hp' => absurd hp (by omega)))
  rw [if_neg hend]
  generalize hwant : min (limit - pos) (zipWindow + zipOverlap) = want
  have hwantlimit : want ≤ limit - pos := hwant ▸ min_le_left _ _
  cases hr : src.readAt pos want with
  | error e => exact (hread pos hbound want).of_error hr
  | ok bytes =>
    have hbytes : bytes = window src.data pos want := Source.readAt_ok hr
    have hlen : bytes.length = min want (src.data.length - pos) := by rw [hbytes, length_window]
    have hoverlap : zipOverlap = 3 := rfl
    dsimp only
    by_cases hempty : bytes = []
    · rw [if_pos hempty]
      rw [hempty, List.length_nil] at hlen
      refine @Ends.ok _ _ E _ _ (hnothing (recordsBetween_eq_nil fun p hp hp' hfits => ?_))
      have hwhole := hfits.whole
      omega
    rw [if_neg hempty]
    have hpositive : 0 < bytes.length := List.length_pos_iff.mpr hempty
    have hwindow := @ends_eocdLoop b src fileStart limit E hread pos want hlo (0, best)
    rw [← hbytes, Nat.add_zero] at hwindow
    rw [recordsBetween_split (show pos ≤ pos + (bytes.length - 3) by omega) (by omega), weigh_append] at hs
    cases hloop : (eocdLoop b src fileStart limit pos bytes).eval (0, best) with
    | error e => exact hwindow.of_error hloop
    | ok r =>
      rw [← hwindow.of_ok hloop] at hs
      cases r with
      | done len => exact @Ends.ok _ _ E _ _ hs
      | next best' =>
        dsimp only at hs ⊢
        by_cases hlast : bytes.length < want ∨ limit ≤ pos + bytes.length
        · rw [if_pos hlast]
          refine @Ends.ok _ _ E _ _ ?_
          rw [← hs, recordsBetween_eq_nil fun p hp hp' hfits => ?_]
          · rfl
          · have hwhole := hfits.whole
            have hinside := hfits.inside
            omega
        · rw [if_neg hlast, hoverlap]
          exact ⟨⟨by dsimp only; omega, by dsimp only; omega⟩, hs⟩

theorem ends_zipLength (hread : ∀ off < 2 ^ 63, ∀ len, Ends E (· = window src.data off len) (src.readAt off len))
    (hstart : fileStart < 2 ^ 63) :
    Ends E (· = zipEnd src.data fileStart limit) (zipLength b src fileStart limit) :=
  (zipLoop b src fileStart limit).eval_inv (fun _ hs => zipBody_ahead hread hs)
    ⟨⟨le_rfl, hstart⟩, zipEnd_eq.symm⟩

end Windows

/-- An archive whose record states where its directory is. The members with their headers come
first; the numbers of disks and entries take up eight bytes of the record. -/
structure Archive where
  entries : List UInt8
  directory : List UInt8
  counts : List UInt8
  comment : List UInt8
  entries_lt : entries.length < 0xFFFFFFFF
  directory_lt : directory.length < 0xFFFFFFFF
  length_counts : counts.length = 8
  comment_lt : comment.length < 2 ^ 16

namespace Archive

def place (a : Archive) : ℕ := a.entries.length + a.directory.length

def fields (a : Archive) : List UInt8 :=
  toLe 4 a.directory.length ++ toLe 4 a.entries.length ++ toLe 2 a.comment.length

def bytes (a : Archive) : List UInt8 :=
  a.entries ++ a.directory ++ (eocdMarker ++ a.counts ++ a.fields) ++ a.comment

def In (a : Archive) (data : List UInt8) (start : ℕ) : Prop := window data start a.bytes.length = a.bytes

variable {a : Archive} {data : List UInt8} {start : ℕ}

theorem length_bytes (a : Archive) : a.bytes.length = a.place + 22 + a.comment.length := by
  have hmarker : eocdMarker.length = 4 := rfl
  simp only [bytes, fields, place, List.length_append, length_toLe, hmarker, a.length_counts]

/-- What is a part of the archive is found in the source. -/
theorem In.part (h : a.In data start) (before part after : List UInt8) (hbytes : a.bytes = before ++ part ++ after) :
    window data (start + before.length) part.length = part := by
  have hlen : before.length + part.length ≤ (window data start a.bytes.length).length := by
    rw [h, hbytes]
    simp only [List.length_append]
    omega
  rw [← window_window hlen, h, hbytes, window_append]

theorem In.field (h : a.In data start) {k n x : ℕ} (before after : List UInt8)
    (hbytes : a.bytes = before ++ toLe n x ++ after) (hbefore : before.length = a.place + k) (hx : x < 256 ^ n) :
    le (window data (start + a.place + k) n) = x := by
  have hpart := h.part _ _ _ hbytes
  rw [length_toLe, hbefore, ← Nat.add_assoc] at hpart
  rw [hpart, le_toLe hx]

theorem in_append (before after : List UInt8) (a : Archive) : a.In (before ++ a.bytes ++ after) before.length :=
  window_append before a.bytes after

theorem In.length_le (h : a.In data start) : start + a.bytes.length ≤ data.length := by
  have hlen := congrArg List.length h
  have hpos := a.length_bytes
  rw [length_window] at hlen
  omega

theorem In.marked (h : a.In data start) : window data (start + a.place) 4 = eocdMarker := by
  have hpart := h.part (a.entries ++ a.directory) eocdMarker (a.counts ++ a.fields ++ a.comment)
    (by simp only [bytes, List.append_assoc])
  rwa [List.length_append] at hpart

theorem In.cdSize (h : a.In data start) : cdSize data (start + a.place) = a.directory.length := by
  have hmarker : eocdMarker.length = 4 := rfl
  refine h.field (a.entries ++ a.directory ++ eocdMarker ++ a.counts)
    (toLe 4 a.entries.length ++ toLe 2 a.comment.length ++ a.comment) ?_ ?_ ?_
  · simp only [bytes, fields, List.append_assoc]
  · simp only [place, List.length_append, hmarker, a.length_counts]
  · exact a.directory_lt.trans (by decide)

theorem In.cdOff (h : a.In data start) : cdOff data (start + a.place) = a.entries.length := by
  have hmarker : eocdMarker.length = 4 := rfl
  refine h.field (a.entries ++ a.directory ++ eocdMarker ++ a.counts ++ toLe 4 a.directory.length)
    (toLe 2 a.comment.length ++ a.comment) ?_ ?_ ?_
  · simp only [bytes, fields, List.append_assoc]
  · simp only [place, List.length_append, hmarker, a.length_counts, length_toLe]
  · exact a.entries_lt.trans (by decide)

theorem In.recordEnd (h : a.In data start) : recordEnd data (start + a.place) = start + a.bytes.length := by
  have hmarker : eocdMarker.length = 4 := rfl
  have hcomment : le (window data (start + a.place + 20) 2) = a.comment.length := by
    refine h.field (a.entries ++ a.directory ++ eocdMarker ++ a.counts ++ toLe 4 a.directory.length ++
      toLe 4 a.entries.length) a.comment ?_ ?_ ?_
    · simp only [bytes, fields, List.append_assoc]
    · simp only [place, List.length_append, hmarker, a.length_counts, length_toLe]
    · exact a.comment_lt
  rw [Unearth.recordEnd, hcomment, a.length_bytes]
  omega

theorem In.own (h : a.In data start) : Own data start (start + a.place) := by
  have hentries := a.entries_lt
  have hdirectory := a.directory_lt
  refine ⟨?_, ?_⟩
  · rw [Sentinel, h.cdSize, h.cdOff]
    omega
  · rw [h.cdSize, h.cdOff, place]
    omega

theorem In.fits (h : a.In data start) {limit : ℕ} (hlimit : start + a.bytes.length ≤ limit) :
    Fits data limit (start + a.place) := by
  have hend := h.recordEnd
  have hwhole := h.length_le
  have hlen := a.length_bytes
  rw [Unearth.recordEnd] at hend
  exact ⟨h.marked, by omega, by omega⟩

/-- An archive that is stored in another one states the place of its directory from its own start. -/
theorem In.not_own_of_pos {k : ℕ} (h : a.In data (start + k)) (hk : 0 < k) : ¬ Own data start (start + k + a.place) := by
  rintro ⟨-, hown⟩
  rw [h.cdSize, h.cdOff, place] at hown
  omega

/-- The records before its own are those of archives that are stored in it, or state other places. -/
def Plain (a : Archive) (data : List UInt8) (start limit : ℕ) : Prop :=
  ∀ p, start ≤ p → p < start + a.place → Fits data limit p →
    (∃ k, ∃ c : Archive, 0 < k ∧ c.In data (start + k) ∧ p = start + k + c.place) ∨ ¬ Own data start p

theorem In.zipEnd (h : a.In data start) {limit : ℕ} (hlimit : start + a.bytes.length ≤ limit)
    (hplain : a.Plain data start limit) : zipEnd data start limit = some a.bytes.length := by
  have hlen := a.length_bytes
  have hbefore : (recordsBetween data limit start (start + a.place)).find? (Own data start ·) = none := by
    refine List.find?_eq_none.mpr fun p hp => ?_
    rw [decide_eq_true_eq]
    obtain ⟨⟨hlo, hhi⟩, hfits⟩ := mem_recordsBetween.mp hp
    rcases hplain p hlo hhi hfits with ⟨k, c, hk, hin, rfl⟩ | hother
    · exact hin.not_own_of_pos hk
    · exact hother
  have hfound : (recordsBetween data limit (start + a.place) limit).find? (Own data start ·) =
      some (start + a.place) := by
    rw [recordsBetween_marker le_rfl (by omega) h.marked fun q hq hq' => absurd hq (by omega), if_pos (h.fits hlimit),
      List.singleton_append]
    exact List.find?_cons_of_pos (decide_eq_true h.own)
  rw [Unearth.zipEnd, recordsBetween_split (show start ≤ start + a.place by omega) (by omega), List.find?_append, hbefore,
    hfound, Option.none_or]
  dsimp only
  rw [h.recordEnd, Nat.add_sub_cancel_left]

end Archive

/-- The search ends with the record that it is meant to find, which is that of an archive that
begins where it begins, unless a record before it states a directory in its place. -/
theorem zipLength_eq (b : Build) (src : Source) (fileStart limit : ℕ) :
    (zipLength b src fileStart limit = .error .io ∨
      zipLength b src fileStart limit = .ok (zipEnd src.data fileStart limit)) ∧
    (src.Reliable → fileStart < 2 ^ 63 ∨ limit ≤ fileStart →
      zipLength b src fileStart limit = .ok (zipEnd src.data fileStart limit)) ∧
    ∀ a : Archive, a.In src.data fileStart → fileStart + a.bytes.length ≤ limit → a.Plain src.data fileStart limit →
      zipEnd src.data fileStart limit = some a.bytes.length := by
  have hempty : limit ≤ fileStart → zipLength b src fileStart limit = .ok (zipEnd src.data fileStart limit) := by
    intro h
    have hbody : (zipLoop b src fileStart limit).body (fileStart, none) = .done (.ok none) := if_pos h
    have hnil : recordsBetween src.data limit fileStart limit = [] :=
      recordsBetween_eq_nil fun p hp hp' => absurd hp (by omega)
    rw [zipLength, While.eval_done _ hbody, zipEnd_eq, hnil]
    rfl
  refine ⟨?_, ?_, fun a hin hlimit hplain => hin.zipEnd hlimit hplain⟩
  · by_cases hstart : fileStart < 2 ^ 63
    · have hends := @ends_zipLength b src fileStart limit _ (fun off _ len => src.ends_readAt off len) hstart
      cases hr : zipLength b src fileStart limit with
      | error e => exact .inl (congrArg _ (hends.of_error hr))
      | ok r => exact .inr (congrArg _ (hends.of_ok hr))
    · by_cases hlimit : limit ≤ fileStart
      · exact .inr (hempty hlimit)
      · have hwant : min (limit - fileStart) (zipWindow + zipOverlap) ≠ 0 := by
          have hwindow : zipWindow = 1024 * 1024 := rfl
          omega
        have hread : src.readAt fileStart (min (limit - fileStart) (zipWindow + zipOverlap)) = .error .io :=
          if_pos ⟨hwant, .inl (not_lt.mp hstart)⟩
        have hbody : (zipLoop b src fileStart limit).body (fileStart, none) = .done (.error .io) := by
          change zipBody b src fileStart limit (fileStart, none) = _
          unfold zipBody
          dsimp only
          rw [if_neg hlimit, hread]
        exact .inl (While.eval_done _ hbody)
  · rintro hreliable (hstart | hlimit)
    · obtain ⟨r, hr, rfl⟩ := (@ends_zipLength b src fileStart limit _
        (fun off hoff len => hreliable.ends_readAt hoff len) hstart).exists_ok
      exact hr
    · exact hempty hlimit

section Stored

/-- The checksum that an archive keeps of each member. -/
def crc32 (bytes : List UInt8) : UInt32 :=
  let shift := fun c : UInt32 => if c &&& 1 = 1 then (c >>> 1) ^^^ 0xEDB88320 else c >>> 1
  ~~~ bytes.foldl (fun crc x => shift^[8] (crc ^^^ x.toUInt32)) 0xFFFFFFFF

/-- A member that is stored as it is. -/
structure Member where
  name : List UInt8
  contents : List UInt8
  name_lt : name.length < 2 ^ 16
  contents_lt : contents.length < 2 ^ 31

namespace Member

/-- What both headers of a member say of it: version, flags, method, time and date, checksum, the
two sizes, and the lengths of the name and of an extra field. -/
def common (m : Member) : List UInt8 :=
  toLe 2 10 ++ toLe 2 0 ++ toLe 2 0 ++ toLe 2 0 ++ toLe 2 0x21 ++ toLe 4 (crc32 m.contents).toNat ++
    toLe 4 m.contents.length ++ toLe 4 m.contents.length ++ toLe 2 m.name.length ++ toLe 2 0

def localEntry (m : Member) : List UInt8 := [0x50, 0x4B, 0x03, 0x04] ++ m.common ++ m.name ++ m.contents

/-- The entry of the directory: no comment, the first disk, no attributes, and where the member is. -/
def centralEntry (m : Member) (offset : ℕ) : List UInt8 :=
  [0x50, 0x4B, 0x01, 0x02] ++ toLe 2 10 ++ m.common ++ toLe 2 0 ++ toLe 2 0 ++ toLe 2 0 ++ toLe 4 0 ++
    toLe 4 offset ++ m.name

end Member

/-- The number of this disk and of that of the directory, and the entries there and in all. -/
def countsOf (n : ℕ) : List UInt8 := toLe 2 0 ++ toLe 2 0 ++ toLe 2 n ++ toLe 2 n

theorem length_countsOf (n : ℕ) : (countsOf n).length = 8 := rfl

theorem Member.length_common (m : Member) : m.common.length = 26 := by
  simp only [common, List.length_append, length_toLe]

/-- An archive of one stored member. -/
def storedArchive (m : Member) : Archive where
  entries := m.localEntry
  directory := m.centralEntry 0
  counts := countsOf 1
  comment := []
  entries_lt := by
    have hname := m.name_lt
    have hcontents := m.contents_lt
    simp only [Member.localEntry, List.length_append, m.length_common, List.length_cons, List.length_nil]
    omega
  directory_lt := by
    have hname := m.name_lt
    simp only [Member.centralEntry, List.length_append, m.length_common, length_toLe, List.length_cons, List.length_nil]
    omega
  length_counts := length_countsOf 1
  comment_lt := by decide

/-- A text, and an archive without members, as members. -/
def textMember : Member := ⟨ascii "b", ascii "text", by decide, by decide⟩

def emptyArchive : Archive := ⟨[], [], countsOf 0, [], by decide, by decide, rfl, by decide⟩

def archiveMember : Member := ⟨ascii "a", emptyArchive.bytes, by decide, by decide⟩

/-- What the directory of the archive that it is in should end with, stored as a member. -/
def fakeRecord : List UInt8 := eocdMarker ++ countsOf 0 ++ toLe 4 0 ++ toLe 4 31 ++ toLe 2 0

def fakeMember : Member := ⟨ascii "a", fakeRecord, by decide, by decide⟩

/-- An archive whose record leaves the sizes to a larger one ahead of it. -/
def zip64Archive (m : Member) : List UInt8 :=
  m.localEntry ++ m.centralEntry 0 ++
    ([0x50, 0x4B, 0x06, 0x06] ++ toLe 8 44 ++ toLe 2 45 ++ toLe 2 45 ++ toLe 4 0 ++ toLe 4 0 ++ toLe 8 1 ++ toLe 8 1 ++
      toLe 8 (m.centralEntry 0).length ++ toLe 8 m.localEntry.length) ++
    ([0x50, 0x4B, 0x06, 0x07] ++ toLe 4 0 ++ toLe 8 (m.localEntry.length + (m.centralEntry 0).length) ++ toLe 4 1) ++
    (eocdMarker ++ countsOf 1 ++ toLe 4 0xFFFFFFFF ++ toLe 4 0xFFFFFFFF ++ toLe 2 0)

def nestedData : List UInt8 := 0 :: (storedArchive archiveMember).bytes
def fakeData : List UInt8 := (storedArchive fakeMember).bytes
def zip64Data : List UInt8 := zip64Archive textMember ++ zip64Archive textMember

theorem length_nestedData : nestedData.length = 123 := by decide +kernel
theorem length_fakeData : fakeData.length = 122 := by decide +kernel
theorem length_zip64Data : zip64Data.length = 360 := by decide +kernel

def nestedSource : Source := ⟨nestedData, length_nestedData ▸ (by decide), fun _ _ => false⟩
def fakeSource : Source := ⟨fakeData, length_fakeData ▸ (by decide), fun _ _ => false⟩
def zip64Source : Source := ⟨zip64Data, length_zip64Data ▸ (by decide), fun _ _ => false⟩

/-- An archive with another one in it comes out whole. -/
theorem nested_archive_length : zipLength .debug nestedSource 1 123 = .ok (some 122) := by
  obtain ⟨-, hexact, harchive⟩ := zipLength_eq .debug nestedSource 1 123
  have hlength : (storedArchive archiveMember).bytes.length = 122 := by decide +kernel
  have hin : (storedArchive archiveMember).In nestedSource.data 1 := by
    have happend := Archive.in_append [0] [] (storedArchive archiveMember)
    rwa [List.append_nil] at happend
  have hinner : emptyArchive.In nestedSource.data (1 + 31) := by
    unfold Archive.In
    decide +kernel
  have hplace : (storedArchive archiveMember).place = 100 := by decide +kernel
  have hrecords : recordsBetween nestedSource.data 123 1 101 = [32] := by decide +kernel
  have hplain : (storedArchive archiveMember).Plain nestedSource.data 1 123 := by
    intro p hlo hhi hfits
    have hmem := mem_recordsBetween.mpr ⟨⟨hlo, hplace ▸ hhi⟩, hfits⟩
    rw [hrecords, List.mem_singleton] at hmem
    exact .inl ⟨31, emptyArchive, by decide, hinner, hmem⟩
  rw [hexact (fun _ _ => rfl) (.inl (by decide)), harchive (storedArchive archiveMember) hin (by rw [hlength]) hplain,
    hlength]

/-- A member that states a directory of the outer archive's own place ends it early, and an
archive that leaves its sizes to a larger record may go on into the next one. -/
theorem fake_record_taken :
    zipLength .release fakeSource 0 122 = .ok (some 53) ∧ (storedArchive fakeMember).bytes.length = 122 ∧
    zipLength .release zip64Source 0 360 = .ok (some 360) ∧ (zip64Archive textMember).length = 180 ∧
    ¬ ∀ (src : Source) (fileStart limit : ℕ) (a : Archive), src.Reliable → a.In src.data fileStart →
      fileStart + a.bytes.length ≤ limit → zipLength .release src fileStart limit = .ok (some a.bytes.length) := by
  have hfake : zipLength .release fakeSource 0 122 = .ok (some 53) := by decide +kernel
  have hzip64 : zipLength .release zip64Source 0 360 = .ok (some 360) := by decide +kernel
  have hlength : (storedArchive fakeMember).bytes.length = 122 := length_fakeData
  have hhalf : (zip64Archive textMember).length = 180 := by decide +kernel
  refine ⟨hfake, hlength, hzip64, hhalf, fun h => ?_⟩
  have hin : (storedArchive fakeMember).In fakeSource.data 0 := by
    have happend := Archive.in_append [] [] (storedArchive fakeMember)
    rwa [List.append_nil] at happend
  have hwhole := h fakeSource 0 122 (storedArchive fakeMember) (fun _ _ => rfl) hin (by rw [hlength])
  rw [hfake, hlength] at hwhole
  cases hwhole

end Stored

end Unearth
