import Unearth.FindFooter
import Unearth.Slices

/-!
# The windowed search finds what a plain search finds

The plain search looks at every position of the region in order. The search of the carver
reads windows into a buffer that the files share, and what an earlier file has left there
is never looked at. What is left is the sum behind the marker, which is a plain addition.
-/

namespace Unearth
open Bytes Word Loop

def isLineEnd (byte : UInt8) : Bool := byte = 13 ∨ byte = 10

/-- The first position at which the marker lies wholly in the region. -/
def firstMarker (data marker : List UInt8) (fileStart limit : ℕ) : Option ℕ :=
  (List.range' fileStart (limit + 1 - (fileStart + marker.length))).find? fun p =>
    window data p marker.length = marker

/-- The length of the longest run of line ends at `pos`, of at most `n` bytes. -/
def lineEnds (data : List UInt8) (pos n : ℕ) : ℕ := ((window data pos n).takeWhile isLineEnd).length

def plainFooter (data : List UInt8) (fileStart : ℕ) (marker : List UInt8) (trailing limit : ℕ) : Option ℕ :=
  (firstMarker data marker fileStart limit).map fun p =>
    p + marker.length - fileStart +
      lineEnds data (p + marker.length) (min trailing (limit - (p + marker.length)))

/-- The end of the allowance is a word, or nothing that is lost with the carry is a line end. -/
def AllowanceFits (b : Build) (data : List UInt8) (fileStart : ℕ) (marker : List UInt8)
    (trailing limit : ℕ) : Prop :=
  ∀ p, firstMarker data marker fileStart limit = some p →
    p + marker.length + trailing < 2 ^ 64 ∨
      b = .release ∧ lineEnds data (p + marker.length) (limit - (p + marker.length)) = 0

section Plain

variable {data marker : List UInt8} {fileStart limit : ℕ}

theorem firstMarker_eq_none (h : ∀ p, fileStart ≤ p → p + marker.length ≤ limit →
    window data p marker.length ≠ marker) : firstMarker data marker fileStart limit = none := by
  apply List.find?_eq_none.mpr
  intro p hp
  have hrange := List.mem_range'_1.mp hp
  simpa using h p hrange.1 (by omega)

theorem firstMarker_eq_some {p : ℕ} (hlo : fileStart ≤ p) (hhi : p + marker.length ≤ limit)
    (hp : window data p marker.length = marker)
    (h : ∀ q, fileStart ≤ q → q < p → window data q marker.length ≠ marker) :
    firstMarker data marker fileStart limit = some p := by
  apply List.find?_range'_eq_some.mpr
  simp only [decide_eq_true_eq, List.mem_range'_1, Bool.not_eq_eq_eq_not, Bool.not_true,
    decide_eq_false_iff_not]
  exact ⟨hp, ⟨hlo, by omega⟩, h⟩

theorem lineEnds_zero (pos : ℕ) : lineEnds data pos 0 = 0 := by
  simp [lineEnds, window]

theorem lineEnds_succ (pos n : ℕ) : lineEnds data pos (n + 1) =
    if ∃ byte, data[pos]? = some byte ∧ isLineEnd byte = true then lineEnds data (pos + 1) n + 1 else 0 := by
  by_cases hpos : pos < data.length
  · have hcons : window data pos (n + 1) = data[pos] :: window data (pos + 1) n := by
      simp only [window, List.drop_eq_getElem_cons hpos, List.take_succ_cons]
    simp only [lineEnds, hcons, List.takeWhile_cons, List.getElem?_eq_getElem hpos, Option.some.injEq,
      exists_eq_left']
    split_ifs <;> rfl
  · have hnone : data[pos]? = none := List.getElem?_eq_none (not_lt.mp hpos)
    have hnil : window data pos (n + 1) = [] := by
      simp [window, List.drop_eq_nil_of_le (not_lt.mp hpos)]
    simp [lineEnds, hnil, hnone]

theorem lineEnds_eq_zero_congr {pos m n : ℕ} (hm : m ≠ 0) (hn : n ≠ 0) :
    lineEnds data pos m = 0 ↔ lineEnds data pos n = 0 := by
  obtain ⟨m, rfl⟩ := Nat.exists_eq_succ_of_ne_zero hm
  obtain ⟨n, rfl⟩ := Nat.exists_eq_succ_of_ne_zero hn
  rw [Nat.succ_eq_add_one, Nat.succ_eq_add_one, lineEnds_succ, lineEnds_succ]
  split_ifs <;> simp

end Plain

section Windows

variable {haystack needle : List UInt8}

theorem findSubsequence_eq_some {i : ℕ} (h : findSubsequence haystack needle = some i) :
    window haystack i needle.length = needle ∧
      ∀ j, j < i → window haystack j needle.length ≠ needle := by
  unfold findSubsequence at h
  split_ifs at h with hlen
  have hfind := List.find?_range_eq_some.mp h
  simp only [decide_eq_true_eq, Bool.not_eq_eq_eq_not, Bool.not_true, decide_eq_false_iff_not] at hfind
  exact ⟨hfind.1, hfind.2.2⟩

theorem findSubsequence_eq_none (hne : needle ≠ []) (h : findSubsequence haystack needle = none) {i : ℕ}
    (hi : i + needle.length ≤ haystack.length) : window haystack i needle.length ≠ needle := by
  unfold findSubsequence at h
  rw [if_neg (by simp only [hne, false_or, not_lt]; omega)] at h
  have hfind := List.find?_range_eq_none.mp h i (by omega)
  simpa using hfind

theorem window_window {f : List UInt8} {off len i n : ℕ} (h : i + n ≤ (window f off len).length) :
    window (window f off len) i n = window f (off + i) n := by
  have hlen : i + n ≤ len := h.trans (by rw [length_window]; exact min_le_left _ _)
  simp only [window, List.drop_take, List.drop_drop, List.take_take]
  congr 1
  omega

end Windows

section Region

variable (src : Source) (fileStart : ℕ) (marker : List UInt8) (limit : ℕ)

/-- A read of the region failed, and the search with it. -/
def ReadRefused {α : Type} (r : Exec α) : Prop :=
  r = .error .io ∧ ∃ off len, fileStart ≤ off ∧ off < limit ∧ src.readAt off len = .error .io

variable {src fileStart marker limit} {b : Build} {trailing : ℕ}

theorem ReadRefused.of_read {α : Type} {off len : ℕ} {f : Fault} (hlo : fileStart ≤ off) (hhi : off < limit)
    (h : src.readAt off len = .error f) : ReadRefused src fileStart limit (.error f : Exec α) := by
  obtain rfl : f = .io := Source.readAt_error h
  exact ⟨rfl, off, len, hlo, hhi, h⟩

theorem trailByte_cases {pos want fileEnd : ℕ} (hpos : fileStart ≤ pos) (hle : pos ≤ fileEnd)
    (hlt : fileEnd < limit) :
    trailByte b src pos (window src.data pos want) fileEnd = .ok src.data[fileEnd]? ∨
      ReadRefused src fileStart limit (trailByte b src pos (window src.data pos want) fileEnd) := by
  unfold trailByte
  rw [minus_eq hle, exec_ok_bind]
  cases hbyte : (window src.data pos want)[fileEnd - pos]? with
  | some byte =>
    left
    rw [window, List.getElem?_take] at hbyte
    split_ifs at hbyte
    rw [List.getElem?_drop, Nat.add_sub_cancel' hle] at hbyte
    rw [hbyte]
    rfl
  | none =>
    dsimp only
    cases hread : src.readAt fileEnd 1 with
    | error f => exact .inr (.of_read (hpos.trans hle) hlt hread)
    | ok bytes =>
      left
      rw [Source.readAt_ok hread, exec_ok_bind, window, List.head?_take, List.head?_drop]
      rfl

theorem trailLoop_cases {pos want markerEnd fileEnd : ℕ} (hfit : markerEnd + trailing < 2 ^ 64)
    (hpos : fileStart ≤ pos) (hle : pos ≤ fileEnd) :
    (trailLoop b src trailing limit pos (window src.data pos want) markerEnd).eval fileEnd =
        .ok (fileEnd + lineEnds src.data fileEnd (min (markerEnd + trailing - fileEnd) (limit - fileEnd))) ∨
      ReadRefused src fileStart limit
        ((trailLoop b src trailing limit pos (window src.data pos want) markerEnd).eval fileEnd) := by
  induction fileEnd using
    (trailLoop b src trailing limit pos (window src.data pos want) markerEnd).induct with
  | step fileEnd ih =>
    have hbody : (trailLoop b src trailing limit pos (window src.data pos want) markerEnd).body fileEnd =
        trailBody b src trailing limit pos (window src.data pos want) markerEnd fileEnd := rfl
    unfold trailBody at hbody
    rw [plus_eq hfit] at hbody
    dsimp only at hbody
    by_cases hlt : fileEnd < markerEnd + trailing ∧ fileEnd < limit
    · rw [if_pos hlt] at hbody
      obtain ⟨n, hn⟩ : ∃ n, min (markerEnd + trailing - fileEnd) (limit - fileEnd) = n + 1 :=
        ⟨min (markerEnd + trailing - fileEnd) (limit - fileEnd) - 1, by omega⟩
      have hrest : min (markerEnd + trailing - (fileEnd + 1)) (limit - (fileEnd + 1)) = n := by omega
      rw [hn, lineEnds_succ]
      rcases @trailByte_cases src fileStart limit b pos want fileEnd hpos hle hlt.2 with hbyte | hbyte
      · rw [hbyte] at hbody
        dsimp only at hbody
        have hiff : (src.data[fileEnd]? = some 13 ∨ src.data[fileEnd]? = some 10) ↔
            ∃ byte, src.data[fileEnd]? = some byte ∧ isLineEnd byte = true := by
          cases src.data[fileEnd]? <;> simp [isLineEnd]
        by_cases hend : ∃ byte, src.data[fileEnd]? = some byte ∧ isLineEnd byte = true
        · rw [if_pos (hiff.mpr hend)] at hbody
          have hnext := ih _ hbody (hle.trans (Nat.le_succ _))
          rw [While.eval_next _ hbody, if_pos hend]
          rw [hrest] at hnext
          rwa [Nat.add_comm (lineEnds _ _ _) 1, ← Nat.add_assoc]
        · rw [if_neg (mt hiff.mp hend)] at hbody
          left
          rw [While.eval_done _ hbody, if_neg hend]
          rfl
      · right
        obtain ⟨hio, hrefused⟩ := hbyte
        rw [hio] at hbody
        rw [While.eval_done _ hbody]
        exact ⟨rfl, hrefused⟩
    · rw [if_neg hlt] at hbody
      left
      have hzero : min (markerEnd + trailing - fileEnd) (limit - fileEnd) = 0 := by omega
      rw [While.eval_done _ hbody, hzero, lineEnds_zero]
      rfl

/-- A sum that carries stops the program, or ends the file with its marker. -/
theorem trailLoop_carry {pos markerEnd : ℕ} {bytes : List UInt8} (hcarry : 2 ^ 64 ≤ markerEnd + trailing)
    (hend : markerEnd < 2 ^ 64) (htrail : trailing < 2 ^ 64) :
    (trailLoop b src trailing limit pos bytes markerEnd).eval markerEnd =
      match b with
      | .debug => .error .overflow
      | .release => .ok markerEnd := by
  apply While.eval_done
  change trailBody b src trailing limit pos bytes markerEnd markerEnd = _
  unfold trailBody plus
  rw [if_neg (not_lt.mpr hcarry)]
  cases b with
  | debug => rfl
  | release =>
    have hwrap : ¬ (markerEnd < wrapAdd markerEnd trailing ∧ markerEnd < limit) := by
      simp only [wrapAdd]
      omega
    exact if_neg hwrap

section Answer

/-- The search is refused a read, or it is the plain search exactly when the allowance fits. -/
def PlainWhenFits (b : Build) (src : Source) (fileStart : ℕ) (marker : List UInt8) (trailing limit : ℕ)
    (r : Exec (Option ℕ)) : Prop :=
  ReadRefused src fileStart limit r ∨
    (r = .ok (plainFooter src.data fileStart marker trailing limit) ↔
      AllowanceFits b src.data fileStart marker trailing limit)

theorem PlainWhenFits.none (h : ∀ p, fileStart ≤ p → p + marker.length ≤ limit →
    window src.data p marker.length ≠ marker) :
    PlainWhenFits b src fileStart marker trailing limit (.ok none) := by
  right
  have hnone := firstMarker_eq_none h
  simp [plainFooter, AllowanceFits, hnone]

theorem footerEnd_plain {pos want idx : ℕ} (htrail : trailing < 2 ^ 64) (hpos : fileStart ≤ pos)
    (hsize : pos + idx + marker.length ≤ src.size)
    (hfirst : firstMarker src.data marker fileStart limit = some (pos + idx)) :
    PlainWhenFits b src fileStart marker trailing limit
      (footerEnd b src fileStart marker trailing limit pos (window src.data pos want) idx) := by
  have hfile := src.size_lt
  have hword : src.size = src.data.length := rfl
  unfold footerEnd
  rw [plus_eq (by omega), exec_ok_bind, plus_eq (by omega), exec_ok_bind]
  by_cases hfit : pos + idx + marker.length + trailing < 2 ^ 64
  · have hend : pos ≤ pos + idx + marker.length := by omega
    rcases @trailLoop_cases src fileStart limit b trailing pos want _ _ hfit hpos hend with
      heval | ⟨hio, hrefused⟩
    · right
      rw [heval, exec_ok_bind, minus_eq (by omega), exec_ok_bind, Nat.add_sub_cancel_left]
      have hcond : AllowanceFits b src.data fileStart marker trailing limit := by
        intro p hp
        obtain rfl : pos + idx = p := Option.some.inj (hfirst.symm.trans hp)
        exact .inl hfit
      simp only [hcond, iff_true]
      simp only [plainFooter, hfirst, Option.map_some]
      congr 2
      omega
    · left
      rw [hio]
      exact ⟨rfl, hrefused⟩
  · right
    rw [trailLoop_carry (not_lt.mp hfit) (by omega) htrail]
    have hcond : AllowanceFits b src.data fileStart marker trailing limit ↔ b = .release ∧
        lineEnds src.data (pos + idx + marker.length) (limit - (pos + idx + marker.length)) = 0 := by
      simp only [AllowanceFits, hfirst, Option.some.injEq, forall_eq', hfit, false_or]
    rw [hcond]
    cases b with
    | debug => simp [bind, Except.bind]
    | release =>
      dsimp only
      rw [exec_ok_bind, minus_eq (by omega), exec_ok_bind]
      have hzero : lineEnds src.data (pos + idx + marker.length)
            (min trailing (limit - (pos + idx + marker.length))) = 0 ↔
          lineEnds src.data (pos + idx + marker.length) (limit - (pos + idx + marker.length)) = 0 := by
        by_cases hroom : limit - (pos + idx + marker.length) = 0
        · rw [hroom, Nat.min_zero]
        · exact lineEnds_eq_zero_congr (by omega) hroom
      simp only [plainFooter, hfirst, Option.map_some, true_and, ← hzero]
      constructor
      · intro h
        have hlen := Option.some.inj (Except.ok.inj h)
        omega
      · intro h
        rw [h]
        rfl

theorem findFooter_plain (hne : marker ≠ []) (htrail : trailing < 2 ^ 64) (hstart : fileStart ≤ limit)
    (bufLen : ℕ) : PlainWhenFits b src fileStart marker trailing limit
      (findFooter b src fileStart marker trailing limit bufLen) := by
  have hmarker := List.length_pos_of_ne_nil hne
  unfold findFooter
  rw [minus_eq hstart, exec_ok_bind]
  -- no window that is behind `pos` has the marker
  refine (footerLoop b src fileStart marker trailing limit _).eval_inv
    (I := fun pos => fileStart ≤ pos ∧ ∀ p, fileStart ≤ p → p < pos → p + marker.length ≤ limit →
      window src.data p marker.length ≠ marker)
    (Q := PlainWhenFits b src fileStart marker trailing limit) ?_
    ⟨le_rfl, fun p hlo hhi => absurd hlo (not_le.mpr hhi)⟩
  intro pos hinv
  obtain ⟨hpos, hbefore⟩ := hinv
  change (footerBody b src fileStart marker trailing limit _ pos).Sat _ _
  unfold footerBody
  dsimp only
  split_ifs with hend hbuf
  · exact .none fun p hlo hhi => hbefore p hlo (by omega) hhi
  · exfalso
    omega
  · cases hread : src.readAt pos (min (limit - pos) (footerWindow + footerOverlap marker)) with
    | error f => exact .inl (.of_read hpos (not_le.mp hend) hread)
    | ok bytes =>
      obtain rfl := Source.readAt_ok hread
      have hlen := length_window src.data pos (min (limit - pos) (footerWindow + footerOverlap marker))
      generalize hwant : min (limit - pos) (footerWindow + footerOverlap marker) = want at hlen ⊢
      have hwindow : footerWindow = 1024 * 1024 := rfl
      -- a window is searched completely
      have hsearched : findSubsequence (window src.data pos want) marker = none → ∀ p, fileStart ≤ p →
          p + marker.length ≤ limit → p + marker.length ≤ pos + (window src.data pos want).length →
          window src.data p marker.length ≠ marker := by
        intro hnone p hlo hlimit hhi
        by_cases hp : p < pos
        · exact hbefore p hlo hp hlimit
        · have hrel : p - pos + marker.length ≤ (window src.data pos want).length := by omega
          have hmiss := findSubsequence_eq_none hne hnone hrel
          rwa [window_window hrel, Nat.add_sub_cancel' (not_lt.mp hp)] at hmiss
      have hinside : ∀ p, window src.data p marker.length = marker → p + marker.length ≤ src.data.length := by
        intro p hp
        have hplen := length_window src.data p marker.length
        rw [hp] at hplen
        omega
      dsimp only
      by_cases hempty : window src.data pos want = []
      · rw [if_pos hempty]
        rw [hempty, List.length_nil] at hlen
        refine .none fun p hlo hhi hp => ?_
        have hdata := hinside p hp
        exact hbefore p hlo (by omega) hhi hp
      · rw [if_neg hempty]
        cases hfind : findSubsequence (window src.data pos want) marker with
        | some idx =>
          obtain ⟨hfound, hfirst⟩ := findSubsequence_eq_some hfind
          have hidx := findSubsequence_le hfind
          rw [window_window hidx] at hfound
          apply footerEnd_plain htrail hpos (hinside _ hfound)
          refine firstMarker_eq_some (hpos.trans (Nat.le_add_right _ _)) (by omega) hfound ?_
          intro q hlo hlt
          by_cases hq : q < pos
          · exact hbefore q hlo hq (by omega)
          · have hmiss := hfirst (q - pos) (by omega)
            rwa [window_window (by omega), Nat.add_sub_cancel' (not_lt.mp hq)] at hmiss
        | none =>
          have hmiss := hsearched hfind
          dsimp only
          split_ifs with hstop
          · refine .none fun p hlo hhi hp => ?_
            have hdata := hinside p hp
            exact hmiss p hlo hhi (by omega) hp
          · refine ⟨hpos.trans (Nat.le_add_right _ _), fun p hlo hlt hhi => hmiss p hlo hhi ?_⟩
            have hoverlap : footerOverlap marker = marker.length - 1 := rfl
            omega

end Answer

end Region

section Scratch

variable (b : Build) (src : Source) (fileStart : ℕ) (marker : List UInt8) (trailing limit : ℕ)

/-- A read overwrites the front of the buffer. -/
def fillFront (buf bytes : List UInt8) : List UInt8 := bytes ++ buf.drop bytes.length

/-- One window, read into the buffer that the search is left with. -/
def scratchBody (s : ℕ × List UInt8) : Ctl (ℕ × List UInt8) (Exec (Option ℕ)) :=
  if limit ≤ s.1 then .done (.ok none)
  else
    let want := min (limit - s.1) (footerWindow + footerOverlap marker)
    if s.2.length < want then .done (.error .slice)
    else match src.readAt s.1 want with
    | .error f => .done (.error f)
    | .ok bytes =>
      let n := bytes.length
      let buf := fillFront s.2 bytes
      if n = 0 then .done (.ok none)
      else match findSubsequence (buf.take n) marker with
      | some idx => .done (footerEnd b src fileStart marker trailing limit s.1 (buf.take n) idx)
      | none =>
        if n < want ∨ limit ≤ s.1 + n then .done (.ok none)
        else .next (s.1 + (n - footerOverlap marker), buf)

theorem take_fillFront (buf bytes : List UInt8) : (fillFront buf bytes).take bytes.length = bytes := by
  simp [fillFront]

theorem length_fillFront {buf bytes : List UInt8} (h : bytes.length ≤ buf.length) :
    (fillFront buf bytes).length = buf.length := by
  simp only [fillFront, List.length_append, List.length_drop]
  omega

/-- What the buffer held before is not looked at. -/
theorem scratchBody_rel (pos : ℕ) (buf : List UInt8) :
    Ctl.Rel (fun s pos' => s.1 = pos' ∧ s.2.length = buf.length) Eq
      (scratchBody b src fileStart marker trailing limit (pos, buf))
      (footerBody b src fileStart marker trailing limit buf.length pos) := by
  unfold scratchBody footerBody
  dsimp only
  split_ifs with hend hbuf
  · exact .done rfl
  · exact .done rfl
  · cases hread : src.readAt pos (min (limit - pos) (footerWindow + footerOverlap marker)) with
    | error f => exact .done rfl
    | ok bytes =>
      have hlen : bytes.length ≤ buf.length := by
        rw [Source.readAt_ok hread, length_window]
        omega
      dsimp only
      rw [take_fillFront]
      by_cases hempty : bytes = []
      · rw [if_pos hempty, if_pos (List.length_eq_zero_iff.mpr hempty)]
        exact .done rfl
      · rw [if_neg hempty, if_neg (mt List.length_eq_zero_iff.mp hempty)]
        cases findSubsequence bytes marker with
        | some idx => exact .done rfl
        | none =>
          dsimp only
          split_ifs
          · exact .done rfl
          · exact .next ⟨rfl, length_fillFront hlen⟩

def scratchLoop : While (ℕ × List UInt8) (Exec (Option ℕ)) where
  body := scratchBody b src fileStart marker trailing limit
  measure s := limit - s.1
  decreases := by
    intro s s' h
    have hrel := scratchBody_rel b src fileStart marker trailing limit s.1 s.2
    rw [show (s.1, s.2) = s from rfl, h] at hrel
    generalize hbody : footerBody b src fileStart marker trailing limit s.2.length s.1 = body at hrel
    cases hrel with
    | next hstate =>
      rw [hstate.1]
      exact (footerLoop b src fileStart marker trailing limit s.2.length).decreases s.1 _ hbody

/-- The search with the buffer that the files share. -/
def findFooterIn (scratch : List UInt8) : Exec (Option ℕ) := do
  let room ← minus b limit fileStart
  let cap := max (min (footerWindow + footerOverlap marker) room) marker.length
  (scratchLoop b src fileStart marker trailing limit).eval
    (fileStart, scratch ++ List.replicate (cap - scratch.length) 0)

theorem findFooterIn_eq (scratch : List UInt8) :
    findFooterIn b src fileStart marker trailing limit scratch =
      findFooter b src fileStart marker trailing limit scratch.length := by
  unfold findFooterIn findFooter
  cases minus b limit fileStart with
  | error f => rfl
  | ok room =>
    rw [exec_ok_bind, exec_ok_bind]
    have hlen : ∀ cap, (scratch ++ List.replicate (cap - scratch.length) 0).length = max scratch.length cap := by
      intro cap
      rw [List.length_append, List.length_replicate]
      omega
    refine While.eval_rel (R := fun s pos => s.1 = pos ∧ s.2.length = _) (S := Eq) ?_ ⟨rfl, hlen _⟩
    intro s pos hs
    obtain ⟨rfl, hbuf⟩ := hs
    have hrel := scratchBody_rel b src fileStart marker trailing limit s.1 s.2
    rwa [hbuf] at hrel

end Scratch

/-- The search fails only with a read of its region. Otherwise it finds what the plain search finds
exactly when the end of the allowance is a word or nothing is lost with the carry. -/
theorem findFooterIn_eq_plain_iff (b : Build) (src : Source) {fileStart limit : ℕ} {marker : List UInt8}
    {trailing : ℕ} (scratch : List UInt8) (hstart : fileStart ≤ limit) (hne : marker ≠ [])
    (htrail : trailing < 2 ^ 64) :
    ReadRefused src fileStart limit (findFooterIn b src fileStart marker trailing limit scratch) ∨
      (findFooterIn b src fileStart marker trailing limit scratch =
          .ok (plainFooter src.data fileStart marker trailing limit) ↔
        AllowanceFits b src.data fileStart marker trailing limit) := by
  rw [findFooterIn_eq]
  exact findFooter_plain hne htrail hstart scratch.length

theorem length_marked_lt : ([0x25, 0x45, 0x0D] : List UInt8).length < 2 ^ 63 := by simp

/-- A marker of one byte with the first byte of a line end behind it. -/
def markedSource : Source where
  data := [0x25, 0x45, 0x0D]
  size_lt := length_marked_lt

theorem findFooterIn_marked : findFooterIn .debug markedSource 0 [0x45] 2 3 [7, 7, 7, 7, 7] = .ok (some 3) ∧
    (ReadRefused markedSource 0 3 (findFooterIn .debug markedSource 0 [0x45] 2 3 [7, 7, 7, 7, 7]) ∨
      (findFooterIn .debug markedSource 0 [0x45] 2 3 [7, 7, 7, 7, 7] =
          .ok (plainFooter markedSource.data 0 [0x45] 2 3) ↔
        AllowanceFits .debug markedSource.data 0 [0x45] 2 3)) :=
  ⟨by decide +kernel, findFooterIn_eq_plain_iff .debug markedSource [7, 7, 7, 7, 7] (by decide) (by decide)
    (by decide)⟩

/-- An allowance without a bound: one build stops, the other one loses the line end. -/
theorem findFooterIn_unbounded :
    plainFooter markedSource.data 0 [0x45] (2 ^ 64 - 1) 3 = some 3 ∧
      findFooterIn .debug markedSource 0 [0x45] (2 ^ 64 - 1) 3 [] = .error .overflow ∧
      findFooterIn .release markedSource 0 [0x45] (2 ^ 64 - 1) 3 [] = .ok (some 2) := by
  decide +kernel

end Unearth
