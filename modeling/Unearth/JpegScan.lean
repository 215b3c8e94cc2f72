import Unearth.Lib.Loop
import Unearth.Lib.Word

/-!
# The check of a JPEG stream

The clusters of a JPEG that is put together again are checked against its structure: markers
with segments behind them, and coded data in which every `FF` is followed by one of a few
bytes. The state outlives a cluster, so that a marker may be cut anywhere.
-/

namespace Unearth
open Word Loop

inductive Stage
  | segments
  | skipPayload
  | scan
  | done
  deriving DecidableEq

structure JpegScan where
  stage : Stage
  skip : ℕ
  afterFf : Bool
  marker : Option UInt8
  lenHi : Option UInt8
  scanAfterSkip : Bool
  consumed : ℕ
  deriving DecidableEq

namespace JpegScan

def new : JpegScan := ⟨.segments, 0, false, none, none, false, 0⟩

/-- Payload has been skipped; behind the last of it comes what follows the segment. -/
def skipped (s : JpegScan) (take : ℕ) : JpegScan :=
  if s.skip - take = 0 then
    { s with skip := 0, stage := if s.scanAfterSkip then .scan else .segments, scanAfterSkip := false }
  else { s with skip := s.skip - take }

def segmentsByte (s : JpegScan) (b : UInt8) : Option JpegScan :=
  match s.marker with
  | some m =>
    match s.lenHi with
    | none => some { s with lenHi := some b }
    | some hi =>
      let len := 256 * hi.toNat + b.toNat
      if len < 2 then none
      else some { s with
        marker := none
        lenHi := none
        skip := len - 2
        scanAfterSkip := m = 0xDA
        stage := if 0 < len - 2 then .skipPayload else if m = 0xDA then .scan else .segments }
  | none =>
    if s.afterFf then
      if b = 0xFF then some { s with afterFf := true }
      else if b = 0xD8 ∨ b = 0x01 ∨ (0xD0 ≤ b ∧ b ≤ 0xD7) then some { s with afterFf := false }
      else if b = 0xD9 then some { s with afterFf := false, stage := .done }
      else if 0xC0 ≤ b ∧ b ≤ 0xFE then some { s with afterFf := false, marker := some b }
      else none
    else if b = 0xFF then some { s with afterFf := true }
    else none

def scanByte (s : JpegScan) (b : UInt8) : Option JpegScan :=
  if s.afterFf then
    if b = 0x00 ∨ (0xD0 ≤ b ∧ b ≤ 0xD7) ∨ b = 0xFF then some { s with afterFf := b = 0xFF }
    else if b = 0xD9 then some { s with afterFf := false, stage := .done }
    -- A progressive image has segments between its scans.
    else if b ∈ [0xC4, 0xDB, 0xDD, 0xDC, 0xDA, 0xFE] ∨ (0xE0 ≤ b ∧ b ≤ 0xEF) then
      some { s with afterFf := false, stage := .segments, marker := some b }
    else none
  else if b = 0xFF then some { s with afterFf := true }
  else some s

section Accept

variable (chunk : List UInt8)

/-- One round, at the `i`-th byte of a chunk. -/
def acceptBody (r : JpegScan × ℕ) : Ctl (JpegScan × ℕ) (Option JpegScan) :=
  let (s, i) := r
  match chunk[i]? with
  | none => .done (some s)
  | some b =>
    match s.stage with
    | .done => .done (some s)
    | .skipPayload =>
      let take := min s.skip (chunk.length - i)
      .next (s.skipped take, i + take)
    | .segments =>
      match s.segmentsByte b with
      | none => .done none
      | some s => .next (s, i + 1)
    | .scan =>
      match s.scanByte b with
      | none => .done none
      | some s => .next (s, i + 1)

/-- Payload that is none takes a round, in which no byte is consumed. -/
def acceptLoop : While (JpegScan × ℕ) (Option JpegScan) where
  body := acceptBody chunk
  measure r := 2 * (chunk.length - r.2) + if r.1.stage = .skipPayload then 1 else 0
  decreases := by
    rintro ⟨s, i⟩ ⟨s', i'⟩ h
    unfold acceptBody at h
    dsimp only at h
    split at h
    · cases h
    · rename_i b hb
      have hi : i < chunk.length := (List.getElem?_eq_some_iff.mp hb).1
      split at h
      · cases h
      · rename_i hstage
        cases h
        dsimp only
        rw [if_pos hstage]
        by_cases hskip : s.skip = 0
        · have hstage' : (s.skipped (min s.skip (chunk.length - i))).stage ≠ .skipPayload := by
            unfold skipped
            rw [if_pos (by omega)]
            dsimp only
            split_ifs <;> nofun
          rw [if_neg hstage']
          omega
        · split_ifs <;> omega
      all_goals
        rename_i hstage
        split at h
        · cases h
        · cases h
          dsimp only
          split_ifs <;> omega

end Accept

def accept (s : JpegScan) (chunk : List UInt8) : Option JpegScan :=
  ((acceptLoop chunk).eval (s, 0)).map fun s => { s with consumed := wrapAdd s.consumed chunk.length }

/-- A payload that is skipped has bytes left, and the count of the bytes is a word. -/
structure Ready (s : JpegScan) : Prop where
  skip_pos : s.stage = .skipPayload → 0 < s.skip
  consumed_lt : s.consumed < 2 ^ 64

theorem ready_new : Ready new := ⟨nofun, by decide⟩

section Bytes

/-- What a single byte makes of the state. -/
def feed (s : JpegScan) (b : UInt8) : Option JpegScan :=
  match s.stage with
  | .done => some s
  | .skipPayload => some (s.skipped 1)
  | .segments => s.segmentsByte b
  | .scan => s.scanByte b

variable {s s' : JpegScan} {b : UInt8} {n : ℕ}

theorem Ready.skipped (h : s.Ready) : (s.skipped n).Ready := by
  unfold JpegScan.skipped
  by_cases hskip : s.skip - n = 0
  · rw [if_pos hskip]
    refine ⟨fun hstage => ?_, h.consumed_lt⟩
    dsimp only at hstage
    split_ifs at hstage
  · rw [if_neg hskip]
    exact ⟨fun _ => Nat.pos_of_ne_zero hskip, h.consumed_lt⟩

theorem Ready.segmentsByte (h : s.Ready) (hb : s.segmentsByte b = some s') : s'.Ready := by
  unfold JpegScan.segmentsByte at hb
  split at hb
  · split at hb
    · cases hb
      exact ⟨h.skip_pos, h.consumed_lt⟩
    · dsimp only at hb
      split_ifs at hb <;> cases hb
      all_goals
        refine ⟨fun hstage => ?_, h.consumed_lt⟩
        first | assumption | cases hstage
  · split_ifs at hb <;> cases hb
    all_goals exact ⟨by first | exact h.skip_pos | exact nofun, h.consumed_lt⟩

theorem Ready.scanByte (h : s.Ready) (hb : s.scanByte b = some s') : s'.Ready := by
  unfold JpegScan.scanByte at hb
  split_ifs at hb <;> cases hb
  all_goals exact ⟨by first | exact h.skip_pos | exact nofun, h.consumed_lt⟩

theorem Ready.feed (h : s.Ready) (hb : s.feed b = some s') : s'.Ready := by
  unfold JpegScan.feed at hb
  cases hstage : s.stage with
  | done =>
    rw [hstage] at hb
    cases hb
    exact h
  | skipPayload =>
    rw [hstage] at hb
    cases hb
    exact h.skipped
  | segments =>
    rw [hstage] at hb
    exact h.segmentsByte hb
  | scan =>
    rw [hstage] at hb
    exact h.scanByte hb

theorem foldlM_feed_done (h : s.stage = .done) (l : List UInt8) : l.foldlM feed s = some s := by
  induction l with
  | nil => rfl
  | cons b l ih =>
    rw [List.foldlM_cons, feed, h]
    exact ih

theorem skipped_skipped (h : n + 1 < s.skip) : (s.skipped 1).skipped (n + 1) = s.skipped (n + 2) := by
  have hfirst : s.skipped 1 = { s with skip := s.skip - 1 } := if_neg (by omega)
  rw [hfirst]
  unfold skipped
  dsimp only
  rw [Nat.sub_sub, Nat.add_comm 1]

/-- The bytes of a payload are skipped one by one as they are all at once. -/
theorem foldlM_feed_skip {b : UInt8} {l : List UInt8} (hstage : s.stage = .skipPayload)
    (hlen : l.length < s.skip) : (b :: l).foldlM feed s = some (s.skipped (l.length + 1)) := by
  induction l generalizing s b with
  | nil =>
    rw [List.foldlM_cons, feed, hstage]
    rfl
  | cons c l ih =>
    rw [List.length_cons] at hlen
    have hfirst : s.skipped 1 = { s with skip := s.skip - 1 } := if_neg (by omega)
    have hrest : (c :: l).foldlM feed (s.skipped 1) = some ((s.skipped 1).skipped (l.length + 1)) := by
      apply ih
      · rw [hfirst]
        exact hstage
      · rw [hfirst]
        dsimp only
        omega
    rw [List.foldlM_cons, feed, hstage]
    exact hrest.trans (congrArg some (skipped_skipped hlen))

end Bytes

/-- A chunk does what its bytes do one after the other. -/
theorem eval_acceptLoop (chunk : List UInt8) (r : JpegScan × ℕ) (h : r.1.Ready) :
    (acceptLoop chunk).eval r = (chunk.drop r.2).foldlM feed r.1 := by
  induction r using (acceptLoop chunk).induct with
  | step r ih =>
    obtain ⟨s, i⟩ := r
    have hbody : (acceptLoop chunk).body (s, i) = acceptBody chunk (s, i) := rfl
    rw [hbody] at ih
    unfold acceptBody at hbody ih
    cases hb : chunk[i]? with
    | none =>
      simp only [hb] at hbody
      rw [While.eval_done _ hbody, List.drop_eq_nil_of_le (List.getElem?_eq_none_iff.mp hb)]
      rfl
    | some b =>
      obtain ⟨hi, hget⟩ := List.getElem?_eq_some_iff.mp hb
      have hdrop : chunk.drop i = b :: chunk.drop (i + 1) := by
        rw [List.drop_eq_getElem_cons hi, hget]
      simp only [hb] at hbody ih
      rw [hdrop]
      cases hstage : s.stage with
      | done =>
        simp only [hstage] at hbody
        rw [While.eval_done _ hbody, foldlM_feed_done hstage]
      | skipPayload =>
        simp only [hstage] at hbody ih
        have hskip : 0 < s.skip := h.skip_pos hstage
        have hsome : (chunk.drop i).take (min s.skip (chunk.length - i)) =
            b :: (chunk.drop (i + 1)).take (min s.skip (chunk.length - i) - 1) := by
          rw [hdrop, List.take_cons (by omega)]
        have hlen : ((chunk.drop (i + 1)).take (min s.skip (chunk.length - i) - 1)).length + 1 =
            min s.skip (chunk.length - i) := by
          rw [List.length_take, List.length_drop]
          omega
        have htaken : (b :: (chunk.drop (i + 1)).take (min s.skip (chunk.length - i) - 1)).foldlM feed s =
            some (s.skipped (((chunk.drop (i + 1)).take (min s.skip (chunk.length - i) - 1)).length + 1)) :=
          foldlM_feed_skip hstage (by omega)
        rw [hlen, ← hsome] at htaken
        rw [While.eval_next _ hbody, ih _ rfl h.skipped, ← hdrop]
        rw [← List.take_append_drop (min s.skip (chunk.length - i)) (chunk.drop i), List.foldlM_append,
          htaken, List.drop_drop]
        rfl
      | segments =>
        simp only [hstage] at hbody ih
        rw [List.foldlM_cons, feed, hstage]
        dsimp only
        cases hbyte : s.segmentsByte b with
        | none =>
          simp only [hbyte] at hbody
          rw [While.eval_done _ hbody]
          rfl
        | some s' =>
          simp only [hbyte] at hbody ih
          rw [While.eval_next _ hbody, ih _ rfl (h.segmentsByte hbyte)]
          rfl
      | scan =>
        simp only [hstage] at hbody ih
        rw [List.foldlM_cons, feed, hstage]
        dsimp only
        cases hbyte : s.scanByte b with
        | none =>
          simp only [hbyte] at hbody
          rw [While.eval_done _ hbody]
          rfl
        | some s' =>
          simp only [hbyte] at hbody ih
          rw [While.eval_next _ hbody, ih _ rfl (h.scanByte hbyte)]
          rfl

section Cut

variable {s s' : JpegScan}

def counted (n : ℕ) (s : JpegScan) : JpegScan := { s with consumed := n }

theorem feed_counted (s : JpegScan) (n : ℕ) (b : UInt8) :
    (s.counted n).feed b = (s.feed b).map (counted n) := by
  unfold feed
  cases hstage : s.stage with
  | done => simp only [counted, hstage, Option.map_some]
  | skipPayload =>
    simp only [counted, hstage, Option.map_some, skipped]
    split_ifs <;> rfl
  | segments =>
    simp only [counted, hstage, segmentsByte]
    split
    · split
      · rfl
      · split_ifs <;> rfl
    · split_ifs <;> rfl
  | scan =>
    simp only [counted, hstage, scanByte]
    split_ifs <;> simp only [Option.map_some, Option.map_none, counted, hstage]

theorem foldlM_feed_counted (s : JpegScan) (n : ℕ) (l : List UInt8) :
    l.foldlM feed (s.counted n) = (l.foldlM feed s).map (counted n) := by
  induction l generalizing s with
  | nil => rfl
  | cons b l ih =>
    rw [List.foldlM_cons, List.foldlM_cons, feed_counted]
    cases s.feed b with
    | none => rfl
    | some s' => exact ih s'

/-- Only whole chunks are counted. -/
theorem consumed_foldlM_feed {l : List UInt8} (h : l.foldlM feed s = some s') :
    s'.consumed = s.consumed := by
  have hcounted := foldlM_feed_counted s s.consumed l
  rw [show s.counted s.consumed = s from rfl, h, Option.map_some, Option.some.injEq] at hcounted
  rw [hcounted]
  rfl

theorem ready_foldlM_feed {l : List UInt8} (h : s.Ready) (hl : l.foldlM feed s = some s') :
    s'.Ready := by
  induction l generalizing s with
  | nil =>
    cases hl
    exact h
  | cons b l ih =>
    rw [List.foldlM_cons] at hl
    obtain ⟨t, ht, hl⟩ := Option.bind_eq_some_iff.mp hl
    exact ih (h.feed ht) hl

theorem accept_eq (h : s.Ready) (chunk : List UInt8) :
    s.accept chunk = (chunk.foldlM feed s).map (counted (wrapAdd s.consumed chunk.length)) := by
  rw [accept, eval_acceptLoop chunk (s, 0) h, List.drop_zero]
  cases hfold : chunk.foldlM feed s with
  | none => rfl
  | some t => rw [Option.map_some, Option.map_some, consumed_foldlM_feed hfold, counted]

theorem Ready.accept {chunk : List UInt8} (h : s.Ready) (hs : s.accept chunk = some s') : s'.Ready := by
  rw [accept_eq h] at hs
  obtain ⟨t, ht, rfl⟩ := Option.map_eq_some_iff.mp hs
  exact ⟨(ready_foldlM_feed h ht).skip_pos, wrapAdd_lt _ _⟩

theorem wrapAdd_wrapAdd (x y z : ℕ) : wrapAdd (wrapAdd x y) z = wrapAdd x (y + z) := by
  unfold wrapAdd
  omega

/-- Two chunks do what they do as one. -/
theorem accept_append (h : s.Ready) (a b : List UInt8) :
    s.accept (a ++ b) = (s.accept a).bind fun s => s.accept b := by
  rw [accept_eq h, accept_eq h, List.foldlM_append, List.length_append]
  cases ha : a.foldlM feed s with
  | none => rfl
  | some t =>
    have hnext : (t.counted (wrapAdd s.consumed a.length)).Ready :=
      ⟨(ready_foldlM_feed h ha).skip_pos, wrapAdd_lt _ _⟩
    rw [Option.map_some, Option.bind_some, accept_eq hnext, foldlM_feed_counted, Option.map_map]
    change (b.foldlM feed t).map _ = _
    rw [show (t.counted (wrapAdd s.consumed a.length)).consumed = wrapAdd s.consumed a.length from rfl,
      wrapAdd_wrapAdd]
    rfl

theorem accept_nil (h : s.Ready) : s.accept [] = some s := by
  rw [accept_eq h, List.foldlM_nil]
  have hzero : wrapAdd s.consumed 0 = s.consumed := Nat.mod_eq_of_lt h.consumed_lt
  change some (s.counted (wrapAdd s.consumed 0)) = some s
  rw [hzero]
  rfl

theorem foldlM_accept (h : s.Ready) (pieces : List (List UInt8)) :
    pieces.foldlM accept s = s.accept pieces.flatten := by
  induction pieces generalizing s with
  | nil => exact (accept_nil h).symm
  | cons a pieces ih =>
    rw [List.foldlM_cons, List.flatten_cons, accept_append h]
    cases ha : s.accept a with
    | none => rfl
    | some t => exact ih (h.accept ha)

end Cut

/-- The states that a scanner gets into. -/
inductive Reachable : JpegScan → Prop
  | new : Reachable new
  | accept {s s' : JpegScan} {chunk : List UInt8} (h : Reachable s) (hs : s.accept chunk = some s') :
    Reachable s'

theorem Reachable.ready {s : JpegScan} (h : Reachable s) : s.Ready := by
  induction h with
  | new => exact ready_new
  | accept _ hs ih => exact ih.accept hs

/-- It does not matter how a stream is cut: two pieces pass as they do in one, and so do as
many as there are. -/
theorem cut_anywhere {s : JpegScan} (h : Reachable s) :
    (∀ a b, s.accept (a ++ b) = (s.accept a).bind fun s => s.accept b) ∧
      ∀ pieces : List (List UInt8), pieces.foldlM accept s = s.accept pieces.flatten :=
  ⟨accept_append h.ready, foldlM_accept h.ready⟩

/-- A segment of six bytes, cut behind the first byte of its length. -/
theorem cut_in_length :
    new.accept [0xFF, 0xD8, 0xFF, 0xE0, 0x00, 0x04, 0x4A, 0x46] =
      (new.accept [0xFF, 0xD8, 0xFF, 0xE0, 0x00]).bind fun s => s.accept [0x04, 0x4A, 0x46] :=
  (cut_anywhere .new).1 [0xFF, 0xD8, 0xFF, 0xE0, 0x00] [0x04, 0x4A, 0x46]

end JpegScan

end Unearth
