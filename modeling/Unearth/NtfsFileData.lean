import Unearth.NtfsReads
import Unearth.NtfsRecord
import Unearth.NtfsVolume

/-!
# The data of a recovered NTFS file

The runs of a file are copied one behind the other through one buffer, and the last of them is
cut at the size of the file. The writer stops at the first byte that the source does not have.
-/

namespace Unearth.Ntfs
open Bytes Word Loop

/-- What has been written to the output file, and what the writer returns. -/
structure Output where
  out : List UInt8
  result : Exec ℕ

section Loops

variable (src : Source) (bufLen : ℕ) (hbuf : 0 < bufLen)

structure Filling where
  left : ℕ
  out : List UInt8

def fillBody (s : Filling) : Ctl Filling (List UInt8) :=
  if s.left = 0 then .done s.out
  else
    let n := min s.left bufLen
    .next ⟨s.left - n, s.out ++ List.replicate n 0⟩

theorem fillBody_next {s s' : Filling} (h : fillBody bufLen s = .next s') :
    s.left ≠ 0 ∧ s'.left = s.left - min s.left bufLen := by
  unfold fillBody at h
  split_ifs at h with hleft
  cases h
  exact ⟨hleft, rfl⟩

/-- The zeros of a hole. -/
def fillLoop : While Filling (List UInt8) where
  body := fillBody bufLen
  measure s := s.left
  decreases s s' h := by
    obtain ⟨hleft, heq⟩ := fillBody_next bufLen h
    omega

structure Copying where
  pos : ℕ
  left : ℕ
  out : List UInt8

/-- What is left of a run that was copied, what has been written, and whether a read failed. -/
structure Copied where
  left : ℕ
  out : List UInt8
  result : Exec Unit

def copyBody (b : Build) (s : Copying) : Ctl Copying Copied :=
  if s.left = 0 then .done ⟨s.left, s.out, .ok ()⟩
  else
    match src.readAt s.pos (min s.left bufLen) with
    | .error e => .done ⟨s.left, s.out, .error e⟩
    | .ok bytes =>
      if bytes.length = 0 then .done ⟨s.left, s.out, .ok ()⟩
      else
        match plus b s.pos bytes.length with
        | .error e => .done ⟨s.left, s.out ++ bytes, .error e⟩
        | .ok pos => .next ⟨pos, s.left - bytes.length, s.out ++ bytes⟩

theorem copyBody_next {b : Build} {s s' : Copying} (h : copyBody src bufLen b s = .next s') :
    s.left ≠ 0 ∧ s'.left < s.left := by
  unfold copyBody at h
  split_ifs at h with hleft
  refine ⟨hleft, ?_⟩
  split at h
  · cases h
  · split_ifs at h
    split at h
    · cases h
    · cases h
      dsimp only
      omega

/-- A run of the disk, as far as the source has it. -/
def copyLoop (b : Build) : While Copying Copied where
  body := copyBody src bufLen b
  measure s := s.left
  decreases _ _ h := (copyBody_next src bufLen h).2

end Loops

namespace Volume

variable (b : Build) (v : Volume) (src : Source)

section Runs

variable (bufLen : ℕ) (hbuf : 0 < bufLen)

def writeRuns : Runs → ℕ → ℕ → List UInt8 → Output
  | [], _, written, out => ⟨out, .ok written⟩
  | (lcn, count) :: runs, remaining, written, out =>
    if remaining = 0 then ⟨out, .ok written⟩
    else
      let take := min (satMul count v.clusterSize) remaining
      let next := fun out =>
        match plus b written take with
        | .error e => ⟨out, .error e⟩
        | .ok written => writeRuns runs (remaining - take) written out
      match lcn with
      | none => next ((fillLoop bufLen hbuf).eval ⟨take, out⟩)
      | some l =>
        -- A negative cluster is none.
        if l < 0 then ⟨out, .ok written⟩
        else
          let pos := satAdd v.offset (satMul l.toNat v.clusterSize)
          let copied := (copyLoop src bufLen b).eval ⟨pos, take, out⟩
          match copied.result with
          | .error e => ⟨copied.out, .error e⟩
          | .ok () =>
            -- The run reaches past the source, and what was read of it is all there is.
            if 0 < copied.left then ⟨copied.out, plus b written (take - copied.left)⟩ else next copied.out

end Runs

/-- The buffer has the size of the file, and at most 1 MiB. -/
def bufLen (size : ℕ) : ℕ := max 1 (min size (1024 * 1024))

theorem bufLen_pos (size : ℕ) : 0 < bufLen size := Nat.lt_of_lt_of_le Nat.one_pos (le_max_left _ _)

def writeFile (data : DataAttr) : Output :=
  match data.kind with
  | .resident bytes => ⟨bytes, .ok bytes.length⟩
  | .nonResident runs =>
    v.writeRuns b src (bufLen data.size) (bufLen_pos data.size) runs data.size 0 []

end Volume

section Loops

variable {src : Source} {bufLen : ℕ}

theorem fillLoop_eq (hbuf : 0 < bufLen) (s : Filling) :
    (fillLoop bufLen hbuf).eval s = s.out ++ List.replicate s.left 0 := by
  induction s using (fillLoop bufLen hbuf).induct with
  | step s ih =>
    by_cases hleft : s.left = 0
    · rw [(fillLoop bufLen hbuf).eval_done (r := s.out) (if_pos hleft), hleft, List.replicate_zero, List.append_nil]
    · have hnext : (fillLoop bufLen hbuf).body s =
          .next ⟨s.left - min s.left bufLen, s.out ++ List.replicate (min s.left bufLen) 0⟩ := if_neg hleft
      rw [(fillLoop bufLen hbuf).eval_next hnext, ih _ hnext, List.append_assoc, ← List.replicate_add,
        Nat.add_sub_cancel' (min_le_left _ _)]

/-- The first `n` bytes from a place on are written, and the copy is complete or ends with the
source or with a read that fails. -/
structure CopiedFrom (src : Source) (pos left : ℕ) (out : List UInt8) (n : ℕ) (c : Copied) : Prop where
  taken : n ≤ left ∧ c.left = left - n
  there : n = 0 ∨ pos + n ≤ src.size
  out : c.out = out ++ window src.data pos n
  ended : (c.result = .ok () ∧ (n = left ∨ src.size ≤ pos + n)) ∨
    (c.result = .error .io ∧ n < left ∧ (2 ^ 63 ≤ pos ∨ ∃ off len, src.fails off len = true))

theorem copyLoop_copied (b : Build) (src : Source) (hbuf : 0 < bufLen) (s : Copying) :
    ∃ n, CopiedFrom src s.pos s.left s.out n ((copyLoop src bufLen b).eval s) := by
  induction s using (copyLoop src bufLen b).induct with
  | step s ih =>
    have hsize := src.size_lt
    have hstep : (copyLoop src bufLen b).body s = copyBody src bufLen b s := rfl
    unfold copyBody at hstep
    by_cases hleft : s.left = 0
    · rw [if_pos hleft] at hstep
      rw [(copyLoop src bufLen b).eval_done hstep]
      exact ⟨0, ⟨Nat.zero_le _, rfl⟩, .inl rfl, (List.append_nil _).symm, .inl ⟨rfl, .inl hleft.symm⟩⟩
    rw [if_neg hleft] at hstep
    cases hread : src.readAt s.pos (min s.left bufLen) with
    | error e =>
      rw [hread] at hstep
      rw [(copyLoop src bufLen b).eval_done hstep]
      obtain rfl := Source.readAt_error hread
      refine ⟨0, ⟨Nat.zero_le _, rfl⟩, .inl rfl, (List.append_nil _).symm, .inr ⟨rfl, by omega, ?_⟩⟩
      unfold Source.readAt at hread
      split_ifs at hread with hfails
      exact hfails.2.imp_right fun hfail => ⟨_, _, hfail⟩
    | ok bytes =>
      have hbytes := Source.readAt_ok hread
      have hlength : bytes.length = min (min s.left bufLen) (src.size - s.pos) := by
        rw [hbytes, length_window]
        rfl
      rw [hread] at hstep
      dsimp only at hstep
      by_cases hempty : bytes.length = 0
      · rw [if_pos hempty] at hstep
        rw [(copyLoop src bufLen b).eval_done hstep]
        exact ⟨0, ⟨Nat.zero_le _, rfl⟩, .inl rfl, (List.append_nil _).symm, .inl ⟨rfl, .inr (by omega)⟩⟩
      have hinside : s.pos + bytes.length ≤ src.size := by omega
      have hsize' : src.size < 2 ^ 63 := hsize
      rw [if_neg hempty, plus_eq (by omega)] at hstep
      obtain ⟨n, htaken, hthere, hout, hended⟩ := ih _ hstep
      rw [(copyLoop src bufLen b).eval_next hstep]
      dsimp only at htaken hthere hout hended
      refine ⟨bytes.length + n, ⟨by omega, by omega⟩, .inr (by omega), ?_, ?_⟩
      · have hwindow : bytes = window src.data s.pos bytes.length := by
          have htake := congrArg (List.take bytes.length) hbytes
          rw [List.take_length, window, List.take_take, min_eq_left (by omega)] at htake
          exact htake
        rw [hout, List.append_assoc, ← window_append_window, ← hwindow]
      · rcases hended with ⟨hok, hend⟩ | ⟨herror, hmore, hfail⟩
        · exact .inl ⟨hok, hend.imp (fun h => by omega) fun h => by omega⟩
        · exact .inr ⟨herror, by omega, hfail.imp_left fun h => by omega⟩

end Loops

section Written

variable {b : Build} {v : Volume} {src : Source} {bufLen remaining written : ℕ} {runs : Runs} {out : List UInt8}

/-- What is written behind `out` begins the stream of the runs. It is counted, and it is all of the
stream if that is all there, unless a read fails. -/
structure WrittenFrom (v : Volume) (src : Source) (runs : Runs) (remaining written : ℕ) (out tail : List UInt8)
    (w : Output) : Prop where
  out : w.out = out ++ tail
  begins : tail.map some <+: stream src v.offset v.clusterSize runs 0 remaining
  counted : (w.result = .ok (written + tail.length) ∧
      ((∀ l n, (some l, n) ∈ runs → 0 ≤ l) → none ∉ stream src v.offset v.clusterSize runs 0 remaining →
        tail.length = (stream src v.offset v.clusterSize runs 0 remaining).length)) ∨
    (w.result = .error .io ∧ (none ∈ stream src v.offset v.clusterSize runs 0 remaining ∨
      ∃ off len, src.fails off len = true))

theorem writtenFrom_stop (v : Volume) (src : Source) (runs : Runs) (remaining written : ℕ) (out : List UInt8)
    (h : (∀ l n, (some l, n) ∈ runs → 0 ≤ l) → none ∉ stream src v.offset v.clusterSize runs 0 remaining →
      (stream src v.offset v.clusterSize runs 0 remaining).length = 0) :
    WrittenFrom v src runs remaining written out [] ⟨out, .ok written⟩ :=
  ⟨(List.append_nil _).symm, List.nil_prefix, .inl ⟨rfl, fun hpos hall => (h hpos hall).symm⟩⟩

/-- The writer goes on behind bytes that are those of a run. -/
theorem WrittenFrom.behind {bytes tail : List UInt8} {r : Run} {w : Output} {piece : List (Option UInt8)} {take : ℕ}
    (hpiece : piece = bytes.map some)
    (hstream : stream src v.offset v.clusterSize (r :: runs) 0 remaining =
      piece ++ stream src v.offset v.clusterSize runs 0 (remaining - take))
    (htake : bytes.length = take)
    (h : WrittenFrom v src runs (remaining - take) (written + take) (out ++ bytes) tail w) :
    WrittenFrom v src (r :: runs) remaining written out (bytes ++ tail) w := by
  have hnone : none ∈ stream src v.offset v.clusterSize (r :: runs) 0 remaining ↔
      none ∈ stream src v.offset v.clusterSize runs 0 (remaining - take) := by
    rw [hstream, hpiece, List.mem_append, or_iff_right (by simp)]
  refine ⟨by rw [h.out, List.append_assoc], ?_, ?_⟩
  · rw [hstream, hpiece, List.map_append]
    exact (List.prefix_append_right_inj _).mpr h.begins
  · rw [hnone]
    refine h.counted.imp (fun ⟨hok, hall⟩ => ⟨?_, fun hpos hthere => ?_⟩) id
    · rw [hok, List.length_append, htake, Nat.add_assoc]
    · rw [List.length_append, hstream, hpiece, List.length_append, List.length_map,
        hall (fun l n hmem => hpos l n (List.mem_cons_of_mem _ hmem)) hthere]

/-- The bytes of a run that the source has are the first ones of it. -/
theorem map_byteIn_window (src : Source) {l : ℤ} (hl : ¬ l < 0) {clusterSize volOffset take n : ℕ} (hn : n ≤ take)
    (hthere : n = 0 ∨ volOffset + l.toNat * clusterSize + n ≤ src.size) :
    (List.range' 0 take).map (byteIn src volOffset clusterSize (some l)) =
      (window src.data (volOffset + l.toNat * clusterSize) n).map some ++
        (List.range' n (take - n)).map (byteIn src volOffset clusterSize (some l)) := by
  have hlength : (window src.data (volOffset + l.toNat * clusterSize) n).length = n := by
    rw [length_window]
    unfold Source.size at hthere
    omega
  have hsplit : List.range' 0 take = List.range' 0 n ++ List.range' n (take - n) := by
    have happend := @List.range'_append 0 n (take - n) 1
    rw [Nat.one_mul, Nat.zero_add, Nat.add_sub_cancel' hn] at happend
    exact happend.symm
  rw [hsplit, List.map_append]
  congr 1
  apply List.ext_getElem
  · rw [List.length_map, List.length_range', List.length_map, hlength]
  · intro i hi hi'
    rw [List.length_map, List.length_range'] at hi
    have hplace : volOffset + l.toNat * clusterSize + i < src.data.length := by
      unfold Source.size at hthere
      omega
    simp only [List.getElem_map, List.getElem_range', Nat.one_mul, Nat.zero_add, window, List.getElem_take,
      List.getElem_drop]
    rw [byteIn, if_neg hl, List.getElem?_eq_getElem hplace]

theorem writeRuns_written (b : Build) (v : Volume) (src : Source) (remaining written : ℕ) (hbuf : 0 < bufLen)
    (hfits : ∀ r ∈ runs, r.2 * v.clusterSize < 2 ^ 64) (hword : written + remaining < 2 ^ 64) (out : List UInt8) :
    ∃ tail, WrittenFrom v src runs remaining written out tail
      (v.writeRuns b src bufLen hbuf runs remaining written out) := by
  induction runs generalizing remaining written out with
  | nil => exact ⟨[], writtenFrom_stop v src [] remaining written out fun _ _ => rfl⟩
  | cons r runs ih =>
    obtain ⟨lcn, count⟩ := r
    have hfit : count * v.clusterSize < 2 ^ 64 := hfits _ List.mem_cons_self
    have hlater (m n : ℕ) := ih m n fun r hr => hfits r (List.mem_cons_of_mem _ hr)
    unfold Volume.writeRuns
    by_cases hrem : remaining = 0
    · rw [if_pos hrem]
      refine ⟨[], writtenFrom_stop v src _ remaining written out fun _ _ => ?_⟩
      rw [stream, if_pos hrem]
      rfl
    rw [if_neg hrem, satMul_eq hfit]
    dsimp only
    set take := min (count * v.clusterSize) remaining with htake
    rw [plus_eq (b := b) (show written + take < 2 ^ 64 by omega)]
    dsimp only
    have hword' : written + take + (remaining - take) < 2 ^ 64 := by omega
    -- A run of no bytes is no part of the stream.
    have hstream (hneg : ∀ l ∈ lcn, ¬ l < 0) : stream src v.offset v.clusterSize ((lcn, count) :: runs) 0 remaining =
        (List.range' 0 take).map (byteIn src v.offset v.clusterSize lcn) ++
          stream src v.offset v.clusterSize runs 0 (remaining - take) := by
      have hany : (lcn.any fun l : ℤ => l < 0) = false := by
        cases lcn with
        | none => rfl
        | some l => exact decide_eq_false (hneg l rfl)
      rw [stream, if_neg hrem, hany]
      by_cases hempty : count * v.clusterSize ≤ 0
      · have hzero : take = 0 := by omega
        rw [if_pos hempty, hzero, Nat.zero_sub, Nat.sub_zero]
        rfl
      · rw [if_neg hempty, Nat.sub_zero]
        rfl
    cases lcn with
    | none =>
      rw [fillLoop_eq hbuf]
      obtain ⟨tail, htail⟩ := hlater _ _ hword' (out ++ List.replicate take 0)
      refine ⟨_, htail.behind ?_ (hstream fun l hl => (by cases hl)) List.length_replicate⟩
      rw [List.map_replicate]
      change ((List.range' 0 take).map fun _ => some (0 : UInt8)) = _
      rw [List.map_const', List.length_range']
    | some l =>
      by_cases hneg : l < 0
      · dsimp only
        rw [if_pos hneg]
        refine ⟨[], writtenFrom_stop v src _ remaining written out fun hpos _ => ?_⟩
        exact absurd (hpos l count List.mem_cons_self) (not_le.mpr hneg)
      dsimp only
      rw [if_neg hneg]
      have hstream := hstream fun l' hl' => by
        cases hl'
        exact hneg
      obtain ⟨n, ⟨htaken, hleft⟩, hthere, hout, hended⟩ := copyLoop_copied b src hbuf
        ⟨satAdd v.offset (satMul l.toNat v.clusterSize), take, out⟩
      dsimp only at htaken hleft hthere hout hended
      -- A saturated place lies behind the source, as the true one does.
      have hplace : satAdd v.offset (satMul l.toNat v.clusterSize) ≤ v.offset + l.toNat * v.clusterSize ∧
          (satAdd v.offset (satMul l.toNat v.clusterSize) < 2 ^ 63 →
            satAdd v.offset (satMul l.toNat v.clusterSize) = v.offset + l.toNat * v.clusterSize) := by
        simp only [satAdd, satMul]
        omega
      set pos := satAdd v.offset (satMul l.toNat v.clusterSize)
      set copied := (copyLoop src bufLen b).eval ⟨pos, take, out⟩
      have hsize : src.size < 2 ^ 63 := src.size_lt
      have hthere' : n = 0 ∨ v.offset + l.toNat * v.clusterSize + n ≤ src.size := by omega
      have hwindow : window src.data pos n = window src.data (v.offset + l.toNat * v.clusterSize) n := by
        by_cases hzero : n = 0
        · rw [hzero, window, window, List.take_zero, List.take_zero]
        · rw [hplace.2 (by omega)]
      have hbytes : (window src.data (v.offset + l.toNat * v.clusterSize) n).length = n := by
        rw [length_window]
        unfold Source.size at hthere'
        omega
      have hsplit := map_byteIn_window src hneg htaken hthere'
      have hmissing (hn : n < take) (hbehind : src.size ≤ v.offset + l.toNat * v.clusterSize + n) :
          none ∈ stream src v.offset v.clusterSize ((some l, count) :: runs) 0 remaining := by
        rw [hstream, hsplit]
        refine List.mem_append_left _ (List.mem_append_right _ (List.mem_map.mpr ⟨n, ?_, ?_⟩))
        · rw [List.mem_range'_1]
          omega
        · rw [byteIn, if_neg hneg, List.getElem?_eq_none hbehind]
      have hbegins : (window src.data (v.offset + l.toNat * v.clusterSize) n).map some <+:
          stream src v.offset v.clusterSize ((some l, count) :: runs) 0 remaining := by
        rw [hstream, hsplit, List.append_assoc]
        exact List.prefix_append _ _
      rcases hended with ⟨hok, hend⟩ | ⟨herror, hmore, hfail⟩
      · rw [hok, hleft, hout, hwindow]
        dsimp only
        by_cases hcut : 0 < take - n
        · rw [if_pos hcut, Nat.sub_sub_self htaken, plus_eq (by omega)]
          refine ⟨_, rfl, hbegins, .inl ⟨by rw [hbytes], fun _ hall => ?_⟩⟩
          exact absurd (hmissing (by omega) (by omega)) hall
        · have hfull : n = take := by omega
          rw [if_neg hcut]
          obtain ⟨tail, htail⟩ := hlater _ _ hword' (out ++ window src.data (v.offset + l.toNat * v.clusterSize) n)
          refine ⟨_, htail.behind ?_ hstream (by rw [hbytes, hfull])⟩
          rw [hsplit, hfull, Nat.sub_self]
          exact List.append_nil _
      · rw [herror, hout, hwindow]
        refine ⟨_, rfl, hbegins, .inr ⟨rfl, hfail.imp_left fun hfar => hmissing hmore (by omega)⟩⟩

/-- A file is written exactly: what is output are its first bytes, as many as are reported, and all of
them when its runs have them. -/
theorem file_written_exactly (b : Build) (v : Volume) (src : Source) (data : DataAttr) {runs : Runs}
    (hkind : data.kind = .nonResident runs) (hsize : data.size < 2 ^ 64)
    (hfits : ∀ r ∈ runs, r.2 * v.clusterSize < 2 ^ 64) :
    (v.writeFile b src data).out.length ≤ data.size ∧
      (∀ i < (v.writeFile b src data).out.length,
        logicalByte src v.offset v.clusterSize runs i = (v.writeFile b src data).out[i]?) ∧
      (∀ n, (v.writeFile b src data).result = .ok n → n = (v.writeFile b src data).out.length) ∧
      ((∀ l n, (some l, n) ∈ runs → 0 ≤ l) →
        (∀ p < data.size, (logicalByte src v.offset v.clusterSize runs p).isSome) →
        (v.writeFile b src data).result = .ok data.size ∨
          ((v.writeFile b src data).result = .error .io ∧ ∃ off len, src.fails off len = true)) := by
  have hfile : v.writeFile b src data = v.writeRuns b src (Volume.bufLen data.size)
      (Volume.bufLen_pos data.size) runs data.size 0 [] := by
    rw [Volume.writeFile, hkind]
  obtain ⟨tail, hout, hbegins, hcounted⟩ := writeRuns_written b v src data.size 0
    (Volume.bufLen_pos data.size) hfits (by omega) []
  rw [List.nil_append] at hout
  rw [← hfile] at hout hcounted
  have hstream := stream_streamed src v.offset v.clusterSize runs 0 data.size
  set bytes := stream src v.offset v.clusterSize runs 0 data.size
  have hlength := hbegins.length_le
  rw [List.length_map] at hlength
  have hbound : bytes.length ≤ data.size := by
    by_contra hlarge
    exact absurd (hstream.short data.size (by omega)).1 (lt_irrefl _)
  have hget (i : ℕ) (hi : i < bytes.length) : bytes[i]? = some (logicalByte src v.offset v.clusterSize runs i) := by
    rw [hstream.get i hi, Nat.zero_add]
  rw [hout]
  refine ⟨by omega, fun i hi => ?_, fun n hn => ?_, fun hpos hthere => ?_⟩
  · have hfront := List.prefix_iff_getElem?.mp hbegins i (by rwa [List.length_map])
    rw [hget i (by omega), List.getElem_map, Option.some_inj] at hfront
    rw [hfront, List.getElem?_eq_getElem hi]
  · rcases hcounted with ⟨hok, -⟩ | ⟨herror, -⟩
    · rw [hok, Nat.zero_add] at hn
      exact (Except.ok.inj hn).symm
    · rw [herror] at hn
      cases hn
  · have hall : none ∉ bytes := by
      intro hmem
      obtain ⟨i, hi⟩ := List.getElem?_of_mem hmem
      have hlt : i < bytes.length := (List.getElem?_eq_some_iff.mp hi).1
      have hsome := hthere i (by omega)
      rw [hget i hlt, Option.some_inj] at hi
      rw [hi] at hsome
      cases hsome
    rcases hcounted with ⟨hok, hcomplete⟩ | ⟨herror, hfail⟩
    · left
      have hfull : bytes.length = data.size := by
        by_contra hne
        have hsome := hthere bytes.length (by omega)
        rcases hstream.ended (by omega) with ⟨l, q, hlocate, hneg⟩ | hend
        · rw [Nat.zero_add] at hlocate
          have hnone : logicalByte src v.offset v.clusterSize runs bytes.length = none := by
            rw [logicalByte, hlocate]
            exact if_pos hneg
          rw [hnone] at hsome
          cases hsome
        · rw [logicalByte, hend _ (by omega)] at hsome
          cases hsome
      rw [hok, hcomplete hpos hall, hfull, Nat.zero_add]
    · exact .inr ⟨herror, hfail.resolve_left hall⟩

/-- Each byte of runs that lie inside the source is there. -/
theorem logicalByte_of_inside {volOffset clusterSize : ℕ}
    (hinside : ∀ l n, (some l, n) ∈ runs → 0 ≤ l ∧ volOffset + (l.toNat + n) * clusterSize ≤ src.size) {p : ℕ}
    (hp : p < (runs.map Prod.snd).sum * clusterSize) : (logicalByte src volOffset clusterSize runs p).isSome := by
  induction runs generalizing p with
  | nil => simp at hp
  | cons r runs ih =>
    obtain ⟨lcn, count⟩ := r
    unfold logicalByte locate
    by_cases hfirst : p < count * clusterSize
    · rw [if_pos hfirst]
      cases lcn with
      | none => rfl
      | some l =>
        obtain ⟨hpos, hend⟩ := hinside l count List.mem_cons_self
        rw [Nat.add_mul] at hend
        have hplace : volOffset + l.toNat * clusterSize + p < src.data.length := by
          unfold Source.size at hend
          omega
        change (byteIn src volOffset clusterSize (some l) p).isSome
        rw [byteIn, if_neg (not_lt.mpr hpos), List.getElem?_eq_getElem hplace]
        rfl
    · rw [if_neg hfirst]
      rw [List.map_cons, List.sum_cons, Nat.add_mul] at hp
      dsimp only at hp
      exact ih (fun l n hmem => hinside l n (List.mem_cons_of_mem _ hmem)) (by omega)

/-- Two clusters and a hole between them, of which the last one is cut. -/
def holeVolume : Volume where
  offset := 0
  bytesPerSector := 512
  clusterSize := 512
  recordSize := 1024
  volumeSize := 1024
  mftRuns := []
  recordCount := 0
  serial := 0

def holeRuns : Runs := [(some 1, 1), (none, 1), (some 0, 1)]

theorem hole_written : (holeVolume.writeFile .debug cutSource ⟨1100, .nonResident holeRuns⟩).result = .ok 1100 ∧
    ∀ i < (holeVolume.writeFile .debug cutSource ⟨1100, .nonResident holeRuns⟩).out.length,
      logicalByte cutSource 0 512 holeRuns i =
        (holeVolume.writeFile .debug cutSource ⟨1100, .nonResident holeRuns⟩).out[i]? := by
  obtain ⟨-, hbytes, -, hall⟩ := file_written_exactly .debug holeVolume cutSource ⟨1100, .nonResident holeRuns⟩ rfl
    (by decide) (by decide)
  have hin : ∀ l n, (some l, n) ∈ holeRuns → 0 ≤ l ∧ 0 + (l.toNat + n) * 512 ≤ cutSource.size := by
    intro l n hmem
    have hsize : cutSource.size = 1024 := by decide +kernel
    simp only [holeRuns, List.mem_cons, Prod.mk.injEq, Option.some_inj, List.not_mem_nil, or_false, reduceCtorEq,
      false_and, false_or] at hmem
    omega
  refine ⟨(hall (fun l n hmem => (hin l n hmem).1) fun p hp => ?_).resolve_right ?_, hbytes⟩
  · apply logicalByte_of_inside hin
    exact hp.trans (by decide)
  · rintro ⟨-, off, len, hfail⟩
    cases hfail

end Written

end Unearth.Ntfs
