import Unearth.ExfatVolume
import Unearth.ExtVolume
import Unearth.FatVolume
import Unearth.HfsVolume
import Unearth.Lib.Loop
import Unearth.NtfsVolume

/-!
# The scan for volumes that no partition table names

Every step of the source is probed for a volume. Behind a volume that was recognised the scan
goes on at the first step after its end, where the end is reckoned from the position that was
probed.
-/

namespace Unearth.Lost
open Bytes Word Loop

/-- Where a volume lies. -/
structure Found where
  offset : ℕ
  size : ℕ
  deriving DecidableEq

/-- The kinds of volume whose readers are not taken apart here. -/
inductive Other
  | encrypted | refs | hfsStd | apfs | btrfs | xfs | f2fs | reiserfs | jfs | nilfs2 | gfs2 | ocfs2
  | minix | bcachefs | befs | ufs | erofs | cramfs | romfs | lvm | mdraid | swap | udf | iso
  deriving DecidableEq

inductive Kind
  | exfat
  | ntfs
  | ext
  | hfs
  | fat
  | other (kind : Other)

/-- The order in which the kinds are tried. -/
def kinds : List Kind :=
  [.other .encrypted, .exfat, .ntfs, .other .refs, .ext, .hfs, .other .hfsStd, .other .apfs,
    .other .btrfs, .other .xfs, .other .f2fs, .other .reiserfs, .other .jfs, .other .nilfs2,
    .other .gfs2, .other .ocfs2, .other .minix, .other .bcachefs, .other .befs, .other .ufs,
    .other .erofs, .other .cramfs, .other .romfs, .other .lvm, .other .mdraid, .other .swap, .fat,
    .other .udf, .other .iso]

/-- A volume that is refused is not one of the kind. -/
def accepted {V : Type} (place : V → Found) : Except ParseError V → Option Found
  | .ok v => some (place v)
  | .error _ => none

section Probe

variable (b : Build) (src : Source) (others : Other → ℕ → Exec (Option Found))

def isExtVolume (offset : ℕ) : Exec Bool := do
  let at_ ← plus b (← plus b offset Ext.SUPERBLOCK_OFFSET) 0x38
  match src.readAt at_ 2 with
  | .error _ => return false
  | .ok m => return m.length = 2 && le m = Ext.EXT_MAGIC

/-- The volume of a kind at an offset, by its signature first. -/
def detect (offset : ℕ) (boot : List UInt8) : Kind → Exec (Option Found)
  | .exfat =>
    if Exfat.isExfatVbr boot then
      return accepted (fun v => ⟨v.offset, v.size⟩) (← Exfat.Volume.parse b src offset)
    else return none
  | .ntfs =>
    if Ntfs.isNtfsVbr boot then
      return accepted (fun v => ⟨v.offset, v.volumeSize⟩) (← Ntfs.Volume.parse b src offset)
    else return none
  | .ext => do
    if ← isExtVolume b src offset then
      return accepted (fun v => ⟨v.offset, v.size⟩) (← Ext.Volume.parse b src offset)
    else return none
  | .hfs => do
    if (← Hfs.hfsplusOffset b src offset).isSome then
      return accepted (fun v => ⟨v.offset, v.size⟩) (← Hfs.Volume.parse b src offset)
    else return none
  | .fat =>
    if Fat.looksLikeFatVbr boot then
      return accepted (fun v => ⟨v.offset, v.size⟩) (Fat.Volume.parse src offset)
    else return none
  | .other kind => others kind offset

/-- The first of the kinds that a volume is of. -/
def firstKind (offset : ℕ) (boot : List UInt8) : List Kind → Exec (Option Found)
  | [] => return none
  | k :: rest => do
    match ← detect b src others offset boot k with
    | some v => return some v
    | none => firstKind offset boot rest

def tryParseVolume (offset : ℕ) : Exec (Option Found) := do
  let boot ← src.readAt offset 512
  if boot.length < 512 then return none
  else firstKind b src others offset boot kinds

end Probe


/-- The scan with the positions it still has to probe: where it is, how many positions it has
probed, and what it has found. -/
structure Sweep where
  offset : ℕ
  probes : ℕ
  found : List Found
  deriving DecidableEq

def MAX_PROBES : ℕ := 16000000

/-- The first step after the end of a volume, which is reckoned from where it was probed. -/
def behind (step position size : ℕ) : ℕ :=
  satMul (divCeil (satAdd position (max size step)) step) step

/-- The scan of so many bytes with a prober. -/
def sweep (probe : ℕ → Exec (Option Found)) (size step : ℕ) : While Sweep (Exec Sweep) where
  body s :=
    if s.offset < size ∧ s.probes < MAX_PROBES then
      match probe s.offset with
      | .error e => .done (.error e)
      | .ok (some v) => .next ⟨behind step s.offset v.size, s.probes + 1, s.found ++ [v]⟩
      | .ok none =>
        match checkedAdd s.offset step with
        | some o => .next ⟨o, s.probes + 1, s.found⟩
        | none => .done (.ok ⟨s.offset, s.probes + 1, s.found⟩)
    else .done (.ok s)
  measure s := MAX_PROBES - s.probes
  decreases s s' h := by
    split_ifs at h with hgo
    cases hp : probe s.offset with
    | error e =>
      rw [hp] at h
      cases h
    | ok r =>
      rw [hp] at h
      cases r with
      | some v =>
        cases h
        exact Nat.sub_succ_lt_self _ _ hgo.2
      | none =>
        cases ha : checkedAdd s.offset step with
        | none =>
          simp only [ha] at h
          cases h
        | some o =>
          simp only [ha] at h
          cases h
          exact Nat.sub_succ_lt_self _ _ hgo.2

def Sweep.start : Sweep := ⟨0, 0, []⟩

def lostSweep (b : Build) (src : Source) (others : Other → ℕ → Exec (Option Found)) (step : ℕ) :
    While Sweep (Exec Sweep) :=
  sweep (tryParseVolume b src others) src.size (max step 512)

def scanLostVolumes (b : Build) (src : Source) (others : Other → ℕ → Exec (Option Found))
    (step : ℕ) : Exec (List Found) :=
  Sweep.found <$> (lostSweep b src others step).eval .start

/-- The volumes of a scan, in the order in which they were found. -/
structure Apart (found : List Found) : Prop where
  offsets : found.Pairwise fun u v => u.offset ≠ v.offset
  outside : found.Pairwise fun u v => ¬ (u.offset ≤ v.offset ∧ v.offset < u.offset + u.size)

/-- What is recognised at a position is reported or lies in a volume that is. -/
def Covered (probe : ℕ → Exec (Option Found)) (found : List Found) (position : ℕ) : Prop :=
  ∀ v, probe position = .ok (some v) →
    v ∈ found ∨ ∃ u ∈ found, u.offset ≤ position ∧ position < u.offset + u.size

section Behind

variable {step p q n : ℕ}

theorem divCeil_le (hstep : 0 < step) (h : q * step < divCeil n step * step) : q * step < n := by
  have hq : q + 1 ≤ (n + step - 1) / step := Nat.lt_of_mul_lt_mul_right h
  have hmul := (Nat.le_div_iff_mul_le hstep).mp hq
  rw [Nat.succ_mul] at hmul
  omega

theorem le_divCeil (hstep : 0 < step) : n ≤ divCeil n step * step := by
  have hlt := Nat.lt_mul_div_succ (n + step - 1) hstep
  unfold divCeil
  rw [Nat.mul_comm]
  rw [Nat.mul_add, Nat.mul_one] at hlt
  omega

/-- The scan is past the volume, or past every source. -/
theorem le_behind (hstep : 0 < step) :
    2 ^ 64 - 1 ≤ behind step p n ∨ (p + n ≤ behind step p n ∧ p < behind step p n ∧
      step ∣ behind step p n) := by
  by_cases hlt : divCeil (satAdd p (max n step)) step * step < 2 ^ 64 - 1
  · right
    have heq : behind step p n = divCeil (satAdd p (max n step)) step * step :=
      min_eq_left hlt.le
    have hle : satAdd p (max n step) ≤ divCeil (satAdd p (max n step)) step * step :=
      le_divCeil hstep
    have hend : satAdd p (max n step) = p + max n step := by
      have hsmall := hle.trans_lt hlt
      unfold satAdd at hsmall ⊢
      omega
    rw [← heq, hend] at hle
    refine ⟨by omega, by omega, ?_⟩
    rw [heq]
    exact Dvd.intro_left _ rfl
  · left
    unfold behind satMul
    omega

/-- Every step that the scan leaves out is one of the volume. -/
theorem lt_of_lt_behind (hstep : 0 < step) (hp : step ∣ p) (hq : step ∣ q) (hpq : p < q)
    (h : q < behind step p n) : q < p + n := by
  obtain ⟨i, rfl⟩ := hp
  obtain ⟨j, rfl⟩ := hq
  have hlt : j * step < divCeil (satAdd (step * i) (max n step)) step * step := by
    rw [Nat.mul_comm]
    exact h.trans_le (min_le_left _ _)
  have hend := (divCeil_le hstep hlt).trans_le (min_le_left _ _)
  have hij : i + 1 ≤ j := Nat.lt_of_mul_lt_mul_left hpq
  have hnext := Nat.mul_le_mul_right step hij
  rw [Nat.succ_mul, Nat.mul_comm i] at hnext
  rcases le_total n step with hn | hn
  · rw [max_eq_right hn] at hend
    omega
  · rw [max_eq_left hn, Nat.mul_comm j] at hend
    exact hend

end Behind

section Scan

variable {probe : ℕ → Exec (Option Found)} {size step : ℕ}

/-- The probe at a position succeeds, and a volume that is recognised there begins there. -/
def InPlace (probe : ℕ → Exec (Option Found)) (position : ℕ) : Prop :=
  ∃ r, probe position = .ok r ∧ ∀ v ∈ r, v.offset = position

/-- What holds of a scan that comes to a position: it is a step of the source or past its end, all
that was found lies before it, and it has left nothing out. -/
structure Swept (probe : ℕ → Exec (Option Found)) (size step : ℕ) (s : Sweep) : Prop where
  aligned : s.offset < size → step ∣ s.offset
  before : s.offset < size → ∀ u ∈ s.found, u.offset < s.offset ∧ u.offset + u.size ≤ s.offset
  apart : s.found.Pairwise fun u v => u.offset < v.offset ∧ u.offset + u.size ≤ v.offset
  covered : ∀ p < size, step ∣ p → p < s.offset → Covered probe s.found p

theorem Swept.start : Swept probe size step .start where
  aligned _ := dvd_zero _
  before _ _ h := absurd h List.not_mem_nil
  apart := .nil
  covered _ _ _ h := absurd h (Nat.not_lt_zero _)

theorem Swept.apart_found {s : Sweep} (h : Swept probe size step s) : Apart s.found where
  offsets := h.apart.imp fun hlt => hlt.1.ne
  outside := h.apart.imp fun hlt hin => by omega

theorem Covered.append {found : List Found} {p : ℕ} (h : Covered probe found p) (more : List Found) :
    Covered probe (found ++ more) p := by
  intro v hv
  rcases h v hv with hmem | ⟨u, hu, hin⟩
  · exact .inl (List.mem_append_left _ hmem)
  · exact .inr ⟨u, List.mem_append_left _ hu, hin⟩

/-- A volume that begins where it was probed. -/
theorem Swept.hit {s : Sweep} {v : Found} (h : Swept probe size step s) (hstep : 0 < step)
    (hsize : size < 2 ^ 63) (hlt : s.offset < size) (hv : probe s.offset = .ok (some v))
    (hplace : v.offset = s.offset) :
    Swept probe size step ⟨behind step s.offset v.size, s.probes + 1, s.found ++ [v]⟩ := by
  have hbehind := @le_behind step s.offset v.size hstep
  refine ⟨fun hnext => ?_, fun hnext u hu => ?_, ?_, fun p hp hdvd hpast => ?_⟩
  · rcases hbehind with hend | ⟨-, -, hdvd⟩
    · dsimp only at hnext
      omega
    · exact hdvd
  · rcases hbehind with hend | ⟨hend, hgt, -⟩
    · dsimp only at hnext
      omega
    · rcases List.mem_append.mp hu with hu | hu
      · have hbefore := h.before hlt u hu
        exact ⟨hbefore.1.trans hgt, hbefore.2.trans hgt.le⟩
      · obtain rfl := List.mem_singleton.mp hu
        rw [hplace]
        exact ⟨hgt, hend⟩
  · refine List.pairwise_append.mpr ⟨h.apart, List.pairwise_singleton _ _, fun u hu w hw => ?_⟩
    obtain rfl := List.mem_singleton.mp hw
    rw [hplace]
    exact h.before hlt u hu
  · rcases lt_trichotomy p s.offset with hbefore | rfl | hafter
    · exact (h.covered p hp hdvd hbefore).append [v]
    · intro w hw
      rw [hv] at hw
      cases hw
      exact .inl (List.mem_append_right _ (List.mem_singleton_self _))
    · have hin := lt_of_lt_behind hstep (h.aligned hlt) hdvd hafter hpast
      intro w hw
      refine .inr ⟨v, List.mem_append_right _ (List.mem_singleton_self _), ?_⟩
      rw [hplace]
      exact ⟨hafter.le, hin⟩

/-- A position with no volume, and the step after it. -/
theorem Swept.miss {s : Sweep} (h : Swept probe size step s) (hlt : s.offset < size)
    (hnone : probe s.offset = .ok none) {n o : ℕ} (ho : o = s.offset + step) :
    Swept probe size step ⟨o, n, s.found⟩ := by
  subst ho
  have hdvd := h.aligned hlt
  refine ⟨fun _ => (Nat.dvd_add_right hdvd).mpr dvd_rfl, fun _ u hu => ?_, h.apart,
    fun p hp hstep hpast => ?_⟩
  · have hbefore := h.before hlt u hu
    exact ⟨hbefore.1.trans_le (Nat.le_add_right _ _), hbefore.2.trans (Nat.le_add_right _ _)⟩
  · rcases lt_trichotomy p s.offset with hbefore | rfl | hafter
    · exact h.covered p hp hstep hbefore
    · intro v hv
      rw [hnone] at hv
      cases hv
    · exfalso
      have hle := Nat.le_of_dvd (Nat.sub_pos_of_lt hafter) (Nat.dvd_sub hstep hdvd)
      dsimp only at hpast
      omega

/-- A scan that ended: it has left nothing out before its last position, and that is the end of
the source where the budget of probes was not used up. -/
structure Complete (probe : ℕ → Exec (Option Found)) (size step : ℕ) (s : Sweep) : Prop where
  apart : Apart s.found
  covered : ∀ p < size, step ∣ p → s.probes < MAX_PROBES ∨ p < s.offset → Covered probe s.found p

/-- Every position that the scan comes to keeps what holds of it. -/
theorem sweep_step {start s : Sweep} (hstep : 0 < step) (hsize : size < 2 ^ 63)
    (hplace : ∀ s, Reaches (sweep probe size step).body start s → s.offset < size →
      s.probes < MAX_PROBES → InPlace probe s.offset)
    (hs : Reaches (sweep probe size step).body start s ∧ Swept probe size step s) :
    ((sweep probe size step).body s).Sat
      (fun s => Reaches (sweep probe size step).body start s ∧ Swept probe size step s)
      fun r => ∃ t, r = .ok t ∧ Complete probe size step t := by
  obtain ⟨hreach, h⟩ := hs
  cases hb : (sweep probe size step).body s with
  | next s' =>
    refine ⟨hreach.tail hb, ?_⟩
    unfold sweep at hb
    dsimp only at hb
    split_ifs at hb with hgo
    obtain ⟨r, hr, hoffset⟩ := hplace s hreach hgo.1 hgo.2
    rw [hr] at hb
    cases r with
    | some v =>
      cases hb
      exact h.hit hstep hsize hgo.1 hr (hoffset v rfl)
    | none =>
      cases ha : checkedAdd s.offset step with
      | none =>
        simp only [ha] at hb
        cases hb
      | some o =>
        simp only [ha] at hb
        cases hb
        exact h.miss hgo.1 hr (checkedAdd_eq_some.mp ha).2.symm
  | done r =>
    unfold sweep at hb
    dsimp only at hb
    split_ifs at hb with hgo
    · obtain ⟨r, hr, hoffset⟩ := hplace s hreach hgo.1 hgo.2
      rw [hr] at hb
      cases r with
      | some v => cases hb
      | none =>
        cases ha : checkedAdd s.offset step with
        | some o =>
          simp only [ha] at hb
          cases hb
        | none =>
          simp only [ha] at hb
          cases hb
          have hmiss := @Swept.miss _ _ _ s h hgo.1 hr (s.probes + 1) _ rfl
          refine ⟨_, rfl, h.apart_found, fun p hp hdvd _ => ?_⟩
          refine hmiss.covered p hp hdvd ?_
          have hend : ¬ s.offset + step < 2 ^ 64 := fun hlt => by
            rw [checkedAdd, if_pos hlt] at ha
            cases ha
          dsimp only
          omega
    · cases hb
      refine ⟨s, rfl, h.apart_found, fun p hp hdvd hreached => h.covered p hp hdvd ?_⟩
      by_contra hge
      exact hgo ⟨(not_lt.mp hge).trans_lt hp, hreached.resolve_right hge⟩

end Scan

section Places

variable {b : Build} {src : Source} {others : Other → ℕ → Exec (Option Found)} {p : ℕ} {v : Found}

theorem accepted_ok {V : Type} {place : V → Found} {r : Except ParseError V}
    (h : accepted place r = some v) : ∃ u, r = .ok u ∧ v = place u := by
  cases r with
  | error e => cases h
  | ok u =>
    cases h
    exact ⟨u, rfl, rfl⟩

/-- A volume begins where it was probed, or where the wrapper there says. -/
theorem detect_offset (hothers : ∀ k v, others k p = .ok (some v) → v.offset = p) {boot : List UInt8}
    {k : Kind} (h : detect b src others p boot k = .ok (some v)) :
    v.offset = p ∨ Hfs.hfsplusOffset b src p = .ok (some v.offset) := by
  cases k with
  | exfat =>
    simp only [detect] at h
    split_ifs at h
    · obtain ⟨r, hr, h⟩ := exec_bind_ok h
      obtain ⟨u, rfl, rfl⟩ := accepted_ok (Except.ok.inj h)
      exact .inl (Exfat.Volume.parse_offset hr)
    · cases h
  | ntfs =>
    simp only [detect] at h
    split_ifs at h
    · obtain ⟨r, hr, h⟩ := exec_bind_ok h
      obtain ⟨u, rfl, rfl⟩ := accepted_ok (Except.ok.inj h)
      exact .inl (Ntfs.Volume.parse_offset hr)
    · cases h
  | ext =>
    simp only [detect] at h
    obtain ⟨ok, -, h⟩ := exec_bind_ok h
    split_ifs at h
    · obtain ⟨r, hr, h⟩ := exec_bind_ok h
      obtain ⟨u, rfl, rfl⟩ := accepted_ok (Except.ok.inj h)
      exact .inl (Ext.Volume.parse_offset hr)
    · cases h
  | hfs =>
    simp only [detect] at h
    obtain ⟨place, hplace, h⟩ := exec_bind_ok h
    split_ifs at h with hsome
    · obtain ⟨r, hr, h⟩ := exec_bind_ok h
      obtain ⟨u, rfl, rfl⟩ := accepted_ok (Except.ok.inj h)
      obtain ⟨o, rfl⟩ := Option.isSome_iff_exists.mp hsome
      exact .inr (hplace.trans (congrArg _ (congrArg _ (Hfs.Volume.parse_offset hr hplace).symm)))
    · cases h
  | fat =>
    simp only [detect] at h
    split_ifs at h
    · obtain ⟨u, hu, rfl⟩ := accepted_ok (Except.ok.inj h)
      exact .inl (Fat.Volume.parse_offset hu)
    · cases h
  | other kind => exact .inl (hothers kind v h)

theorem firstKind_offset (hothers : ∀ k v, others k p = .ok (some v) → v.offset = p)
    {boot : List UInt8} {l : List Kind} (h : firstKind b src others p boot l = .ok (some v)) :
    v.offset = p ∨ Hfs.hfsplusOffset b src p = .ok (some v.offset) := by
  induction l with
  | nil => cases h
  | cons k rest ih =>
    obtain ⟨r, hr, h⟩ := exec_bind_ok h
    cases r with
    | none => exact ih h
    | some u =>
      cases h
      exact detect_offset hothers hr

theorem tryParseVolume_offset (hothers : ∀ k v, others k p = .ok (some v) → v.offset = p)
    (h : tryParseVolume b src others p = .ok (some v)) :
    v.offset = p ∨ Hfs.hfsplusOffset b src p = .ok (some v.offset) := by
  obtain ⟨boot, -, h⟩ := exec_bind_ok h
  split_ifs at h
  · cases h
  · exact firstKind_offset hothers h

/-- Only a wrapper puts a volume elsewhere than where it is probed. -/
theorem inPlace_of_unwrapped (hothers : ∀ k v, others k p = .ok (some v) → v.offset = p)
    (hreads : ∃ r, tryParseVolume b src others p = .ok r)
    (hplain : ∀ o, Hfs.hfsplusOffset b src p = .ok (some o) → o = p) :
    InPlace (tryParseVolume b src others) p := by
  obtain ⟨r, hr⟩ := hreads
  refine ⟨r, hr, fun v hv => ?_⟩
  rw [Option.mem_def.mp hv] at hr
  rcases tryParseVolume_offset hothers hr with hplace | hwrapped
  · exact hplace
  · exact hplain _ hwrapped

end Places

/-- The scan ends within its budget of probes, reports every volume once and hides none. -/
structure ReportsLost (b : Build) (src : Source) (others : Other → ℕ → Exec (Option Found))
    (step : ℕ) : Prop where
  terminates : ∀ s n, MAX_PROBES < n → (run (lostSweep b src others step).body n s).isSome
  complete : ∃ s, (lostSweep b src others step).eval .start = .ok s ∧
    scanLostVolumes b src others step = .ok s.found ∧
    Complete (tryParseVolume b src others) src.size (max step 512) s

/-- A scan reports every volume once and hides none, as long as no probe that it makes fails and the
volumes it recognises begin where it probes. -/
theorem lost_volumes_once {b : Build} {src : Source} {others : Other → ℕ → Exec (Option Found)}
    {step : ℕ}
    (h : ∀ s, Reaches (lostSweep b src others step).body .start s → s.offset < src.size →
      s.probes < MAX_PROBES → InPlace (tryParseVolume b src others) s.offset) :
    ReportsLost b src others step := by
  refine ⟨fun s n hn => ?_, ?_⟩
  · exact While.run_isSome _ ((Nat.sub_le _ _).trans_lt hn)
  · have hpos : 0 < max step 512 := lt_max_of_lt_right (by decide)
    obtain ⟨s, hs, hcomplete⟩ := (lostSweep b src others step).eval_inv
      (fun s hs => sweep_step hpos src.size_lt h hs) ⟨.refl, .start⟩
    refine ⟨s, hs, ?_, hcomplete⟩
    unfold scanLostVolumes
    rw [hs]
    rfl

section Steps

variable {probe : ℕ → Exec (Option Found)} {size step : ℕ} {s : Sweep}

theorem sweep_found {v : Found} (hlt : s.offset < size) (hprobes : s.probes < MAX_PROBES)
    (h : probe s.offset = .ok (some v)) : (sweep probe size step).body s =
      .next ⟨behind step s.offset v.size, s.probes + 1, s.found ++ [v]⟩ := by
  simp only [sweep, if_pos (And.intro hlt hprobes), h]

theorem sweep_missed (hlt : s.offset < size) (hprobes : s.probes < MAX_PROBES) (h : probe s.offset = .ok none)
    (hfits : s.offset + step < 2 ^ 64) : (sweep probe size step).body s = .next ⟨s.offset + step, s.probes + 1, s.found⟩ := by
  simp only [sweep, if_pos (And.intro hlt hprobes), h, checkedAdd, if_pos hfits]

theorem sweep_end (h : size ≤ s.offset) : (sweep probe size step).body s = .done (.ok s) := by
  simp only [sweep, if_neg (fun hgo : s.offset < size ∧ s.probes < MAX_PROBES => not_lt.mpr h hgo.1)]

end Steps

/-- The header of a volume of so many blocks of 512 bytes, whose catalog is its second block. -/
def hfsHeader (blocks : UInt8) : List UInt8 :=
  [0x48, 0x2B] ++ List.replicate 38 0 ++ [0, 0, 2, 0, 0, 0, 0, blocks] ++ List.replicate 240 0 ++
    [0, 0, 0, 1, 0, 0, 0, 1] ++ List.replicate 216 0

theorem length_hfsHeader (blocks : UInt8) : (hfsHeader blocks).length = 512 := by
  simp only [hfsHeader, List.length_append, List.length_replicate, List.length_cons, List.length_nil]

theorem plain_size : (List.replicate 1024 (0 : UInt8) ++ hfsHeader 8 ++ List.replicate 2560 0).length < 2 ^ 63 := by
  rw [List.length_append, List.length_append, List.length_replicate, List.length_replicate, length_hfsHeader]
  decide

/-- A volume of eight blocks that fills the source. -/
def plainSource : Source where
  data := List.replicate 1024 0 ++ hfsHeader 8 ++ List.replicate 2560 0
  size_lt := plain_size

def noOthers : Other → ℕ → Exec (Option Found) := fun _ _ => .ok none

section Blank

variable {b : Build} {src : Source} {p : ℕ}

/-- Kinds that are not there do not count. -/
theorem firstKind_append {boot : List UInt8} {l : List Kind} (h : ∀ k ∈ l, detect b src noOthers p boot k = .ok none)
    (rest : List Kind) : firstKind b src noOthers p boot (l ++ rest) = firstKind b src noOthers p boot rest := by
  induction l with
  | nil => rfl
  | cons k l ih =>
    obtain ⟨hk, hl⟩ := List.forall_mem_cons.mp h
    rw [List.cons_append, firstKind, hk, exec_ok_bind]
    exact ih hl

/-- Behind a blank boot sector there is at most an HFS+ volume, unless the magic of an ext volume is there. -/
theorem tryParseVolume_blank (hreliable : src.Reliable) (hp : p + 1080 < 2 ^ 63)
    (hboot : window src.data p 512 = List.replicate 512 0) (hext : window src.data (p + 1080) 2 = [0, 0]) :
    tryParseVolume b src noOthers p = detect b src noOthers p [] .hfs := by
  generalize hblank : List.replicate 512 (0 : UInt8) = boot at hboot
  have hlen : boot.length = 512 := by rw [← hblank, List.length_replicate]
  have hexfat : Exfat.isExfatVbr boot = false := by
    rw [← hblank]
    decide +kernel
  have hntfs : Ntfs.isNtfsVbr boot = false := by
    rw [← hblank]
    decide +kernel
  have hfat : Fat.looksLikeFatVbr boot = false := by
    rw [← hblank]
    decide +kernel
  have hmagic : isExtVolume b src p = .ok false := by
    rw [isExtVolume, show Ext.SUPERBLOCK_OFFSET = 1024 from rfl, plus_eq (by omega), exec_ok_bind,
      plus_eq (by omega), exec_ok_bind, Nat.add_assoc, hreliable.readAt hp, hext]
    rfl
  have hother {l : List Kind} (hl : ∀ k ∈ l, k ≠ .hfs) : ∀ k ∈ l, detect b src noOthers p boot k = .ok none := by
    intro k hk
    cases k with
    | exfat => rw [detect, hexfat]; rfl
    | ntfs => rw [detect, hntfs]; rfl
    | ext => rw [detect, hmagic]; rfl
    | hfs => exact absurd rfl (hl _ hk)
    | fat => rw [detect, hfat]; rfl
    | other kind => rfl
  have hsplit : kinds = kinds.take 5 ++ .hfs :: (kinds.drop 6 ++ []) := rfl
  rw [tryParseVolume, hreliable.readAt (by omega), hboot, exec_ok_bind, if_neg (by omega), hsplit,
    firstKind_append (hother (by simp [kinds])), firstKind]
  cases hhfs : detect b src noOthers p boot .hfs with
  | error e => exact hhfs.symm
  | ok found =>
    rw [exec_ok_bind]
    cases found with
    | some v => exact hhfs.symm
    | none => exact (firstKind_append (hother (by simp [kinds])) []).trans hhfs.symm

/-- Where there is no signature of a volume there is none. -/
theorem detect_hfs_none (hreliable : src.Reliable) (hp : p + 1024 < 2 ^ 63)
    (hmdb : window src.data (p + 1024) 512 = List.replicate 512 0) : detect b src noOthers p [] .hfs = .ok none := by
  generalize hblank : List.replicate 512 (0 : UInt8) = mdb at hmdb
  have hlen : mdb.length = 512 := by rw [← hblank, List.length_replicate]
  have hsig : beField mdb 0 2 = 0 := by
    rw [← hblank]
    decide +kernel
  have hplace : Hfs.hfsplusOffset b src p = .ok none := by
    rw [Hfs.hfsplusOffset, show Hfs.VOLUME_HEADER_OFFSET = 1024 from rfl, plus_eq (by omega), exec_ok_bind,
      hreliable.readAt hp, hmdb]
    change (if mdb.length < 512 then _ else if _ then _ else if _ then _ else _) = _
    rw [if_neg (by omega), hsig, if_neg (by decide), if_neg (by decide)]
    rfl
  rw [detect, hplace]
  rfl

/-- The volume of the header that is behind a place. -/
theorem detect_hfs_eq {place : ℕ} {header : List UInt8} {found : Found} (hreliable : src.Reliable)
    (hplace : Hfs.hfsplusOffset b src p = .ok (some place)) (hp : place + 1024 < 2 ^ 63)
    (hheader : window src.data (place + 1024) 512 = header) (hlen : header.length = 512)
    (hparse : accepted (fun v => ⟨v.offset, v.size⟩) <$> Hfs.parseHeader b src place header = .ok (some found)) :
    detect b src noOthers p [] .hfs = .ok (some found) := by
  have hvolume : Hfs.Volume.parse b src p = Hfs.parseHeader b src place header := by
    rw [Hfs.Volume.parse, hplace, exec_ok_bind, Option.getD_some, show Hfs.VOLUME_HEADER_OFFSET = 1024 from rfl]
    dsimp only
    rw [plus_eq (by omega), exec_ok_bind, hreliable.readAt hp, hheader]
    dsimp only
    rw [if_neg (by omega)]
  rw [detect, hplace, exec_ok_bind, hvolume]
  exact hparse

end Blank

theorem plain_probe : tryParseVolume .release plainSource noOthers 0 = .ok (some ⟨0, 4096⟩) := by
  have hreliable : plainSource.Reliable := fun _ _ => rfl
  have hdata : plainSource.data = List.replicate 1024 0 ++ (hfsHeader 8 ++ List.replicate 2560 0) :=
    List.append_assoc _ _ _
  have hheader : window plainSource.data 1024 512 = hfsHeader 8 := by
    rw [hdata, window_behind List.length_replicate (by decide)]
    exact window_whole (length_hfsHeader 8) _
  rw [tryParseVolume_blank hreliable (by decide)]
  · refine detect_hfs_eq hreliable ?_ (by decide) hheader (length_hfsHeader 8) (by decide +kernel)
    rw [Hfs.hfsplusOffset, show Hfs.VOLUME_HEADER_OFFSET = 1024 from rfl, plus_eq (by decide), exec_ok_bind,
      hreliable.readAt (by decide), hheader]
    decide +kernel
  · rw [hdata]
    exact window_zeros (by decide) _
  · rw [hdata, window_behind List.length_replicate (by decide), window_within (length_hfsHeader 8) (by decide)]
    decide +kernel

theorem lost_volumes_once_plain :
    scanLostVolumes .release plainSource noOthers 512 = .ok [⟨0, 4096⟩] ∧
      ReportsLost .release plainSource noOthers 512 := by
  have hsize : plainSource.size = 4096 := by
    rw [Source.size, plainSource]
    simp only [List.length_append, List.length_replicate, length_hfsHeader]
  have hsweep : lostSweep .release plainSource noOthers 512 =
      sweep (tryParseVolume .release plainSource noOthers) 4096 512 := by
    rw [lostSweep, hsize, Nat.max_self]
  have hfirst : (lostSweep .release plainSource noOthers 512).body .start = .next ⟨4096, 1, [⟨0, 4096⟩]⟩ := by
    have hfound := @sweep_found _ 4096 512 .start _ (by decide) (by decide) plain_probe
    rw [show behind 512 Sweep.start.offset (⟨0, 4096⟩ : Found).size = 4096 by decide, ← hsweep] at hfound
    exact hfound
  have hlast := @sweep_end (tryParseVolume .release plainSource noOthers) 4096 512 ⟨4096, 1, [⟨0, 4096⟩]⟩ le_rfl
  rw [← hsweep] at hlast
  have hreach : ∀ s, Reaches (lostSweep .release plainSource noOthers 512).body .start s →
      s = .start ∨ s = ⟨4096, 1, [⟨0, 4096⟩]⟩ := by
    intro s hs
    refine hs.inv (I := fun s => s = .start ∨ s = ⟨4096, 1, [⟨0, 4096⟩]⟩) (fun s s' h hb => ?_)
      (.inl rfl)
    rcases h with rfl | rfl
    · rw [hfirst] at hb
      cases hb
      exact .inr rfl
    · rw [hlast] at hb
      cases hb
  constructor
  · unfold scanLostVolumes
    rw [While.eval_next _ hfirst, While.eval_done _ hlast]
    rfl
  · refine lost_volumes_once fun s hs hlt _ => ?_
    rcases hreach s hs with rfl | rfl
    · refine ⟨_, plain_probe, fun v hv => ?_⟩
      cases hv
      rfl
    · rw [hsize] at hlt
      exact absurd hlt (lt_irrefl _)

/-- A master directory block that wraps the volume at 4096. -/
def wrapperBlock : List UInt8 :=
  [0x42, 0x44] ++ List.replicate 18 0 ++ [0, 0, 2, 0] ++ List.replicate 4 0 ++ [0, 8] ++
    List.replicate 94 0 ++ [0x48, 0x2B, 0, 0] ++ List.replicate 384 0

example : Hfs.embeddedOffset 0 wrapperBlock = some 4096 := by decide +kernel

def wrapperData : List UInt8 :=
  List.replicate 1024 0 ++ wrapperBlock ++ List.replicate 3584 0 ++ hfsHeader 16 ++
    List.replicate 5632 0 ++ hfsHeader 16 ++ List.replicate 512 0

theorem wrapperBlock_length : wrapperBlock.length = 512 := by
  simp only [wrapperBlock, List.length_append, List.length_replicate, List.length_cons, List.length_nil]

theorem wrapper_size : wrapperData.length < 2 ^ 63 := by
  rw [wrapperData]
  simp only [List.length_append, List.length_replicate, wrapperBlock_length, length_hfsHeader]
  decide

/-- A wrapped volume with its header and the copy of it in the last block but one. -/
def wrapperSource : Source where
  data := wrapperData
  size_lt := wrapper_size

theorem wrapperSource_reliable : wrapperSource.Reliable := fun _ _ => rfl

/-- The source behind the block that wraps the volume. -/
def wrapped : List UInt8 :=
  List.replicate 3584 0 ++ (hfsHeader 16 ++ (List.replicate 5632 0 ++ (hfsHeader 16 ++ List.replicate 512 0)))

theorem wrapper_data : wrapperSource.data = List.replicate 1024 0 ++ (wrapperBlock ++ wrapped) := by
  have hdata : wrapperData = List.replicate 1024 0 ++ wrapperBlock ++ List.replicate 3584 0 ++ hfsHeader 16 ++
      List.replicate 5632 0 ++ hfsHeader 16 ++ List.replicate 512 0 := by rw [wrapperData]
  have hsource : wrapperSource.data = wrapperData := by rw [wrapperSource]
  simp only [hsource, hdata, wrapped, List.append_assoc]

theorem wrapper_window {off : ℕ} (h : 1536 ≤ off) (len : ℕ) :
    window wrapperSource.data off len = window wrapped (off - 1536) len := by
  rw [wrapper_data, window_behind List.length_replicate (by omega), window_behind wrapperBlock_length (by omega),
    Nat.sub_sub]

theorem wrapper_zeros {off len : ℕ} (h : 5632 ≤ off) (hend : off + len ≤ 11264) :
    window wrapperSource.data off len = List.replicate len 0 := by
  rw [wrapper_window (by omega), wrapped, window_behind List.length_replicate (by omega),
    window_behind (length_hfsHeader 16) (by omega)]
  exact window_zeros (by omega) _

theorem wrapped_header : window wrapperSource.data 5120 512 = hfsHeader 16 := by
  rw [wrapper_window (by decide), wrapped, window_behind List.length_replicate (by decide)]
  exact window_whole (length_hfsHeader 16) _

theorem copied_header {len : ℕ} (off : ℕ) (h : off + len ≤ 512) :
    window wrapperSource.data (11264 + off) len = window (hfsHeader 16) off len := by
  rw [wrapper_window (by omega), wrapped, window_behind List.length_replicate (by omega),
    window_behind (length_hfsHeader 16) (by omega), window_behind List.length_replicate (by omega),
    window_within (length_hfsHeader 16) (by omega)]
  have hoff : 11264 + off - 1536 - 3584 - 512 - 5632 = off := by omega
  rw [hoff]

theorem wrapper_probe : tryParseVolume .release wrapperSource noOthers 0 = .ok (some ⟨4096, 8192⟩) := by
  have hblock : window wrapperSource.data 1024 512 = wrapperBlock := by
    rw [wrapper_data, window_behind List.length_replicate (by decide)]
    exact window_whole wrapperBlock_length _
  have hembedded : Hfs.embeddedOffset 0 wrapperBlock = some 4096 := by decide +kernel
  have hsig : window wrapperSource.data 5120 2 = [0x48, 0x2B] := by
    rw [wrapper_window (by decide), wrapped, window_behind List.length_replicate (by decide),
      window_within (length_hfsHeader 16) (by decide)]
    decide +kernel
  rw [tryParseVolume_blank wrapperSource_reliable (by decide)]
  · refine detect_hfs_eq wrapperSource_reliable ?_ (by decide) wrapped_header (length_hfsHeader 16) (by decide +kernel)
    rw [Hfs.hfsplusOffset, show Hfs.VOLUME_HEADER_OFFSET = 1024 from rfl, plus_eq (by decide), exec_ok_bind,
      wrapperSource_reliable.readAt (by decide), hblock]
    generalize hwrapper : wrapperBlock = mdb at hembedded
    have hlen : mdb.length = 512 := by rw [← hwrapper, wrapperBlock_length]
    have hsigs : beField mdb 0 2 = Hfs.SIG_HFS ∧ beField mdb 0x7C 2 = Hfs.SIG_HFSPLUS := by
      rw [← hwrapper]
      decide +kernel
    change (if mdb.length < 512 then _ else if _ then _ else if _ then _ else _) = _
    rw [if_neg (by omega), hsigs.1, if_neg (by decide), if_pos rfl, Hfs.embeddedVolume,
      if_neg (not_not.mpr hsigs.2), hembedded]
    dsimp only
    rw [show Hfs.VOLUME_HEADER_OFFSET = 1024 from rfl, plus_eq (by decide), exec_ok_bind,
      wrapperSource_reliable.readAt (by decide), hsig]
    decide +kernel
  · rw [wrapper_data]
    exact window_zeros (by decide) _
  · rw [wrapper_data, window_behind List.length_replicate (by decide), window_within wrapperBlock_length (by decide)]
    decide +kernel

theorem blank_probe {p : ℕ} (h : 5632 ≤ p) (hend : p + 1536 ≤ 11264) :
    tryParseVolume .release wrapperSource noOthers p = .ok none := by
  rw [tryParseVolume_blank wrapperSource_reliable (by omega) (wrapper_zeros h (by omega))
    (wrapper_zeros (by omega) (by omega))]
  exact detect_hfs_none wrapperSource_reliable (by omega) (wrapper_zeros (by omega) (by omega))

theorem copy_probe : tryParseVolume .release wrapperSource noOthers 10240 = .ok (some ⟨10240, 8192⟩) := by
  have hheader : window wrapperSource.data 11264 512 = hfsHeader 16 :=
    (copied_header 0 le_rfl).trans (List.take_of_length_le (length_hfsHeader 16).le)
  rw [tryParseVolume_blank wrapperSource_reliable (by decide) (wrapper_zeros (by decide) (by decide))]
  · refine detect_hfs_eq wrapperSource_reliable ?_ (by decide) hheader (length_hfsHeader 16) (by decide +kernel)
    rw [Hfs.hfsplusOffset, show Hfs.VOLUME_HEADER_OFFSET = 1024 from rfl, plus_eq (by decide), exec_ok_bind,
      wrapperSource_reliable.readAt (by decide), hheader]
    decide +kernel
  · rw [show 10240 + 1080 = 11264 + 56 from rfl, copied_header 56 (by decide)]
    decide +kernel

theorem wrapper_size_eq : wrapperSource.size = 12288 := by
  simp only [Source.size, wrapper_data, wrapped, List.length_append, List.length_replicate, wrapperBlock_length,
    length_hfsHeader]

theorem lostSweep_wrapper : lostSweep .release wrapperSource noOthers 512 =
    sweep (tryParseVolume .release wrapperSource noOthers) 12288 512 := by
  rw [lostSweep, wrapper_size_eq, Nat.max_self]

theorem wrapper_run : run (lostSweep .release wrapperSource noOthers 512).body 10 .start =
    some (.ok ⟨18432, 6, [⟨4096, 8192⟩, ⟨10240, 8192⟩]⟩) := by
  have hblank (p n : ℕ) (hp : 5632 ≤ p) (hend : p + 1536 ≤ 11264) (hn : n < MAX_PROBES) (found : List Found) :
      (sweep (tryParseVolume .release wrapperSource noOthers) 12288 512).body ⟨p, n, found⟩ =
        .next ⟨p + 512, n + 1, found⟩ :=
    sweep_missed (by dsimp only; omega) hn (blank_probe hp hend) (by dsimp only; omega)
  have hfirst := @sweep_found _ 12288 512 .start _ (by decide) (by decide) wrapper_probe
  have hcopy := @sweep_found _ 12288 512 ⟨10240, 5, [⟨4096, 8192⟩]⟩ _ (by decide) (by decide) copy_probe
  have hlast := @sweep_end (tryParseVolume .release wrapperSource noOthers) 12288 512
    ⟨18432, 6, [⟨4096, 8192⟩, ⟨10240, 8192⟩]⟩ (by decide)
  rw [show behind 512 Sweep.start.offset (⟨4096, 8192⟩ : Found).size = 8192 by decide] at hfirst
  rw [show behind 512 (⟨10240, 5, [⟨4096, 8192⟩]⟩ : Sweep).offset (⟨10240, 8192⟩ : Found).size = 18432 by decide]
    at hcopy
  rw [lostSweep_wrapper]
  refine (run_next hfirst 9).trans ?_
  refine (run_next (hblank 8192 1 (by decide) (by decide) (by decide) _) 8).trans ?_
  refine (run_next (hblank 8704 2 (by decide) (by decide) (by decide) _) 7).trans ?_
  refine (run_next (hblank 9216 3 (by decide) (by decide) (by decide) _) 6).trans ?_
  refine (run_next (hblank 9728 4 (by decide) (by decide) (by decide) _) 5).trans ?_
  refine (run_next hcopy 4).trans ?_
  exact run_done hlast 3

/-- The copy of the header of a wrapped volume is taken for a volume of its own, as the scan goes on
before the end of the volume. -/
theorem wrapped_reported_twice :
    scanLostVolumes .release wrapperSource noOthers 512 = .ok [⟨4096, 8192⟩, ⟨10240, 8192⟩] ∧
      ¬ ReportsLost .release wrapperSource noOthers 512 := by
  have heval := While.eval_eq_of_run _ wrapper_run
  constructor
  · unfold scanLostVolumes
    rw [heval]
    rfl
  · intro h
    obtain ⟨s, hs, -, hcomplete⟩ := h.complete
    rw [heval] at hs
    cases hs
    have hinside := (List.pairwise_cons.mp hcomplete.apart.outside).1 ⟨10240, 8192⟩
      (List.mem_singleton_self _)
    exact hinside (by decide)

end Unearth.Lost
