import Unearth.ExfatWalk
import Unearth.Lib.Spans
import Unearth.Reassembly

/-!
# The free clusters of FAT and exFAT volumes

The clusters are gone through in their order, and a free one is joined to the last extent when
it begins where that one ends. The table of a FAT volume is decoded in two places, which have to
agree about every entry.
-/

namespace Unearth
open Bytes Word Spans

section Scan

variable (b : Build) (size : ℕ)

/-- The extents, the last one first, with a free cluster that starts at an offset. -/
def addExtent (start : ℕ) : List Span → Exec (List Span)
  | [] => return [⟨start, size⟩]
  | last :: rest => do
    if (← plus b last.offset last.len) = start then return ⟨last.offset, ← plus b last.len size⟩ :: rest
    else return ⟨start, size⟩ :: last :: rest

/-- The extents of the clusters that are free, up to one whose entry is missing. -/
def scanClusters (free : ℕ → Option Bool) (offset : ℕ → Exec ℕ) : List ℕ → List Span → Exec (List Span)
  | [], out => return out.reverse
  | c :: rest, out =>
    match free c with
    | none => return out.reverse
    | some false => scanClusters free offset rest out
    | some true => do scanClusters free offset rest (← addExtent b size (← offset c) out)

end Scan

/-- The extents are apart from each other, each of them is a number of clusters, and together
they are the free ones. -/
structure ExactExtents (free : ℕ → Prop) (start : ℕ → ℕ) (size : ℕ) (extents : List Span) : Prop where
  apart : extents.Pairwise fun s t => s.stop < t.offset
  whole : ∀ s ∈ extents, (∃ c, free c ∧ s.offset = start c) ∧ ∃ k, 0 < k ∧ s.len = k * size
  covers : ∀ p, Covers extents p ↔ ∃ c, free c ∧ start c ≤ p ∧ p < start c + size

section Exact

variable {b : Build} {size lo hi : ℕ} {free : ℕ → Option Bool} {offset : ℕ → Exec ℕ} {start : ℕ → ℕ}
  {clusters : List ℕ}

/-- The free clusters as spans of their own. -/
def freeSpans (size : ℕ) (free : ℕ → Option Bool) (start : ℕ → ℕ) : List ℕ → List Span
  | [] => []
  | c :: rest =>
    match free c with
    | none => []
    | some false => freeSpans size free start rest
    | some true => ⟨start c, size⟩ :: freeSpans size free start rest

theorem addExtent_eq {prev : Span} {s : ℕ} {done : List Span} (hprev : prev.stop ≤ s) (hs : s + size < 2 ^ 64) :
    addExtent b size s (prev :: done) =
      .ok (if prev.stop = s then ⟨prev.offset, prev.len + size⟩ :: done else ⟨s, size⟩ :: prev :: done) := by
  have hstop : prev.offset + prev.len = prev.stop := rfl
  rw [addExtent, plus_eq (by omega), exec_ok_bind, hstop]
  by_cases htouch : prev.stop = s
  · rw [if_pos htouch, if_pos htouch, plus_eq (by omega)]
    rfl
  · rw [if_neg htouch, if_neg htouch]
    rfl

/-- The scan joins the free clusters to the extents before them. -/
theorem scanClusters_eq {prev : Span} {done : List Span}
    (hoffset : ∀ c ∈ clusters, free c = some true → offset c = .ok (start c))
    (hwithin : Within lo hi (prev :: freeSpans size free start clusters)) (hhi : hi < 2 ^ 64) :
    scanClusters b size free offset clusters (prev :: done) =
      .ok (done.reverse ++ coalesceFrom prev (freeSpans size free start clusters)) := by
  induction clusters generalizing lo prev done with
  | nil =>
    rw [scanClusters, List.reverse_cons]
    rfl
  | cons c rest ih =>
    obtain ⟨hc, hrest⟩ := List.forall_mem_cons.mp hoffset
    unfold scanClusters
    unfold freeSpans at hwithin ⊢
    cases hfree : free c with
    | none =>
      rw [List.reverse_cons]
      rfl
    | some isFree =>
      rw [hfree] at hwithin
      cases isFree with
      | false => exact ih hrest hwithin
      | true =>
        dsimp only at hwithin ⊢
        have hle : prev.stop ≤ start c := hwithin.2.1
        have hbound : start c + size ≤ hi := hwithin.2.2.le
        rw [hc hfree, exec_ok_bind, addExtent_eq hle (by omega), exec_ok_bind, coalesceFrom]
        by_cases htouch : prev.stop = start c
        · rw [if_pos htouch, if_pos htouch]
          refine ih hrest ⟨hwithin.1, ?_⟩
          have hbehind := hwithin.2.2
          have hsame : (⟨prev.offset, prev.len + size⟩ : Span).stop = start c + size := by
            rw [← htouch]
            exact (Nat.add_assoc _ _ _).symm
          rw [hsame]
          exact hbehind
        · rw [if_neg htouch, if_neg htouch, ih hrest ⟨le_rfl, hwithin.2.2⟩, List.reverse_cons, List.append_assoc]
          rfl

theorem scanClusters_nil (hoffset : ∀ c ∈ clusters, free c = some true → offset c = .ok (start c))
    (hwithin : Within lo hi (freeSpans size free start clusters)) (hhi : hi < 2 ^ 64) :
    scanClusters b size free offset clusters [] = .ok (coalesce (freeSpans size free start clusters)) := by
  induction clusters with
  | nil => rfl
  | cons c rest ih =>
    obtain ⟨hc, hrest⟩ := List.forall_mem_cons.mp hoffset
    unfold scanClusters
    unfold freeSpans at hwithin ⊢
    cases hfree : free c with
    | none => rfl
    | some isFree =>
      rw [hfree] at hwithin
      cases isFree with
      | false => exact ih hrest hwithin
      | true =>
        dsimp only at hwithin ⊢
        rw [hc hfree, exec_ok_bind]
        exact scanClusters_eq hrest hwithin hhi

theorem freeSpans_within (hlo : lo ≤ hi) (hstart : ∀ c ∈ clusters, lo ≤ start c ∧ start c + size ≤ hi)
    (hordered : clusters.Pairwise fun c d => start c + size ≤ start d) :
    Within lo hi (freeSpans size free start clusters) := by
  induction clusters generalizing lo with
  | nil => exact hlo
  | cons c rest ih =>
    obtain ⟨hc, hrest⟩ := List.forall_mem_cons.mp hstart
    obtain ⟨hbefore, hordered'⟩ := List.pairwise_cons.mp hordered
    unfold freeSpans
    cases free c with
    | none => exact hlo
    | some isFree =>
      cases isFree with
      | false => exact ih hlo hrest hordered'
      | true => exact ⟨hc.1, ih hc.2 (fun d hd => ⟨hbefore d hd, (hrest d hd).2⟩) hordered'⟩

/-- No cluster is free behind one whose entry is missing. -/
theorem mem_freeSpans (hmissing : clusters.Pairwise fun c d => free c = none → free d = none) {s : Span} :
    s ∈ freeSpans size free start clusters ↔ ∃ c ∈ clusters, free c = some true ∧ s = ⟨start c, size⟩ := by
  induction clusters with
  | nil => simp [freeSpans]
  | cons c rest ih =>
    obtain ⟨hbefore, hrest⟩ := List.pairwise_cons.mp hmissing
    unfold freeSpans
    cases hfree : free c with
    | none =>
      have hnone : ¬ ∃ d ∈ rest, free d = some true ∧ s = ⟨start d, size⟩ := by
        rintro ⟨d, hd, hd', -⟩
        rw [hbefore d hd hfree] at hd'
        cases hd'
      simp [hfree, hnone]
    | some isFree =>
      cases isFree with
      | false => simp [hfree, ih hrest]
      | true => simp [hfree, ih hrest]

/-- The scan of clusters that lie one behind the other gives exactly the free ones. -/
theorem exact_of_scan (b : Build) (free : ℕ → Option Bool) (offset : ℕ → Exec ℕ) (start : ℕ → ℕ) (size : ℕ)
    (clusters : List ℕ) (hlo : lo ≤ hi) (hhi : hi < 2 ^ 64)
    (hoffset : ∀ c ∈ clusters, offset c = .ok (start c) ∧ lo ≤ start c ∧ start c + size ≤ hi)
    (hordered : clusters.Pairwise fun c d => start c + size ≤ start d)
    (hmissing : clusters.Pairwise fun c d => free c = none → free d = none) :
    ∃ extents, scanClusters b size free offset clusters [] = .ok extents ∧
      ExactExtents (fun c => c ∈ clusters ∧ free c = some true) start size extents := by
  have hwithin : Within lo hi (freeSpans size free start clusters) :=
    freeSpans_within hlo (fun c hc => (hoffset c hc).2) hordered
  refine ⟨_, scanClusters_nil (fun c hc _ => (hoffset c hc).1) hwithin hhi, coalesce_separated hwithin, ?_, ?_⟩
  · intro s hs
    constructor
    · refine coalesce_offset (P := fun o => ∃ c, (c ∈ clusters ∧ free c = some true) ∧ o = start c) (fun t ht => ?_) s hs
      obtain ⟨c, hc, hfree, rfl⟩ := (mem_freeSpans hmissing).mp ht
      exact ⟨c, ⟨hc, hfree⟩, rfl⟩
    · refine coalesce_len (P := fun n => ∃ k, 0 < k ∧ n = k * size) ?_ (fun t ht => ?_) s hs
      · rintro m n ⟨j, hj, rfl⟩ ⟨k, -, rfl⟩
        exact ⟨j + k, by omega, (Nat.add_mul j k size).symm⟩
      · obtain ⟨c, -, -, rfl⟩ := (mem_freeSpans hmissing).mp ht
        exact ⟨1, Nat.one_pos, (Nat.one_mul size).symm⟩
  · intro p
    rw [coalesce_covers]
    constructor
    · rintro ⟨s, hs, hle, hlt⟩
      obtain ⟨c, hc, hfree, rfl⟩ := (mem_freeSpans hmissing).mp hs
      exact ⟨c, ⟨hc, hfree⟩, hle, hlt⟩
    · rintro ⟨c, ⟨hc, hfree⟩, hle, hlt⟩
      exact ⟨⟨start c, size⟩, (mem_freeSpans hmissing).mpr ⟨c, hc, hfree, rfl⟩, hle, hlt⟩

/-- The same extents with the clusters under their numbers. -/
theorem ExactExtents.renumber {P Q : ℕ → Prop} {number start : ℕ → ℕ} {extents : List Span}
    (h : ExactExtents P (fun i => start (number i)) size extents) (hsame : ∀ c, Q c ↔ ∃ i, P i ∧ number i = c) :
    ExactExtents Q start size extents := by
  refine ⟨h.apart, fun s hs => ?_, fun p => (h.covers p).trans ?_⟩
  · obtain ⟨⟨i, hi, hoffset⟩, hwhole⟩ := h.whole s hs
    exact ⟨⟨number i, (hsame _).mpr ⟨i, hi, rfl⟩, hoffset⟩, hwhole⟩
  · constructor
    · rintro ⟨i, hi, hle, hlt⟩
      exact ⟨number i, (hsame _).mpr ⟨i, hi, rfl⟩, hle, hlt⟩
    · rintro ⟨c, hc, hle, hlt⟩
      obtain ⟨i, hi, rfl⟩ := (hsame c).mp hc
      exact ⟨i, hi, hle, hlt⟩

end Exact

namespace Fat

def fatEntry (fat : List UInt8) (fatType : FatType) (cluster : ℕ) : Option ℕ :=
  let entry := fun off len => if off + len ≤ fat.length then some (le (window fat off len)) else none
  match fatType with
  | .fat32 => (entry (cluster * 4) 4).map (· % 2 ^ 28)
  | .fat16 => entry (cluster * 2) 2
  | .fat12 => (entry (cluster * 3 / 2) 2).map fun raw => if cluster % 2 = 0 then raw % 2 ^ 12 else raw / 2 ^ 4

def MAX_FAT : ℕ := 256 * 1024 * 1024

namespace Volume

variable (b : Build) (v : Volume) (src : Source)

/-- The first table, as far as it is read into memory. -/
def readFat : Exec (List UInt8) := do
  let fatBase ← plus b v.offset (← times b v.reservedSectors v.bytesPerSector)
  let fatBytes ← times b v.fatSizeSectors v.bytesPerSector
  src.readAt fatBase (min fatBytes MAX_FAT)

def freeExtents : Exec (List Span) := do
  let fat ← v.readFat b src
  let max ← v.maxValidCluster b
  scanClusters b v.clusterBytes (fun c => (fatEntry fat v.fatType c).map fun entry => decide (entry = 0))
    (v.clusterOffset b) (List.range' 2 (max - 1)) []

end Volume

/-- The bits of an entry of the table. -/
def FatType.width : FatType → ℕ
  | .fat12 => 12
  | .fat16 => 16
  | .fat32 => 32

/-- The bits of an entry that are a cluster number. -/
def FatType.bits : FatType → ℕ
  | .fat12 => 12
  | .fat16 => 16
  | .fat32 => 28

/-- A table marks a cluster as free when the number that is packed at its place is there and zero. -/
structure MarksFree (fatType : FatType) (table : List UInt8) (cluster : ℕ) : Prop where
  present : fatType.width * (cluster + 1) ≤ 8 * table.length
  zero : le table / 2 ^ (fatType.width * cluster) % 2 ^ fatType.bits = 0

section Entries

variable {table : List UInt8} {fatType : FatType} {c : ℕ}

theorem pow_byte (n : ℕ) : 256 ^ n = 2 ^ (8 * n) := by
  rw [pow_mul]
  norm_num

/-- Every packing gives the number at the place of the cluster. -/
theorem fatEntry_eq (table : List UInt8) (fatType : FatType) (c : ℕ) :
    fatEntry table fatType c =
      if fatType.width * (c + 1) ≤ 8 * table.length then
        some (le table / 2 ^ (fatType.width * c) % 2 ^ fatType.bits)
      else none := by
  have hsub (x n m k : ℕ) (h : m + k ≤ n) : x % 2 ^ n / 2 ^ k % 2 ^ m = x / 2 ^ k % 2 ^ m := by
    rw [show n = k + (n - k) by omega, pow_add, Nat.mod_mul_right_div_self, Nat.mod_mod_of_dvd]
    exact pow_dvd_pow 2 (by omega)
  cases fatType with
  | fat32 =>
    have hpresent : FatType.fat32.width * (c + 1) ≤ 8 * table.length ↔ c * 4 + 4 ≤ table.length := by
      simp only [FatType.width]
      omega
    unfold fatEntry
    dsimp only
    by_cases hlen : c * 4 + 4 ≤ table.length
    · have hmod := hsub (le table / 2 ^ (32 * c)) 32 28 0 (by decide)
      rw [pow_zero, Nat.div_one, Nat.div_one] at hmod
      rw [if_pos hlen, if_pos (hpresent.mpr hlen), Option.map_some, le_window, pow_byte, pow_byte,
        show 8 * (c * 4) = 32 * c by omega]
      exact congrArg some hmod
    · rw [if_neg hlen, if_neg (hpresent.not.mpr hlen), Option.map_none]
  | fat16 =>
    have hpresent : FatType.fat16.width * (c + 1) ≤ 8 * table.length ↔ c * 2 + 2 ≤ table.length := by
      simp only [FatType.width]
      omega
    unfold fatEntry
    dsimp only
    by_cases hlen : c * 2 + 2 ≤ table.length
    · rw [if_pos hlen, if_pos (hpresent.mpr hlen), le_window, pow_byte, pow_byte,
        show 8 * (c * 2) = 16 * c by omega]
      rfl
    · rw [if_neg hlen, if_neg (hpresent.not.mpr hlen)]
  | fat12 =>
    have hpresent : FatType.fat12.width * (c + 1) ≤ 8 * table.length ↔ c * 3 / 2 + 2 ≤ table.length := by
      simp only [FatType.width]
      omega
    unfold fatEntry
    dsimp only
    by_cases hlen : c * 3 / 2 + 2 ≤ table.length
    · rw [if_pos hlen, if_pos (hpresent.mpr hlen), Option.map_some, le_window, pow_byte, pow_byte]
      refine congrArg some ?_
      -- An even entry is the low bits of its two bytes, and an odd one the high bits.
      rcases Nat.mod_two_eq_zero_or_one c with heven | hodd
      · have hmod := hsub (le table / 2 ^ (8 * (c * 3 / 2))) 16 12 0 (by decide)
        rw [pow_zero, Nat.div_one, Nat.div_one] at hmod
        rw [if_pos heven, hmod, show 8 * (c * 3 / 2) = 12 * c by omega]
        rfl
      · rw [if_neg (by omega), show 8 * 2 = 4 + 12 from rfl, pow_add, Nat.mod_mul_right_div_self,
          Nat.div_div_eq_div_mul, ← pow_add,
          show 8 * (c * 3 / 2) + 4 = 12 * c by omega]
        rfl
    · rw [if_neg hlen, if_neg (hpresent.not.mpr hlen), Option.map_none]

theorem fatEntry_zero_iff : fatEntry table fatType c = some 0 ↔ MarksFree fatType table c := by
  rw [fatEntry_eq]
  by_cases hpresent : fatType.width * (c + 1) ≤ 8 * table.length
  · rw [if_pos hpresent, Option.some_inj]
    exact ⟨fun hzero => ⟨hpresent, hzero⟩, fun h => h.zero⟩
  · rw [if_neg hpresent]
    exact iff_of_false (fun h => by cases h) fun h => hpresent h.present

/-- The two decoders of a table agree about what is free. -/
theorem clusterIsFree_iff : clusterIsFree fatType table c = true ↔ MarksFree fatType table c := by
  rw [← fatEntry_zero_iff]
  cases fatType <;> simp [clusterIsFree, fatEntry]

theorem fatEntry_missing {d : ℕ} (hle : c ≤ d) (h : fatEntry table fatType c = none) :
    fatEntry table fatType d = none := by
  rw [fatEntry_eq] at h ⊢
  have hmul := Nat.mul_le_mul_left fatType.width (show c + 1 ≤ d + 1 by omega)
  by_cases hpresent : fatType.width * (c + 1) ≤ 8 * table.length
  · rw [if_pos hpresent] at h
    cases h
  · exact if_neg (by omega)

end Entries

/-- Where a cluster begins in the source. -/
def Volume.startOf (v : Volume) (c : ℕ) : ℕ :=
  v.offset + (v.firstDataSector + (c - 2) * v.sectorsPerCluster) * v.bytesPerSector

section FreeExtents

variable {b : Build} {src : Source} {offset max : ℕ} {v : Volume} {fat : List UInt8}

theorem Volume.startOf_ordered (v : Volume) {c d : ℕ} (hc : 2 ≤ c) (hlt : c < d) :
    v.startOf c + v.clusterBytes ≤ v.startOf d := by
  have hstep := Nat.mul_le_mul_right v.sectorsPerCluster (show c - 2 + 1 ≤ d - 2 by omega)
  rw [Nat.add_mul, Nat.one_mul] at hstep
  have hbytes := Nat.mul_le_mul_right v.bytesPerSector
    (show v.firstDataSector + (c - 2) * v.sectorsPerCluster + v.sectorsPerCluster ≤
      v.firstDataSector + (d - 2) * v.sectorsPerCluster by omega)
  rw [Nat.add_mul] at hbytes
  unfold startOf clusterBytes
  omega

/-- The extents are exact for the part of the table that was read. -/
theorem freeExtents_exact (hparse : Volume.parse src offset = .ok v) (hmax : v.maxValidCluster b = .ok max)
    (hfat : v.readFat b src = .ok fat) : ∃ extents, v.freeExtents b src = .ok extents ∧
      ExactExtents (fun c => (2 ≤ c ∧ c ≤ max) ∧ MarksFree v.fatType fat c) v.startOf v.clusterBytes extents := by
  obtain ⟨-, ho, hbps, -, htotal, -, -⟩ := Volume.ofBpb_ok (Volume.parse_ok hparse)
  have hoffset := Volume.parse_offset_lt hparse
  have htotal_lt : v.totalSectors < 2 ^ 32 := htotal ▸ totalSectors_lt _
  have hbps_lt : v.bytesPerSector < 2 ^ 16 := hbps ▸ le_window_lt _ 11 2
  have hlast : max ≤ v.countOfClusters + 1 := by
    unfold Volume.maxValidCluster plus32 at hmax
    split_ifs at hmax
    · cases hmax
      exact le_rfl
    · cases b with
      | debug => cases hmax
      | release =>
        cases hmax
        exact Nat.mod_le _ _
  have hmem : ∀ c, c ∈ List.range' 2 (max - 1) ↔ 2 ≤ c ∧ c ≤ max := by
    intro c
    rw [List.mem_range'_1]
    omega
  have hsize : v.totalSectors * v.bytesPerSector ≤ 2 ^ 32 * 2 ^ 16 := Nat.mul_le_mul (by omega) (by omega)
  have hplaced : ∀ c ∈ List.range' 2 (max - 1), v.clusterOffset b c = .ok (v.startOf c) ∧
      v.offset ≤ v.startOf c ∧ v.startOf c + v.clusterBytes ≤ v.offset + v.totalSectors * v.bytesPerSector := by
    intro c hc
    obtain ⟨hlow, hhigh⟩ := (hmem c).mp hc
    obtain ⟨hstart, hsector⟩ := clusterOffset_eq b (by omega) hbps_lt htotal_lt hlow (by omega)
    have hbytes := Nat.mul_le_mul_right v.bytesPerSector hsector
    rw [Nat.add_mul] at hbytes
    refine ⟨hstart, Nat.le_add_right _ _, ?_⟩
    unfold Volume.startOf Volume.clusterBytes
    omega
  have hascending : (List.range' 2 (max - 1)).Pairwise (· < ·) := List.pairwise_lt_range'
  obtain ⟨extents, hscan, hexact⟩ := exact_of_scan b
    (fun c => (fatEntry fat v.fatType c).map fun entry => decide (entry = 0)) (v.clusterOffset b) v.startOf
    v.clusterBytes (List.range' 2 (max - 1)) (Nat.le_add_right v.offset (v.totalSectors * v.bytesPerSector)) (by omega) hplaced
    (hascending.imp_of_mem fun hc _ hlt => v.startOf_ordered ((hmem _).mp hc).1 hlt)
    (hascending.imp fun hlt hnone => by
      rw [Option.map_eq_none_iff] at hnone ⊢
      exact fatEntry_missing hlt.le hnone)
  have hfree : (fun c => c ∈ List.range' 2 (max - 1) ∧
      (fatEntry fat v.fatType c).map (fun entry => decide (entry = 0)) = some true) =
      fun c => (2 ≤ c ∧ c ≤ max) ∧ MarksFree v.fatType fat c := by
    funext c
    rw [hmem, ← fatEntry_zero_iff]
    simp
  refine ⟨extents, ?_, hfree ▸ hexact⟩
  unfold Volume.freeExtents
  rw [hfat, exec_ok_bind, hmax, exec_ok_bind]
  exact hscan

theorem readFat_eq (hparse : Volume.parse src offset = .ok v) : v.readFat b src =
    src.readAt (v.offset + v.reservedSectors * v.bytesPerSector)
      (min (v.fatSizeSectors * v.bytesPerSector) MAX_FAT) := by
  have hoffset := Volume.parse_offset hparse
  have hoffset_lt := Volume.parse_offset_lt hparse
  have hreserved := Volume.parse_reservedSectors hparse
  obtain ⟨-, -, hbps, -⟩ := Volume.ofBpb_ok (Volume.parse_ok hparse)
  have hbps_lt : v.bytesPerSector < 2 ^ 16 := hbps ▸ le_window_lt _ 11 2
  have hfat : v.fatSizeSectors < 2 ^ 32 := by
    have hp := Volume.parse_ok hparse
    unfold Volume.ofBpb at hp
    split_ifs at hp
    cases hp
    have h16 := le_window_lt (window src.data offset 512) 22 2
    have h32 := le_window_lt (window src.data offset 512) 36 4
    dsimp only [Bpb.fatSizeSectors, Bpb.read]
    split_ifs
    · omega
    · omega
  have hbase := Nat.mul_le_mul hreserved.le hbps_lt.le
  have hbytes := Nat.mul_le_mul hfat.le hbps_lt.le
  unfold Volume.readFat
  rw [times_eq (by omega), exec_ok_bind, plus_eq (by omega), exec_ok_bind, times_eq (by omega), exec_ok_bind]

theorem clusterBytes_pos (v : Volume) : 0 < v.clusterBytes := Nat.mul_pos v.cluster_pos v.sector_pos

/-- A cluster lies in the extents when its first byte does. -/
theorem covered_iff {free : ℕ → Prop} {extents : List Span}
    (h : ExactExtents (fun c => (2 ≤ c ∧ c ≤ max) ∧ free c) v.startOf v.clusterBytes extents) {c : ℕ}
    (hlow : 2 ≤ c) (hhigh : c ≤ max) :
    (∀ p, v.startOf c ≤ p → p < v.startOf c + v.clusterBytes → Covers extents p) ↔ free c := by
  constructor
  · intro hall
    obtain ⟨d, ⟨⟨hd, -⟩, hfree⟩, hle, hlt⟩ :=
      (h.covers _).mp (hall (v.startOf c) le_rfl (Nat.lt_add_of_pos_right (clusterBytes_pos v)))
    rcases Nat.lt_trichotomy d c with hdc | rfl | hcd
    · exact absurd (v.startOf_ordered hd hdc) (by omega)
    · exact hfree
    · have hpos := clusterBytes_pos v
      exact absurd (v.startOf_ordered hlow hcd) (by omega)
  · exact fun hfree p hle hlt => (h.covers p).mpr ⟨c, ⟨⟨hlow, hhigh⟩, hfree⟩, hle, hlt⟩

end FreeExtents

end Fat

namespace Exfat

/-- The first cluster of the bitmap and its length, as the first entry of one states them. -/
def findBitmap : List (List UInt8) → Option (ℕ × ℕ)
  | [] => none
  | e :: rest =>
    if byteAt e 0 = 0x00 then none
    else if byteAt e 0 = 0x81 ∧ byteAt e 1 &&& 0x01 = 0 then some (le (window e 20 4), le (window e 24 8))
    else findBitmap rest

namespace Volume

variable (b : Build) (v : Volume) (src : Source)

def bitmapBytes (claimed : ℕ) : ℕ := min claimed (divCeil v.clusterCount 8)

def readBitmap : Exec (Option (List UInt8)) := do
  let root := v.readDirectory src b v.rootCluster none false
  root.result
  match findBitmap (chunksExact entrySize root.content.bytes) with
  | none => return none
  | some (first, len) =>
    if first < 2 ∨ v.maxValidCluster < first then return none
    else return some (← src.readAt (v.clusterOffset first) (v.bitmapBytes len))

/-- Whether the bit of a cluster, counted from the second one, is set. Past the end it counts as set. -/
def bitSet (bitmap : List UInt8) (i : ℕ) : Bool :=
  ((bitmap[i / 8]?).map fun x => decide (x.toNat / 2 ^ (i % 8) % 2 = 1)).getD true

def freeExtents : Exec (List Span) := do
  match ← v.readBitmap b src with
  | none => return []
  | some bitmap =>
    let cb ← v.clusterBytes b
    scanClusters b cb (fun i => some !bitSet bitmap i) (fun i => do return v.clusterOffset (← plus32 b 2 i))
      (List.range v.clusterCount) []

end Volume

/-- A bitmap marks a cluster as free when it has a bit for it, which is not set. -/
structure MarksFree (bitmap : List UInt8) (cluster : ℕ) : Prop where
  present : cluster - 2 < 8 * bitmap.length
  clear : le bitmap / 2 ^ (cluster - 2) % 2 = 0

section Bits

variable {bitmap : List UInt8}

theorem le_bit {i : ℕ} (hi : i / 8 < bitmap.length) :
    (bitmap[i / 8]).toNat / 2 ^ (i % 8) % 2 = le bitmap / 2 ^ i % 2 := by
  have hbyte : le (window bitmap (i / 8) 1) = (bitmap[i / 8]).toNat := by
    rw [window, List.drop_eq_getElem_cons hi, List.take_succ_cons, List.take_zero]
    rfl
  have hsplit : 2 ^ i = 256 ^ (i / 8) * 2 ^ (i % 8) := by
    rw [Fat.pow_byte, ← pow_add, Nat.div_add_mod]
  have hlow : 256 ^ 1 = 2 ^ (i % 8) * 2 ^ (8 - i % 8) := by
    rw [Fat.pow_byte, ← pow_add, Nat.add_sub_cancel' (by omega)]
  have hdvd : 2 ∣ 2 ^ (8 - i % 8) := dvd_pow_self 2 (by omega)
  rw [← hbyte, le_window, hlow, Nat.mod_mul_right_div_self, Nat.mod_mod_of_dvd _ hdvd, hsplit,
    Nat.div_div_eq_div_mul]

theorem bitSet_false_iff {i : ℕ} : Volume.bitSet bitmap i = false ↔ MarksFree bitmap (i + 2) := by
  unfold Volume.bitSet
  by_cases hi : i / 8 < bitmap.length
  · rw [List.getElem?_eq_getElem hi, Option.map_some, Option.getD_some, decide_eq_false_iff_not, le_bit hi]
    constructor
    · exact fun hset => ⟨by omega, by rw [Nat.add_sub_cancel]; omega⟩
    · intro h
      have hclear := h.clear
      rw [Nat.add_sub_cancel] at hclear
      omega
  · rw [List.getElem?_eq_none (not_lt.mp hi)]
    refine iff_of_false (by simp) fun h => ?_
    have hpresent := h.present
    omega

end Bits

section Parse

variable {b : Build} {src : Source} {boot : List UInt8} {offset : ℕ} {v : Volume}

/-- The bounds of what the boot sector states. -/
structure Stated (b : Build) (v : Volume) : Prop where
  heap : v.clusterHeapOffsetSectors < 2 ^ 32
  count : v.clusterCount < 2 ^ 32
  sizes : Plausible b v ∨ v.clusterBytes b = .ok 0

/-- Shifts whose sum leaves a byte make a product that leaves a word. -/
theorem times_wrapped {m n x : ℕ} (hn : n < 256) (hm : m ≤ 12) (hwide : 256 ≤ m + n)
    (h : shiftLeft .release 1 n = .ok x) : times .release x (2 ^ m) = .ok 0 := by
  have hx : x = 2 ^ (n - 192) := by
    unfold shiftLeft at h
    rw [if_neg (by omega), show n % 64 = n - 192 by omega, Nat.one_mul,
      Nat.mod_eq_of_lt (Nat.pow_lt_pow_right (by decide) (by omega))] at h
    exact (Except.ok.inj h).symm
  have hproduct : x * 2 ^ m = 2 ^ 64 * 2 ^ (n - 192 + m - 64) := by
    rw [hx, ← pow_add, ← pow_add]
    exact congrArg (2 ^ ·) (by omega)
  unfold times
  dsimp only
  rw [hproduct, if_neg (not_lt.mpr (Nat.le_mul_of_pos_right _ (Nat.pow_pos (by decide)))), Nat.mul_mod_right]

/-- A build that does not check sums may have accepted shifts whose product is no word. -/
theorem ofBoot_stated (h : Volume.ofBoot b boot offset = .ok (.ok v)) : Stated b v := by
  unfold Volume.ofBoot at h
  split_ifs at h with hvbr hsector
  · cases h
  · obtain ⟨shift, hshift, h⟩ := exec_bind_ok h
    split_ifs at h with hlarge
    · cases h
    · split at h
      · cases h
      · rename_i bps hbps
        split at h
        · cases h
        · rename_i spc hspc
          cases h
          refine ⟨le_window_lt _ 88 4, le_window_lt _ 92 4, ?_⟩
          obtain ⟨h9, h12⟩ := hsector
          have hm : bps = 2 ^ bytesPerSectorShift boot := by
            rw [shiftLeft_one (by omega)] at hbps
            cases hbps
            rfl
          by_cases hfit : bytesPerSectorShift boot + sectorsPerClusterShift boot < 256
          · rw [plus8_eq hfit] at hshift
            cases hshift
            rw [shiftLeft_one (by omega)] at hspc
            cases hspc
            exact .inl (plausible_of_shifts hm rfl h9 h12 (by omega))
          · cases b with
            | debug =>
              rw [plus8_debug (by omega)] at hshift
              cases hshift
            | release =>
              have hbyte : sectorsPerClusterShift boot < 256 := UInt8.toNat_lt _
              right
              change times .release spc bps = .ok 0
              rw [hm]
              exact times_wrapped hbyte h12 (by omega) hspc
  · cases h

theorem parse_stated (h : Volume.parse b src offset = .ok (.ok v)) : Stated b v ∧ v.offset < 2 ^ 63 := by
  have hoffset := Volume.parse_offset h
  unfold Volume.parse at h
  split at h
  · cases h
  · rename_i boot hboot
    split_ifs at h
    · cases h
    · refine ⟨ofBoot_stated h, ?_⟩
      unfold Source.readAt at hboot
      split_ifs at hboot with hread
      by_contra hlarge
      exact hread ⟨by decide, .inl (by omega)⟩

/-- Clusters of no bytes hold no entries. -/
theorem readDirectory_empty (hempty : v.clusterBytes b = .ok 0) (first : ℕ) :
    (v.readDirectory src b first none false).content.bytes = [] := by
  unfold Volume.readDirectory Volume.readUpTo
  rw [hempty]
  refine (v.chain src maxDirBytes 0 none).eval_inv (I := fun s => s.content.bytes = [])
    (Q := fun d => d.content.bytes = []) (fun s hs => ?_) rfl
  change (v.chainBody src maxDirBytes 0 none s).Sat _ _
  unfold Volume.chainBody
  have hread : ∀ chunk, Content.read src (v.clusterOffset s.cluster) 0 = .ok chunk →
      (s.content.append chunk).bytes = [] := by
    intro chunk hchunk
    unfold Content.read at hchunk
    split at hchunk
    · cases hchunk
    · rename_i bytes hbytes
      cases hchunk
      change s.content.bytes ++ bytes = []
      rw [hs, Source.readAt_ok hbytes]
      rfl
  dsimp only
  split_ifs
  · exact hs
  · exact hs
  · split
    · exact hs
    · rename_i chunk hchunk
      split_ifs with hany
      · cases hany
      · split
        · exact hread chunk hchunk
        · exact hread chunk hchunk
        · exact hread chunk hchunk

/-- A volume whose bitmap was found has clusters of the sizes that the format allows. -/
theorem plausible_of_bitmap {bitmap : List UInt8} (hstated : Stated b v)
    (hbitmap : v.readBitmap b src = .ok (some bitmap)) : Plausible b v := by
  rcases hstated.sizes with hlikely | hempty
  · exact hlikely
  · unfold Volume.readBitmap at hbitmap
    obtain ⟨-, -, hbitmap⟩ := exec_bind_ok hbitmap
    rw [readDirectory_empty hempty] at hbitmap
    cases hbitmap

/-- No sum of the offset of a cluster is cut off. -/
theorem clusterOffset_unsaturated (hstated : Stated b v) (hlikely : Plausible b v) (hoffset : v.offset < 2 ^ 63)
    {c : ℕ} (hc : c < 2 ^ 32 + 2) :
    v.clusterOffset c =
        v.offset + v.clusterHeapOffsetSectors * v.bytesPerSector + (c - 2) * (v.sectorsPerCluster * v.bytesPerSector) ∧
      v.clusterHeapOffsetSectors * v.bytesPerSector + (c - 2) * (v.sectorsPerCluster * v.bytesPerSector) ≤ 2 ^ 58 := by
  obtain ⟨-, hsector⟩ := hlikely.sector
  obtain ⟨hlow, hcluster⟩ := hlikely.bounds
  have hone : v.sectorsPerCluster ≤ v.sectorsPerCluster * v.bytesPerSector :=
    Nat.le_mul_of_pos_right _ (by have := hlikely.sector.1; omega)
  have hheap := Nat.mul_le_mul hstated.heap.le hsector
  have hbytes := Nat.mul_le_mul (show c - 2 ≤ 2 ^ 32 by omega) hcluster
  have hsectors := Nat.mul_le_mul (show c - 2 ≤ 2 ^ 32 by omega) (hone.trans hcluster)
  have hheap_lt := hstated.heap
  have hmul : (v.clusterHeapOffsetSectors + (c - 2) * v.sectorsPerCluster) * v.bytesPerSector =
      v.clusterHeapOffsetSectors * v.bytesPerSector + (c - 2) * (v.sectorsPerCluster * v.bytesPerSector) := by
    rw [Nat.add_mul, Nat.mul_assoc]
  refine ⟨?_, by omega⟩
  have hsector : satAdd v.clusterHeapOffsetSectors (satMul (c - 2) v.sectorsPerCluster) =
      v.clusterHeapOffsetSectors + (c - 2) * v.sectorsPerCluster := by
    rw [satMul_eq (by omega), satAdd_eq (by omega)]
  unfold Volume.clusterOffset
  dsimp only
  rw [hsector, satMul_eq (by omega), satAdd_eq (by omega), hmul, Nat.add_assoc]

/-- The extents are exact for the part of the bitmap that was read. -/
theorem freeExtents_exact {bitmap : List UInt8} (hparse : Volume.parse b src offset = .ok (.ok v))
    (hcount : v.clusterCount + 1 < 2 ^ 32) (hbitmap : v.readBitmap b src = .ok (some bitmap)) :
    ∃ extents cb, v.freeExtents b src = .ok extents ∧ v.clusterBytes b = .ok cb ∧ ExactExtents
      (fun c => (2 ≤ c ∧ c ≤ v.maxValidCluster) ∧ MarksFree bitmap c) v.clusterOffset cb extents := by
  obtain ⟨hstated, hoffset⟩ := parse_stated hparse
  have hlikely := plausible_of_bitmap hstated hbitmap
  have hbytes := hlikely.bytes
  have hmax : v.maxValidCluster = v.clusterCount + 1 := min_eq_left (by omega)
  have hunsaturated := fun {c : ℕ} (hc : c < 2 ^ 32 + 2) => clusterOffset_unsaturated hstated hlikely hoffset hc
  have hstep {i j : ℕ} (hlt : i < j) (hj : j < v.clusterCount + 1) :
      v.clusterOffset (i + 2) + v.sectorsPerCluster * v.bytesPerSector ≤ v.clusterOffset (j + 2) := by
    have hmul := Nat.mul_le_mul_right (v.sectorsPerCluster * v.bytesPerSector) (show i + 1 ≤ j by omega)
    rw [Nat.add_mul, Nat.one_mul] at hmul
    rw [(hunsaturated (show i + 2 < 2 ^ 32 + 2 by omega)).1, (hunsaturated (show j + 2 < 2 ^ 32 + 2 by omega)).1,
      Nat.add_sub_cancel, Nat.add_sub_cancel]
    omega
  have hfirst (i : ℕ) (hi : i < v.clusterCount + 1) :
      v.clusterOffset 2 ≤ v.clusterOffset (i + 2) := by
    rcases Nat.eq_zero_or_pos i with rfl | hpos
    · exact le_rfl
    · exact (Nat.le_add_right _ _).trans (hstep hpos hi)
  have hlast (i : ℕ) (hi : i < v.clusterCount) :
      v.clusterOffset (i + 2) + v.sectorsPerCluster * v.bytesPerSector ≤ v.clusterOffset (v.clusterCount + 2) :=
    hstep hi (Nat.lt_succ_self _)
  obtain ⟨extents, hscan, hexact⟩ := exact_of_scan b (fun i => some !Volume.bitSet bitmap i)
    (fun i => do return v.clusterOffset (← plus32 b 2 i)) (fun i => v.clusterOffset (i + 2))
    (v.sectorsPerCluster * v.bytesPerSector) (List.range v.clusterCount)
    (hfirst v.clusterCount (Nat.lt_succ_self _))
    (by
      have hbound := hunsaturated (show v.clusterCount + 2 < 2 ^ 32 + 2 by omega)
      omega)
    (by
      intro i hi
      rw [List.mem_range] at hi
      refine ⟨?_, hfirst i (by omega), hlast i hi⟩
      rw [plus32_eq (by omega), Nat.add_comm 2 i]
      rfl)
    (List.pairwise_lt_range.imp_of_mem fun _ hj hlt => hstep hlt (by
      rw [List.mem_range] at hj
      omega))
    (List.pairwise_lt_range.imp fun _ hnone => by cases hnone)
  refine ⟨extents, _, ?_, hbytes, hexact.renumber fun c => ?_⟩
  · unfold Volume.freeExtents
    rw [hbitmap, exec_ok_bind]
    dsimp only
    rw [hbytes, exec_ok_bind]
    exact hscan
  · rw [hmax]
    constructor
    · rintro ⟨⟨hlow, hhigh⟩, hmarks⟩
      obtain ⟨i, rfl⟩ := Nat.exists_eq_add_of_le' hlow
      exact ⟨i, ⟨List.mem_range.mpr (by omega), by simp [bitSet_false_iff.mpr hmarks]⟩, rfl⟩
    · rintro ⟨i, ⟨hi, hfree⟩, rfl⟩
      rw [List.mem_range] at hi
      have hclear : Volume.bitSet bitmap i = false := by simpa using hfree
      exact ⟨⟨by omega, by omega⟩, bitSet_false_iff.mp hclear⟩

end Parse

end Exfat

/-- The extents are the free clusters, as far as the table or the bitmap is read into memory. -/
theorem free_extents_exact (b : Build) (src : Source) (offset : ℕ) :
    (∀ v max fat, Fat.Volume.parse src offset = .ok v → v.maxValidCluster b = .ok max → v.readFat b src = .ok fat →
      fat = window src.data (v.offset + v.reservedSectors * v.bytesPerSector)
          (min (v.fatSizeSectors * v.bytesPerSector) Fat.MAX_FAT) ∧
      ∃ extents, v.freeExtents b src = .ok extents ∧
        ExactExtents (fun c => (2 ≤ c ∧ c ≤ max) ∧ Fat.MarksFree v.fatType fat c) v.startOf v.clusterBytes extents ∧
        ∀ c, 2 ≤ c → c ≤ max →
          ((∀ p, v.startOf c ≤ p → p < v.startOf c + v.clusterBytes → Covers extents p) ↔
            Fat.clusterIsFree v.fatType fat c = true)) ∧
    ∀ v bitmap, Exfat.Volume.parse b src offset = .ok (.ok v) → v.clusterCount + 1 < 2 ^ 32 →
      v.readBitmap b src = .ok (some bitmap) →
      ∃ extents cb, v.freeExtents b src = .ok extents ∧ v.clusterBytes b = .ok cb ∧ ExactExtents
        (fun c => (2 ≤ c ∧ c ≤ v.maxValidCluster) ∧ Exfat.MarksFree bitmap c) v.clusterOffset cb extents := by
  constructor
  · intro v max fat hparse hmax hfat
    obtain ⟨extents, hextents, hexact⟩ := Fat.freeExtents_exact hparse hmax hfat
    rw [Fat.readFat_eq hparse] at hfat
    refine ⟨Source.readAt_ok hfat, extents, hextents, hexact, fun c hlow hhigh => ?_⟩
    rw [Fat.clusterIsFree_iff]
    exact Fat.covered_iff hexact hlow hhigh
  · exact fun v bitmap hparse hcount hbitmap => Exfat.freeExtents_exact hparse hcount hbitmap

/-- A volume of eight clusters, whose root directory says where the bitmap is. -/
def bitmapSource : Source where
  data := [0, 0, 0, 0x45, 0x58, 0x46, 0x41, 0x54, 0x20, 0x20, 0x20] ++ List.replicate 69 0 ++
    [1, 0, 0, 0, 1, 0, 0, 0, 2, 0, 0, 0, 8, 0, 0, 0, 2, 0, 0, 0] ++ List.replicate 8 0 ++ [9, 0] ++
    List.replicate 402 0 ++ List.replicate 512 0 ++
    [0x81, 0] ++ List.replicate 18 0 ++ [3, 0, 0, 0, 1, 0, 0, 0, 0, 0, 0, 0] ++ List.replicate 480 0 ++
    [0b10011011] ++ List.replicate 511 0
  size_lt := by decide +kernel

/-- The table of the one volume has a free cluster, and the bitmap of the other three of them. -/
theorem free_extents_found :
    (∃ v extents, Fat.Volume.parse Reassembly.reusedStart 0 = .ok v ∧
      v.freeExtents .debug Reassembly.reusedStart = .ok extents ∧
        ExactExtents (fun c => (2 ≤ c ∧ c ≤ 3) ∧ Fat.MarksFree v.fatType Reassembly.reusedTable c) v.startOf
          v.clusterBytes extents) ∧
    ∃ v extents cb, Exfat.Volume.parse .debug bitmapSource 0 = .ok (.ok v) ∧
      v.freeExtents .debug bitmapSource = .ok extents ∧ v.clusterBytes .debug = .ok cb ∧ ExactExtents
        (fun c => (2 ≤ c ∧ c ≤ v.maxValidCluster) ∧ Exfat.MarksFree [0b10011011] c) v.clusterOffset cb extents := by
  constructor
  · have hrun : (Fat.Volume.parse Reassembly.reusedStart 0).toOption.map (fun v =>
        (v.maxValidCluster .debug, v.readFat .debug Reassembly.reusedStart)) =
          some (.ok 3, .ok Reassembly.reusedTable) := by decide +kernel
    obtain ⟨v, hparse, hfields⟩ := Option.map_eq_some_iff.mp hrun
    obtain ⟨hmax, hfat⟩ := Prod.mk.inj hfields
    have hparsed := ok_of_toOption hparse
    obtain ⟨-, extents, hextents, hexact, -⟩ :=
      (free_extents_exact .debug Reassembly.reusedStart 0).1 v 3 _ hparsed hmax hfat
    exact ⟨v, extents, hparsed, hextents, hexact⟩
  · have hrun : (Exfat.Volume.parse .debug bitmapSource 0).toOption.map (fun r => r.toOption.map fun v =>
        (v.clusterCount, v.readBitmap .debug bitmapSource)) = some (some (8, .ok (some [0b10011011]))) := by
      decide +kernel
    obtain ⟨r, hr, hfields⟩ := Option.map_eq_some_iff.mp hrun
    obtain ⟨v, hv, hfields⟩ := Option.map_eq_some_iff.mp hfields
    obtain ⟨hcount, hbitmap⟩ := Prod.mk.inj hfields
    have hparsed : Exfat.Volume.parse .debug bitmapSource 0 = .ok (.ok v) := by
      rw [ok_of_toOption hr, ok_of_toOption hv]
    obtain ⟨extents, cb, hextents, hcb, hexact⟩ :=
      (free_extents_exact .debug bitmapSource 0).2 v _ hparsed (by omega) hbitmap
    exact ⟨v, extents, cb, hparsed, hextents, hcb, hexact⟩

/-- The boot sector of a volume whose table takes a sector more than 256 MiB. -/
def largeBoot : List UInt8 :=
  [0xEB, 0, 0, 0, 0, 0, 0, 0, 0, 0, 0, 0, 2, 1, 1, 0, 1, 0, 0, 0, 0, 0, 0, 0] ++ List.replicate 8 0 ++
    [0, 0, 0, 8, 1, 0, 8, 0] ++ List.replicate 472 0

def largeImage (n : ℕ) : List UInt8 := largeBoot ++ List.replicate n 0

theorem window_largeImage (n : ℕ) : window (largeImage n) 0 512 = largeBoot ∧
    ∀ m ≤ n, window (largeImage n) 512 m = List.replicate m 0 := by
  have hlen : largeBoot.length = 512 := by decide +kernel
  constructor
  · rw [window, List.drop_zero, largeImage, ← hlen, List.take_left]
  · intro m hm
    rw [window, largeImage, ← hlen, List.drop_left, List.take_replicate, min_eq_left hm]

def largeTable : Source where
  data := largeImage (2 ^ 28 + 512)
  size_lt := by
    rw [largeImage, List.length_append, List.length_replicate, show largeBoot.length = 512 by decide +kernel]
    omega

theorem readAt_largeTable {off n : ℕ} (hoff : off < 2 ^ 63) :
    largeTable.readAt off n = .ok (window largeTable.data off n) := by
  rw [Source.readAt, if_neg]
  rintro ⟨-, hlarge | hfail⟩
  · omega
  · cases hfail

/-- The entries behind the part of the table that is read into memory are left out. -/
theorem large_table_cut : ¬ ∀ (b : Build) (src : Source) (offset : ℕ) (v : Fat.Volume) (max : ℕ) (table : List UInt8),
    Fat.Volume.parse src offset = .ok v → v.maxValidCluster b = .ok max →
    src.readAt (v.offset + v.reservedSectors * v.bytesPerSector) (v.fatSizeSectors * v.bytesPerSector) = .ok table →
    table.length = v.fatSizeSectors * v.bytesPerSector →
    ∃ extents, v.freeExtents b src = .ok extents ∧
      ExactExtents (fun c => (2 ≤ c ∧ c ≤ max) ∧ Fat.MarksFree v.fatType table c) v.startOf v.clusterBytes extents := by
  obtain ⟨hboot, hzeros⟩ := window_largeImage (2 ^ 28 + 512)
  have hrun : (Fat.Volume.ofBpb (.read largeBoot) 0).toOption.map (fun v =>
      (v.offset, v.fatType, v.reservedSectors, v.bytesPerSector, v.fatSizeSectors, v.countOfClusters)) =
        some (0, .fat32, 1, 512, 524289, 133693438) := by decide +kernel
  obtain ⟨v, hparse, hfields⟩ := Option.map_eq_some_iff.mp hrun
  obtain ⟨hoffset, htype, hreserved, hbps, hsize, hcount⟩ : v.offset = 0 ∧ v.fatType = .fat32 ∧
      v.reservedSectors = 1 ∧ v.bytesPerSector = 512 ∧ v.fatSizeSectors = 524289 ∧
      v.countOfClusters = 133693438 := by
    simpa only [Prod.mk.injEq] using hfields
  have hmax : v.maxValidCluster .debug = .ok 133693439 := by
    rw [Fat.Volume.maxValidCluster, hcount]
    exact plus32_eq (by decide)
  have hparsed : Fat.Volume.parse largeTable 0 = .ok v := by
    unfold Fat.Volume.parse
    rw [readAt_largeTable (by decide), show window largeTable.data 0 512 = largeBoot from hboot]
    exact (if_neg (by decide +kernel)).trans (ok_of_toOption hparse)
  intro hclaim
  obtain ⟨extents, hextents, hexact⟩ := hclaim .debug largeTable 0 v _ (List.replicate (2 ^ 28 + 512) 0) hparsed hmax
    (by
      rw [hoffset, hreserved, hbps, hsize, readAt_largeTable (by decide)]
      exact congrArg Except.ok (hzeros _ le_rfl))
    (by
      rw [List.length_replicate, hsize, hbps]
      norm_num)
  have hread : v.readFat .debug largeTable = .ok (List.replicate (2 ^ 28) 0) := by
    rw [Fat.readFat_eq hparsed, hoffset, hreserved, hbps, hsize, readAt_largeTable (by decide)]
    exact congrArg Except.ok (hzeros _ (by decide))
  obtain ⟨extents', hextents', hexact'⟩ := Fat.freeExtents_exact hparsed hmax hread
  rw [hextents] at hextents'
  cases hextents'
  have hzero : ∀ n, le (List.replicate n 0) = 0 := by
    intro n
    induction n with
    | zero => rfl
    | succ n ih =>
      change 0 + 256 * le (List.replicate n 0) = 0
      rw [ih]
  have hmarked : Fat.MarksFree v.fatType (List.replicate (2 ^ 28 + 512) 0) (2 ^ 26) := by
    rw [htype]
    refine ⟨?_, ?_⟩
    · rw [List.length_replicate]
      decide
    · rw [hzero, Nat.zero_div, Nat.zero_mod]
  have hcovered := (Fat.covered_iff hexact (by decide) (by decide)).mpr hmarked
  have hpresent := ((Fat.covered_iff hexact' (by decide) (by decide)).mp hcovered).present
  rw [htype, List.length_replicate] at hpresent
  exact absurd hpresent (by decide)

end Unearth
