import Unearth.Lib.Orbit
import Unearth.LengthCfbf

/-!
# The walk over a chain of sectors

How long the walk goes on, and how much it collects, is up to the file: it ends when the chain does,
or when as many sectors have been read as the header states. The collected sectors are counted only
behind it.
-/

namespace Unearth.Cfbf
open Bytes Word Loop Post Orbit

section Chain

variable (b : Build) (src : Source) (r : Room) (h : Header)

/-- A sector of the chain, when it can be read whole. -/
def wholeSector (d : ℕ) : Option (List UInt8) :=
  match readSector b src r h.sectorSize d with
  | .ok sec => if sec.length < h.sectorSize then none else some sec
  | .error _ => none

def sectorOf (d : ℕ) : Option ℕ := if isSector d then some d else none

/-- The sector that follows another one in the chain. -/
def following (d : ℕ) : Option ℕ :=
  (wholeSector b src r h d).bind fun sec => sectorOf (entryAt sec ((h.entriesPerSector - 1) * 4))

/-- How many sectors of the table a sector of the chain lists. -/
def listed (d : ℕ) : ℕ := (wholeSector b src r h d).elim 0 fun sec => (pointers sec 0 (h.entriesPerSector - 1)).length

/-- The chain from its first sector on. -/
def chainLink : ℕ → Option ℕ := link (following b src r h) (sectorOf h.difat)

/-- How many sectors of the table the header and the first `n` sectors of the chain list. -/
def listedBy (n : ℕ) : ℕ :=
  h.fatSectors.length + ((List.range n).map fun i => (chainLink b src r h i).elim 0 (listed b src r h)).sum

/-- What the room and one more sector of the chain have place for. -/
def Header.capacity (r : Room) (h : Header) : ℕ := r.avail / h.sectorSize + (h.entriesPerSector - 1)

/-- The walk comes to a state and reads the next sector. -/
def Visits (s : Difat) : Prop :=
  (difatWalk b src r h).Passes h.walkStart s ∧ isSector s.difat = true ∧ s.seen < h.numDifatSectors

/-- No sector of the chain is read twice, and no more is collected than there is place for. -/
structure Contained : Prop where
  once : ∀ s t, Visits b src r h s → Visits b src r h t → s.difat = t.difat → s.seen = t.seen
  collected : ∀ s, (difatWalk b src r h).Passes h.walkStart s → s.fatSectors.length ≤ h.capacity r

/-- What a state has to do with the chain. -/
structure Tracked (s : Difat) : Prop where
  seen_le : s.seen ≤ h.numDifatSectors
  next : chainLink b src r h s.seen = sectorOf s.difat
  collected : s.fatSectors.length = listedBy b src r h s.seen

variable {b src r h}

theorem sectorOf_eq_some {d e : ℕ} : sectorOf d = some e ↔ isSector d = true ∧ d = e := by
  unfold sectorOf
  split_ifs with hd <;> simp [hd]

theorem wholeSector_eq_some {d : ℕ} {sec : List UInt8} : wholeSector b src r h d = some sec ↔
    readSector b src r h.sectorSize d = .ok sec ∧ h.sectorSize ≤ sec.length := by
  unfold wholeSector
  cases readSector b src r h.sectorSize d with
  | error e => simp
  | ok bytes =>
    dsimp only
    split_ifs with hshort
    · simp only [Except.ok.injEq, false_iff, not_and, not_le]
      rintro rfl
      exact hshort
    · simp only [Option.some.injEq, Except.ok.injEq]
      constructor
      · rintro rfl
        exact ⟨rfl, not_lt.mp hshort⟩
      · exact And.left

theorem listedBy_succ (n : ℕ) : listedBy b src r h (n + 1) =
    listedBy b src r h n + (chainLink b src r h n).elim 0 (listed b src r h) := by
  simp only [listedBy, List.range_succ, List.map_append, List.sum_append, List.map_singleton, List.sum_singleton]
  omega

theorem listedBy_mono {m n : ℕ} (hmn : m ≤ n) : listedBy b src r h m ≤ listedBy b src r h n := by
  induction n, hmn using Nat.le_induction with
  | base => exact le_rfl
  | succ n _ ih =>
    rw [listedBy_succ]
    exact ih.trans (Nat.le_add_right _ _)

theorem tracked_start : Tracked b src r h h.walkStart :=
  ⟨Nat.zero_le _, rfl, rfl⟩

theorem Tracked.step {s t : Difat} (hs : Tracked b src r h s)
    (ht : difatStep b src r h s = .ok (.inl t)) : Tracked b src r h t := by
  obtain ⟨hsector, hlt, sec, hread, hwhole, rfl⟩ := difatStep_next ht
  have hsec := wholeSector_eq_some.mpr ⟨hread, hwhole⟩
  have hhere : chainLink b src r h s.seen = some s.difat := hs.next.trans (sectorOf_eq_some.mpr ⟨hsector, rfl⟩)
  refine ⟨hlt, ?_, ?_⟩
  · have hnext : chainLink b src r h (s.seen + 1) = (chainLink b src r h s.seen).bind (following b src r h) := rfl
    rw [hnext, hhere, Option.bind_some, following, hsec, Option.bind_some]
  · dsimp only
    rw [List.length_append, hs.collected, listedBy_succ, hhere, Option.elim_some, listed, hsec, Option.elim_some]

theorem tracked {s : Difat} (hs : (difatWalk b src r h).Passes h.walkStart s) : Tracked b src r h s :=
  hs.inv (fun _ _ hs ht => hs.step ht) tracked_start

/-- A sector that is read whole is passed. -/
theorem Visits.next {s : Difat} (hs : Visits b src r h s) {sec : List UInt8}
    (hsec : wholeSector b src r h s.difat = some sec) :
    (difatWalk b src r h).Passes h.walkStart ⟨entryAt sec ((h.entriesPerSector - 1) * 4), s.seen + 1,
      s.fatSectors ++ pointers sec 0 (h.entriesPerSector - 1)⟩ := by
  obtain ⟨hpasses, hsector, hlt⟩ := hs
  obtain ⟨hread, hwhole⟩ := wholeSector_eq_some.mp hsec
  refine hpasses.next ?_
  change difatStep b src r h s = _
  unfold difatStep
  rw [if_pos ⟨hsector, hlt⟩, hread, exec_ok_bind, if_neg (not_lt.mpr hwhole)]
  rfl

/-- The walk comes to every sector of the chain that the header's count allows. -/
theorem exists_visit {i d : ℕ} (hi : i < h.numDifatSectors) (hd : chainLink b src r h i = some d) :
    ∃ s, Visits b src r h s ∧ s.seen = i ∧ s.difat = d := by
  induction i generalizing d with
  | zero =>
    obtain ⟨hsector, rfl⟩ := sectorOf_eq_some.mp (show sectorOf h.difat = some d from hd)
    exact ⟨h.walkStart, ⟨Relation.ReflTransGen.refl, hsector, hi⟩, rfl, rfl⟩
  | succ i ih =>
    have hnext : chainLink b src r h (i + 1) = (chainLink b src r h i).bind (following b src r h) := rfl
    rw [hnext] at hd
    obtain ⟨e, he, hfollowing⟩ := Option.bind_eq_some_iff.mp hd
    obtain ⟨sec, hsec, hentry⟩ := Option.bind_eq_some_iff.mp hfollowing
    obtain ⟨hsector, rfl⟩ := sectorOf_eq_some.mp hentry
    obtain ⟨s, hs, rfl, rfl⟩ := ih (by omega) he
    exact ⟨_, ⟨hs.next hsec, hsector, hi⟩, rfl, rfl⟩

/-- As much is collected as the chain lists. -/
theorem exists_collected {n : ℕ} (hn : n ≤ h.numDifatSectors) :
    ∃ s, (difatWalk b src r h).Passes h.walkStart s ∧ s.fatSectors.length = listedBy b src r h n := by
  induction n with
  | zero => exact ⟨h.walkStart, Relation.ReflTransGen.refl, rfl⟩
  | succ n ih =>
    obtain ⟨s, hs, hlength⟩ := ih (by omega)
    have hstay : (chainLink b src r h n).elim 0 (listed b src r h) = 0 →
        ∃ s, (difatWalk b src r h).Passes h.walkStart s ∧ s.fatSectors.length = listedBy b src r h (n + 1) :=
      fun hzero => ⟨s, hs, by rw [listedBy_succ, hzero, hlength, Nat.add_zero]⟩
    cases hlink : chainLink b src r h n with
    | none => exact hstay (by rw [hlink]; rfl)
    | some d =>
      cases hsec : wholeSector b src r h d with
      | none => exact hstay (by rw [hlink, Option.elim_some, listed, hsec]; rfl)
      | some sec =>
        obtain ⟨t, ht, rfl, rfl⟩ := exists_visit hn hlink
        have hnext := ht.next hsec
        exact ⟨_, hnext, (tracked hnext).collected⟩

/-- The walk is contained when the chain ends, or the header counts no more sectors than the chain has,
and when together they list no more than there is place for. -/
theorem contained_iff : Contained b src r h ↔
    ((∃ i, chainLink b src r h i = none) ∨
      (h.numDifatSectors : ℕ∞) ≤ (reached (following b src r h) (sectorOf h.difat)).encard) ∧
    listedBy b src r h h.numDifatSectors ≤ h.capacity r := by
  have happart : Apart (following b src r h) (sectorOf h.difat) h.numDifatSectors ↔ _ := apart_iff
  change _ ↔ (((∃ i, link (following b src r h) (sectorOf h.difat) i = none) ∨ _) ∧ _)
  rw [← happart]
  constructor
  · intro hc
    refine ⟨?_, ?_⟩
    · intro i hi j hj d hd hd'
      obtain ⟨s, hs, rfl, rfl⟩ := exists_visit hi hd
      obtain ⟨t, ht, rfl, hst⟩ := exists_visit hj hd'
      exact hc.once s t hs ht hst.symm
    · obtain ⟨s, hs, hlength⟩ := @exists_collected b src r h _ le_rfl
      rw [← hlength]
      exact hc.collected s hs
  · rintro ⟨happ, hcap⟩
    refine ⟨fun s t hs ht hst => ?_, fun s hs => ?_⟩
    · have hlink : ∀ u, Visits b src r h u → chainLink b src r h u.seen = some u.difat := fun u hu =>
        (tracked hu.1).next.trans (sectorOf_eq_some.mpr ⟨hu.2.1, rfl⟩)
      exact happ s.seen hs.2.2 t.seen ht.2.2 s.difat (hlink s hs) (hst ▸ hlink t ht)
    · rw [(tracked hs).collected]
      exact (listedBy_mono (tracked hs).seen_le).trans hcap

end Chain

/-- The walk of every length that is computed is contained exactly when the chain of the file is. -/
theorem difat_walk_contained_iff (b : Build) (src : Source) (r : Room) :
    (∀ h, readHeader src r = .ok (some h) → Contained b src r h) ↔
      ∀ h, readHeader src r = .ok (some h) →
        ((∃ i, chainLink b src r h i = none) ∨
          (h.numDifatSectors : ℕ∞) ≤ (reached (following b src r h) (sectorOf h.difat)).encard) ∧
        listedBy b src r h h.numDifatSectors ≤ h.capacity r :=
  forall₂_congr fun _ _ => contained_iff

section Sample

/-- The header of a file whose chain is said to have as many sectors as can be said. -/
def loopHeader : List UInt8 := MAGIC ++ List.replicate 16 0 ++ [0x3E, 0, 3, 0, 0xFE, 0xFF, 9, 0] ++
  List.replicate 12 0 ++ [1, 0, 0, 0] ++ List.replicate 24 0 ++ List.replicate 440 0xFF

theorem length_loopData_lt : (loopHeader ++ List.replicate 512 0).length < 2 ^ 63 := by
  simp only [loopHeader, List.length_append, List.length_replicate]
  decide

/-- Its one sector lists itself, and is the next one of the chain. -/
def loopSource : Source where
  data := loopHeader ++ List.replicate 512 0
  size_lt := length_loopData_lt

def loopRoom : Room := ⟨0, 1024, by decide, by decide⟩

def loopRead : Header := ⟨512, 1, 0xFFFFFFFF, 0, []⟩

theorem loop_reads : readHeader loopSource loopRoom = .ok (some loopRead) ∧
    wholeSector .debug loopSource loopRoom loopRead 0 = some (List.replicate 512 0) ∧
    entryAt (List.replicate 512 0) ((loopRead.entriesPerSector - 1) * 4) = 0 := by decide +kernel

theorem read_loopHeader : readHeader loopSource loopRoom = .ok (some loopRead) := loop_reads.1

theorem whole_loopSector : wholeSector .debug loopSource loopRoom loopRead 0 = some (List.replicate 512 0) :=
  loop_reads.2.1

theorem next_loopSector : entryAt (List.replicate 512 0) ((loopRead.entriesPerSector - 1) * 4) = 0 := loop_reads.2.2

/-- A chain that leads back to its sector is walked again and again. -/
theorem loop_not_contained : ¬ ∀ (b : Build) (src : Source) (r : Room) (h : Header),
    readHeader src r = .ok (some h) → Contained b src r h := by
  intro hall
  have hc := hall .debug loopSource loopRoom loopRead read_loopHeader
  have hfirst : Visits .debug loopSource loopRoom loopRead loopRead.walkStart :=
    ⟨Relation.ReflTransGen.refl, rfl, by decide⟩
  have hnext := hfirst.next whole_loopSector
  rw [next_loopSector] at hnext
  have hsecond := hc.once _ _ hfirst ⟨hnext, rfl, by decide⟩ rfl
  cases hsecond

end Sample

end Unearth.Cfbf
