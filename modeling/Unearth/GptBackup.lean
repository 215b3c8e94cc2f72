import Unearth.GptReaders

/-!
# The backup of a damaged partition table

Both readers try the primary header and the backup one, for two sizes of a sector, and take
the first that is accepted. A header is accepted by a few of its fields, so that a damaged
one is passed over only when one of these is damaged.
-/

namespace Unearth.Gpt
open Lines Bytes Word

inductive Scheme
  | gpt
  | mbr
  | apm
  | bsd
  | none
  deriving DecidableEq

structure Table where
  scheme : Scheme
  partitions : List Partition
  fromBackup : Bool
  diskGuid : Option Text
  deriving DecidableEq

/-- A place of a header: the size of a sector, the offset, and whether it is the backup. -/
structure Place where
  sectorSize : ℕ
  hdrOff : ℕ
  backup : Bool
  deriving DecidableEq

section Read

variable (b : Build) (src : Source)

/-- The places in the order in which they are tried. -/
def readPlaces (size : ℕ) : List Place :=
  [512, 4096].flatMap fun sectorSize => ⟨sectorSize, sectorSize, false⟩ ::
    if sectorSize ≤ size then [⟨sectorSize, size - sectorSize, true⟩] else []

def readAtPlaces : List Place → Exec (Option Table)
  | [] => return none
  | place :: places => do
    match ← (parseGptAt b src place.sectorSize place.hdrOff).result with
    | some (partitions, diskGuid) => return some ⟨.gpt, partitions, place.backup, diskGuid⟩
    | none => readAtPlaces places

def readGpt : Exec (Option Table) := readAtPlaces b src (readPlaces src.size)

/-- The table of a source. The readers of the other tables come after that of a GPT. -/
def read (others : Exec Table) : Exec Table := do
  match ← readGpt b src with
  | some table => return table
  | none => others

end Read

section Detect

variable {V : Type} (prober : Prober V) (src : Source)

/-- A backup that would lie before the primary header is not tried. -/
def detectPlaces (size : ℕ) : List Place :=
  [512, 4096].flatMap fun sectorSize => ⟨sectorSize, sectorSize, false⟩ ::
    if sectorSize ≤ size ∧ sectorSize ≤ size - sectorSize then
      [⟨sectorSize, size - sectorSize, true⟩] else []

def detectAtPlaces : List Place → Run (List V)
  | [] => .stop (.ok none)
  | place :: places =>
    let r := detectGptAt prober src place.sectorSize place.hdrOff
    match r.result with
    | .ok none =>
      let rest := detectAtPlaces places
      ⟨r.slots ++ rest.slots, r.starts ++ rest.starts, rest.result⟩
    | _ => r

/-- The volumes of the first table, and the starts at which they were looked for. -/
def detectGpt : List ℕ × Exec (List V) :=
  let r := detectAtPlaces prober src (detectPlaces src.size)
  (r.starts, r.result.map (·.getD []))

end Detect

section Backup

variable {b : Build} {V : Type} {prober : Prober V} {src : Source} {partitions : List Partition}

/-- The header at a place can be read, and is refused for what is in it. -/
def Refused (src : Source) (place : Place) : Prop :=
  accepted src place.sectorSize place.hdrOff = none ∧
    ∃ hdr, src.readAt place.hdrOff 92 = .ok hdr

/-- The header at a place is accepted, and its slots can be read and hold these partitions. -/
structure Intact (src : Source) (place : Place) (partitions : List Partition) : Prop where
  accepted : ∃ h arrayStart, accepted src place.sectorSize place.hdrOff = some (h, arrayStart) ∧
    (walked src place.sectorSize place.hdrOff).entries.map (partitionOf place.sectorSize h.entrySize) =
      partitions
  readable : (walked src place.sectorSize place.hdrOff).failed = false
  fits : ∀ e ∈ (walked src place.sectorSize place.hdrOff).entries, EntryFits place.sectorSize e

/-- The table at a place is intact, and no read fails where its partitions start. -/
structure Describes (prober : Prober V) (src : Source) (place : Place) (partitions : List Partition) :
    Prop where
  intact : Intact src place partitions
  probed : ∀ e ∈ (walked src place.sectorSize place.hdrOff).entries, Probed place.sectorSize prober e

/-- The first header that is not refused describes these partitions. -/
def FirstDescribes (prober : Prober V) (src : Source) (partitions : List Partition) : List Place → Prop
  | [] => False
  | place :: places => Describes prober src place partitions ∨
      (Refused src place ∧ FirstDescribes prober src partitions places)

/-- The partitions are listed, and volumes are looked for at their starts and nowhere else. -/
structure Recovers (b : Build) (prober : Prober V) (src : Source) (others : Exec Table)
    (partitions : List Partition) : Prop where
  listed : ∃ table, read b src others = .ok table ∧ table.scheme = .gpt ∧
    table.partitions = partitions
  detected : ∃ volumes, (detectGpt prober src).2 = .ok volumes
  starts : ∀ s, s ∈ (detectGpt prober src).1 ↔ s ≠ 0 ∧ ∃ p ∈ partitions, p.start = s

theorem refused_readers (b : Build) (prober : Prober V) {place : Place} (h : Refused src place) :
    (parseGptAt b src place.sectorSize place.hdrOff).result = .ok none ∧
    detectGptAt prober src place.sectorSize place.hdrOff = .stop (.ok none) := by
  obtain ⟨hnone, hdr, hread⟩ := h
  obtain ⟨hparse, hdetect⟩ := refused_runs b prober hnone
  rw [hread] at hdetect
  exact ⟨by rw [hparse]; rfl, hdetect⟩

theorem mem_startsOf {sectorSize entrySize s : ℕ} (hpos : 0 < sectorSize) (entries : List (List UInt8)) :
    s ∈ startsOf sectorSize entries ↔
      s ≠ 0 ∧ ∃ p ∈ entries.map (partitionOf sectorSize entrySize), p.start = s := by
  simp only [startsOf, List.mem_map, List.mem_filter, decide_eq_true_eq]
  constructor
  · rintro ⟨e, ⟨he, hfirst⟩, rfl⟩
    exact ⟨Nat.mul_ne_zero hfirst (by omega), _, ⟨e, he, rfl⟩, rfl⟩
  · rintro ⟨hs, p, ⟨e, he, rfl⟩, rfl⟩
    exact ⟨e, ⟨he, fun hfirst => hs (by simp [partitionOf, describe, hfirst])⟩, rfl⟩

theorem intact_parse {place : Place} (h : Intact src place partitions) :
    ∃ diskGuid, (parseGptAt b src place.sectorSize place.hdrOff).result =
      .ok (some (partitions, diskGuid)) := by
  obtain ⟨⟨hd, arrayStart, ha, hparts⟩, hreadable, hfits⟩ := h
  have o := opened_of_accepted ha
  refine ⟨nonZeroGuid hd.diskGuid, ?_⟩
  rw [o.parse_fits hfits]
  dsimp only
  rw [hreadable, hparts]
  rfl

theorem describes_detect {place : Place} (hpos : 0 < place.sectorSize)
    (h : Describes prober src place partitions) :
    (∃ volumes, (detectGptAt prober src place.sectorSize place.hdrOff).result = .ok (some volumes)) ∧
    ∀ s, s ∈ (detectGptAt prober src place.sectorSize place.hdrOff).starts ↔
      s ≠ 0 ∧ ∃ p ∈ partitions, p.start = s := by
  obtain ⟨⟨⟨hd, arrayStart, ha, rfl⟩, hreadable, hfits⟩, hprobed⟩ := h
  have o := opened_of_accepted ha
  obtain ⟨volumes, heq⟩ := o.detect_probed fun e he => ⟨hfits e he, hprobed e he⟩
  rw [heq, hreadable]
  exact ⟨⟨volumes, rfl⟩, fun s => mem_startsOf hpos _⟩

/-- A header is refused, describes some partitions, or stops one of the readers. -/
theorem place_cases (prober : Prober V) (src : Source) (place : Place) :
    Refused src place ∨ (∃ partitions, Describes prober src place partitions) ∨
    (parseGptAt .debug src place.sectorSize place.hdrOff).result = .error .overflow ∨
    (detectGptAt prober src place.sectorSize place.hdrOff).result = .error .io := by
  cases ha : accepted src place.sectorSize place.hdrOff with
  | none =>
    cases hread : src.readAt place.hdrOff 92 with
    | ok hdr => exact .inl ⟨ha, hdr, hread⟩
    | error e =>
      right
      right
      right
      rw [(refused_runs .debug prober ha).2, hread, Source.readAt_error hread]
      rfl
  | some opened =>
    obtain ⟨hd, arrayStart⟩ := opened
    have o := opened_of_accepted ha
    right
    by_cases hfits : ∀ e ∈ (walked src place.sectorSize place.hdrOff).entries, EntryFits place.sectorSize e
    · by_cases hprobed : ∀ e ∈ (walked src place.sectorSize place.hdrOff).entries,
          Probed place.sectorSize prober e
      · by_cases hfailed : (walked src place.sectorSize place.hdrOff).failed = true
        · right
          right
          obtain ⟨volumes, heq⟩ := o.detect_probed fun e he => ⟨hfits e he, hprobed e he⟩
          rw [heq, hfailed]
          rfl
        · left
          exact ⟨_, ⟨⟨hd, arrayStart, ha, rfl⟩, by simpa using hfailed, hfits⟩, hprobed⟩
      · exact .inr (.inr (o.detect_unprobed hfits hprobed).1)
    · exact .inr (.inl (o.parse_wide hfits))

theorem readAtPlaces_some {place : Place} {places : List Place} {diskGuid : Option Text}
    (h : (parseGptAt b src place.sectorSize place.hdrOff).result = .ok (some (partitions, diskGuid))) :
    readAtPlaces b src (place :: places) = .ok (some ⟨.gpt, partitions, place.backup, diskGuid⟩) := by
  unfold readAtPlaces
  rw [h]
  rfl

theorem readAtPlaces_none {place : Place} {places : List Place}
    (h : (parseGptAt b src place.sectorSize place.hdrOff).result = .ok none) :
    readAtPlaces b src (place :: places) = readAtPlaces b src places := by
  rw [readAtPlaces, h]
  rfl

theorem detectAtPlaces_refused {place : Place} {places : List Place}
    (h : detectGptAt prober src place.sectorSize place.hdrOff = .stop (.ok none)) :
    detectAtPlaces prober src (place :: places) = detectAtPlaces prober src places := by
  rw [detectAtPlaces, h]
  rfl

theorem detectAtPlaces_stops {place : Place} (places : List Place)
    (h : (detectGptAt prober src place.sectorSize place.hdrOff).result ≠ .ok none) :
    detectAtPlaces prober src (place :: places) =
      detectGptAt prober src place.sectorSize place.hdrOff := by
  unfold detectAtPlaces
  dsimp only
  split
  · exact absurd ‹_› h
  · rfl

/-- What the readers find, place by place. -/
structure FoundAt (b : Build) (prober : Prober V) (src : Source) (read detect : List Place)
    (partitions : List Partition) : Prop where
  listed : ∃ table, readAtPlaces b src read = .ok (some table) ∧ table.scheme = .gpt ∧
    table.partitions = partitions
  detected : ∃ volumes, (detectAtPlaces prober src detect).result = .ok (some volumes)
  starts : ∀ s, s ∈ (detectAtPlaces prober src detect).starts ↔ s ≠ 0 ∧ ∃ p ∈ partitions, p.start = s

/-- Among places of which one is intact, the readers find its partitions exactly when the
first header that is not refused describes them. -/
theorem foundAt_iff {tried read detect : List Place} {place : Place} (hintact : Intact src place partitions)
    (hpos : ∀ p ∈ tried ++ [place], 0 < p.sectorSize) :
    (∀ b, FoundAt b prober src (tried ++ place :: read) (tried ++ place :: detect) partitions) ↔
      FirstDescribes prober src partitions (tried ++ [place]) := by
  induction tried with
  | nil =>
    simp only [List.nil_append] at hpos ⊢
    have haccepted : ¬ Refused src place := by
      rintro ⟨hnone, -⟩
      obtain ⟨hd, arrayStart, ha, -⟩ := hintact.accepted
      rw [hnone] at ha
      cases ha
    constructor
    · intro h
      left
      refine ⟨hintact, ?_⟩
      by_contra hunprobed
      obtain ⟨hd, arrayStart, ha, -⟩ := hintact.accepted
      have hio := ((opened_of_accepted ha).detect_unprobed hintact.fits hunprobed).1
      obtain ⟨volumes, hvolumes⟩ := (h .debug).detected
      rw [detectAtPlaces_stops _ (by rw [hio]; exact nofun), hio] at hvolumes
      cases hvolumes
    · rintro (h | ⟨hrefused, -⟩) b
      · obtain ⟨diskGuid, hparse⟩ := intact_parse (b := b) h.intact
        obtain ⟨⟨volumes, hvolumes⟩, hstarts⟩ := describes_detect (hpos place (List.mem_singleton_self _)) h
        have hdetect := detectAtPlaces_stops detect
          (show (detectGptAt prober src place.sectorSize place.hdrOff).result ≠ .ok none by
            rw [hvolumes]; exact nofun)
        refine ⟨⟨_, readAtPlaces_some hparse, rfl, rfl⟩, ⟨volumes, ?_⟩, fun s => ?_⟩
        · rw [hdetect, hvolumes]
        · rw [hdetect, hstarts]
      · exact absurd hrefused haccepted
  | cons first tried ih =>
    simp only [List.cons_append] at hpos ⊢
    have ih := ih fun p hp => hpos p (List.mem_cons_of_mem _ hp)
    have hrefused_iff : Refused src first →
        ((∀ b, FoundAt b prober src (first :: (tried ++ place :: read)) (first :: (tried ++ place :: detect))
          partitions) ↔ FirstDescribes prober src partitions (tried ++ [place])) := by
      intro hrefused
      rw [← ih]
      refine forall_congr' fun b => ?_
      obtain ⟨hparse, hdetect⟩ := refused_readers b prober hrefused
      constructor
      · rintro ⟨hlisted, hdetected, hstarts⟩
        rw [readAtPlaces_none hparse] at hlisted
        rw [detectAtPlaces_refused hdetect] at hdetected hstarts
        exact ⟨hlisted, hdetected, hstarts⟩
      · rintro ⟨hlisted, hdetected, hstarts⟩
        rw [← readAtPlaces_none hparse] at hlisted
        rw [← detectAtPlaces_refused hdetect] at hdetected hstarts
        exact ⟨hlisted, hdetected, hstarts⟩
    constructor
    · intro h
      obtain hrefused | ⟨partitions', hdescribes⟩ | hoverflow | hio := place_cases prober src first
      · exact .inr ⟨hrefused, (hrefused_iff hrefused).mp h⟩
      · obtain ⟨table, htable, -, hparts⟩ := (h .debug).listed
        obtain ⟨diskGuid, hparse⟩ := intact_parse (b := .debug) hdescribes.intact
        rw [readAtPlaces_some hparse] at htable
        cases htable
        subst hparts
        exact .inl hdescribes
      · obtain ⟨table, htable, -⟩ := (h .debug).listed
        unfold readAtPlaces at htable
        rw [hoverflow] at htable
        cases htable
      · obtain ⟨volumes, hvolumes⟩ := (h .debug).detected
        rw [detectAtPlaces_stops _ (by rw [hio]; exact nofun), hio] at hvolumes
        cases hvolumes
    · rintro (h | ⟨hrefused, hrest⟩)
      · intro b
        obtain ⟨diskGuid, hparse⟩ := intact_parse (b := b) h.intact
        obtain ⟨⟨volumes, hvolumes⟩, hstarts⟩ := describes_detect (hpos first (List.mem_cons_self ..)) h
        have hdetect := detectAtPlaces_stops (tried ++ place :: detect)
          (show (detectGptAt prober src first.sectorSize first.hdrOff).result ≠ .ok none by
            rw [hvolumes]; exact nofun)
        refine ⟨⟨_, readAtPlaces_some hparse, rfl, rfl⟩, ⟨volumes, ?_⟩, fun s => ?_⟩
        · rw [hdetect, hvolumes]
        · rw [hdetect, hstarts]
      · exact (hrefused_iff hrefused).mpr hrest

/-- The places that are tried before the backup header of a disk with sectors of this size. -/
def placesBefore (sectorSize size : ℕ) : List Place :=
  if sectorSize = 512 then [⟨512, 512, false⟩]
  else [⟨512, 512, false⟩, ⟨512, size - 512, true⟩, ⟨4096, 4096, false⟩]

theorem places_split {sectorSize size : ℕ} (hsector : sectorSize = 512 ∨ sectorSize = 4096)
    (hdisk : 2 * sectorSize ≤ size) :
    (∃ rest, readPlaces size =
      placesBefore sectorSize size ++ ⟨sectorSize, size - sectorSize, true⟩ :: rest) ∧
    ∃ rest, detectPlaces size =
      placesBefore sectorSize size ++ ⟨sectorSize, size - sectorSize, true⟩ :: rest := by
  have h512 : 512 ≤ size ∧ 512 ≤ size - 512 := by omega
  rcases hsector with rfl | rfl
  · constructor
    · refine ⟨⟨4096, 4096, false⟩ :: if 4096 ≤ size then [⟨4096, size - 4096, true⟩] else [], ?_⟩
      simp [readPlaces, placesBefore, h512.1]
    · refine ⟨⟨4096, 4096, false⟩ ::
        if 4096 ≤ size ∧ 4096 ≤ size - 4096 then [⟨4096, size - 4096, true⟩] else [], ?_⟩
      simp [detectPlaces, placesBefore, h512]
  · have h4096 : 4096 ≤ size ∧ 4096 ≤ size - 4096 := by omega
    constructor
    · refine ⟨[], ?_⟩
      simp [readPlaces, placesBefore, h512.1, h4096.1]
    · refine ⟨[], ?_⟩
      simp [detectPlaces, placesBefore, h512, h4096]

theorem placesBefore_pos {sectorSize size : ℕ} (hsector : sectorSize = 512 ∨ sectorSize = 4096) :
    ∀ p ∈ placesBefore sectorSize size ++ [⟨sectorSize, size - sectorSize, true⟩],
      0 < p.sectorSize := by
  rcases hsector with rfl | rfl <;> simp [placesBefore]

theorem read_some {others : Exec Table} {table : Table} (h : readGpt b src = .ok (some table)) :
    read b src others = .ok table := by
  unfold read
  rw [h]
  rfl

/-- A table that is found is the one that both readers of a disk settle on. -/
theorem recovers_of_foundAt (h : FoundAt b prober src (readPlaces src.size) (detectPlaces src.size) partitions)
    (others : Exec Table) : Recovers b prober src others partitions := by
  obtain ⟨⟨table, htable, hscheme, hparts⟩, ⟨volumes, hvolumes⟩, hstarts⟩ := h
  refine ⟨⟨table, read_some htable, hscheme, hparts⟩, ⟨volumes, ?_⟩, hstarts⟩
  unfold detectGpt
  dsimp only
  rw [hvolumes]
  rfl

/-- A detection that finds no table at all has refused every header. -/
theorem detectAtPlaces_none {places : List Place}
    (h : (detectAtPlaces prober src places).result = .ok none) {place : Place} (hplace : place ∈ places) :
    (detectGptAt prober src place.sectorSize place.hdrOff).result = .ok none := by
  induction places with
  | nil => cases hplace
  | cons first places ih =>
    by_cases hfirst : (detectGptAt prober src first.sectorSize first.hdrOff).result = .ok none
    · rcases List.mem_cons.mp hplace with rfl | hplace
      · exact hfirst
      · apply ih _ hplace
        unfold detectAtPlaces at h
        simpa only [hfirst] using h
    · rw [detectAtPlaces_stops places hfirst] at h
      exact absurd h hfirst

/-- A table that is read whatever the other readers return has been found at a place. -/
theorem foundAt_of_recovers {place : Place} (hplace : place ∈ detectPlaces src.size)
    (hintact : Intact src place partitions) (h : ∀ others, Recovers b prober src others partitions) :
    FoundAt b prober src (readPlaces src.size) (detectPlaces src.size) partitions := by
  obtain ⟨⟨table, htable, hscheme, hparts⟩, ⟨volumes, hvolumes⟩, hstarts⟩ := h (.error .io)
  refine ⟨⟨table, ?_, hscheme, hparts⟩, ?_, hstarts⟩
  · unfold read readGpt at htable
    cases hread : readAtPlaces b src (readPlaces src.size) with
    | error e =>
      rw [hread] at htable
      cases htable
    | ok found =>
      rw [hread] at htable
      cases found with
      | none => cases htable
      | some found =>
        cases htable
        rfl
  · unfold detectGpt at hvolumes
    dsimp only at hvolumes
    cases hresult : (detectAtPlaces prober src (detectPlaces src.size)).result with
    | error e =>
      rw [hresult] at hvolumes
      cases hvolumes
    | ok found =>
      cases found with
      | some volumes => exact ⟨volumes, rfl⟩
      | none =>
        -- The intact header is not refused, so that some volumes are returned there at the latest.
        have hnone := detectAtPlaces_none hresult hplace
        obtain ⟨hd, arrayStart, ha, -⟩ := hintact.accepted
        have o := opened_of_accepted ha
        by_cases hprobed : ∀ e ∈ (walked src place.sectorSize place.hdrOff).entries,
            Probed place.sectorSize prober e
        · obtain ⟨volumes, heq⟩ := o.detect_probed fun e he => ⟨hintact.fits e he, hprobed e he⟩
          rw [heq, hintact.readable] at hnone
          cases hnone
        · rw [(o.detect_unprobed hintact.fits hprobed).1] at hnone
          cases hnone

/-- On a disk whose backup is intact, its partitions are listed and looked at exactly when
the first header that is tried and not refused describes the same ones. -/
theorem backup_used_iff {sectorSize : ℕ} (hsector : sectorSize = 512 ∨ sectorSize = 4096)
    (hdisk : 2 * sectorSize ≤ src.size)
    (hintact : Intact src ⟨sectorSize, src.size - sectorSize, true⟩ partitions) :
    (∀ b others, Recovers b prober src others partitions) ↔
      FirstDescribes prober src partitions
        (placesBefore sectorSize src.size ++ [⟨sectorSize, src.size - sectorSize, true⟩]) := by
  obtain ⟨⟨read, hread⟩, detect, hdetect⟩ := places_split hsector hdisk
  have hfound : (∀ b, FoundAt b prober src (readPlaces src.size) (detectPlaces src.size) partitions) ↔
      FirstDescribes prober src partitions
        (placesBefore sectorSize src.size ++ [⟨sectorSize, src.size - sectorSize, true⟩]) := by
    rw [hread, hdetect]
    exact foundAt_iff hintact (placesBefore_pos hsector)
  have hplace : (⟨sectorSize, src.size - sectorSize, true⟩ : Place) ∈ detectPlaces src.size := by
    rw [hdetect]
    exact List.mem_append_right _ (List.mem_cons_self ..)
  rw [← hfound]
  constructor
  · exact fun h b => foundAt_of_recovers hplace hintact (h b)
  · exact fun h b others => recovers_of_foundAt (h b) others

/-- A sector with a header whose array of `n` entries begins at the third sector. -/
def headerSector (n : UInt8) : List UInt8 :=
  efiPart ++ List.replicate 64 0 ++ [2, 0, 0, 0, 0, 0, 0, 0] ++ [n, 0, 0, 0] ++ [128, 0, 0, 0] ++
    List.replicate 424 0

/-- An entry of one sector at the third one. -/
def usedEntry : List UInt8 :=
  List.replicate 32 1 ++ [2, 0, 0, 0, 0, 0, 0, 0] ++ [2, 0, 0, 0, 0, 0, 0, 0] ++ List.replicate 80 0

def entrySector : List UInt8 := usedEntry ++ List.replicate 384 0

/-- The primary header has its mark, and no entries. -/
def emptiedDisk : Source where
  data := List.replicate 512 0 ++ headerSector 0 ++ entrySector ++ headerSector 1
  size_lt := by decide +kernel

/-- The primary header is gone. -/
def wipedDisk : Source where
  data := List.replicate 1024 0 ++ entrySector ++ headerSector 1
  size_lt := by decide +kernel

theorem intact_backup (src : Source)
    (hheader : (accepted src 512 1536).map (fun h => (h.1.entrySize, h.2)) = some (128, 1024))
    (hentries : (walked src 512 1536).entries = [usedEntry])
    (hread : (walked src 512 1536).failed = false) :
    Intact src ⟨512, 1536, true⟩ [partitionOf 512 128 usedEntry] := by
  obtain ⟨⟨h, arrayStart⟩, ha, hfields⟩ := Option.map_eq_some_iff.mp hheader
  obtain ⟨hsize, -⟩ := Prod.mk.inj hfields
  refine ⟨⟨h, _, ha, ?_⟩, hread, ?_⟩
  · dsimp only at hsize ⊢
    rw [hentries, hsize]
    rfl
  · dsimp only
    rw [hentries]
    intro e he
    cases List.mem_singleton.mp he
    exact ⟨by decide +kernel, by decide +kernel⟩

/-- A primary header without entries hides the partition that an intact backup describes. -/
theorem emptied_primary_hides :
    Intact emptiedDisk ⟨512, emptiedDisk.size - 512, true⟩ [partitionOf 512 128 usedEntry] ∧
    read .release emptiedDisk (.error .io) = .ok ⟨.gpt, [], false, none⟩ ∧
    ¬ ∀ b others, Recovers b noVolumes emptiedDisk others [partitionOf 512 128 usedEntry] := by
  have hread : read .release emptiedDisk (.error .io) = .ok ⟨.gpt, [], false, none⟩ := by
    decide +kernel
  have hintact := intact_backup emptiedDisk (by decide +kernel) (by decide +kernel) (by decide +kernel)
  refine ⟨?_, hread, ?_⟩
  · rwa [show emptiedDisk.size = 2048 by decide +kernel]
  · intro h
    obtain ⟨table, htable, -, hparts⟩ := (h .release (.error .io)).listed
    rw [hread] at htable
    cases htable
    cases hparts

/-- A primary header that is gone is passed over. -/
theorem wiped_primary_recovered :
    Recovers .debug noVolumes wipedDisk (.error .io) [partitionOf 512 128 usedEntry] := by
  have hsize : wipedDisk.size = 2048 := by decide +kernel
  have hintact := intact_backup wipedDisk (by decide +kernel) (by decide +kernel) (by decide +kernel)
  have hbackup : Intact wipedDisk ⟨512, wipedDisk.size - 512, true⟩ [partitionOf 512 128 usedEntry] := by
    rwa [hsize]
  apply (backup_used_iff (.inl rfl) (by rw [hsize]; decide) hbackup).mpr
  right
  refine ⟨⟨by decide +kernel, window wipedDisk.data 512 92, by decide +kernel⟩, .inl ⟨hbackup, ?_⟩⟩
  exact fun e _ => .inr nofun

end Backup

end Unearth.Gpt
