import Unearth.ExtPointers

/-!
# Entries that were folded into their predecessors

The records of a directory block tile it. A deletion gives the space of a record to the one
before it and leaves the bytes of the record. The entries of such records are found again from
the lengths of the names, as long as each record is left exactly at the next one.
-/

namespace Unearth.Ext
open Bytes Word Loop Post Utf8 Lines Relation

/-- A record, with what pads its name. -/
structure DirRecord where
  ino : ℕ
  kind : UInt8
  name : List UInt8
  pad : List UInt8
  ino_lt : ino < 2 ^ 32
  name_le : name.length ≤ 255
  aligned : 4 ∣ 8 + name.length + pad.length

section Layout

variable (filetypeDirents : Bool)

/-- The bytes of the length of a name. -/
def nameWidth : ℕ := if filetypeDirents then 1 else 2

namespace DirRecord

variable (r : DirRecord)

def space : ℕ := 8 + r.name.length + r.pad.length

def entry : DirEntry := ⟨r.ino, fromUtf8Lossy r.name⟩

def lenField : List UInt8 := toLe (nameWidth filetypeDirents) r.name.length ++ if filetypeDirents then [r.kind] else []

def bytes (recLen : ℕ) : List UInt8 :=
  toLe 4 r.ino ++ toLe 2 recLen ++ r.lenField filetypeDirents ++ r.name ++ r.pad

theorem length_lenField : (r.lenField filetypeDirents).length = 2 := by
  unfold lenField nameWidth
  cases filetypeDirents <;> simp

theorem length_bytes (recLen : ℕ) : (r.bytes filetypeDirents recLen).length = r.space := by
  simp only [bytes, space, List.length_append, length_toLe, r.length_lenField]

end DirRecord

/-- The bytes of padding through which the steps of the scan get to the end of it. -/
inductive Crosses : List UInt8 → Prop
  | nil : Crosses []
  | step {l : List UInt8} (header : 8 ≤ l.length)
      (fits : round8 (8 + le (window l 6 (nameWidth filetypeDirents))) ≤ l.length)
      (rest : Crosses (l.drop (round8 (8 + le (window l 6 (nameWidth filetypeDirents)))))) : Crosses l

/-- The scan gets from a record to the one behind it. -/
def Crossed (r : DirRecord) : Prop :=
  round8 (8 + r.name.length) ≤ r.space ∧
    Crosses filetypeDirents (r.pad.drop (round8 (8 + r.name.length) - (8 + r.name.length)))

/-- A live record, with the records that were folded into it and the lengths that they had then. -/
structure Cell where
  head : DirRecord
  folded : List (DirRecord × ℕ)

namespace Cell

variable (g d : Cell)

def records : List DirRecord := g.head :: g.folded.map Prod.fst

def total : ℕ := g.head.space + (g.folded.map fun f => f.1.space).sum

theorem records_ne_nil : g.records ≠ [] := List.cons_ne_nil _ _

def last : DirRecord := g.records.getLast g.records_ne_nil

def absorb : Cell := ⟨g.head, g.folded ++ (d.head, d.total) :: d.folded⟩

/-- The records with the lengths that are stored in them. -/
def stored : List (DirRecord × ℕ) := (g.head, g.total) :: g.folded

def bytes : List UInt8 := g.stored.flatMap fun f => f.1.bytes filetypeDirents f.2

end Cell

/-- A block as it is written: the records tile it, and no record takes the space of another. -/
structure Tiled (blockSize : ℕ) (cells : List Cell) : Prop where
  unfolded : ∀ g ∈ cells, g.folded = []
  sizes : ∀ g ∈ cells, g.total < 2 ^ 16
  total : (cells.map Cell.total).sum = blockSize

/-- The deletion of a record, whose space goes to its predecessor. The condition is one on the record
that the deleted one is right behind. -/
inductive Fold (C : DirRecord → Prop) : List Cell → List Cell → Prop
  | fold {before after : List Cell} {g d : Cell} (size : g.total + d.total < 2 ^ 16) (before_deleted : C g.last) :
      Fold C (before ++ g :: d :: after) (before ++ g.absorb d :: after)

def blockBytes (cells : List Cell) : List UInt8 := cells.flatMap (Cell.bytes filetypeDirents)

end Layout

section Scan

variable {filetypeDirents : Bool} {data : List UInt8} {limit : ℕ}

theorem round8_bounds (n : ℕ) : n ≤ round8 n ∧ round8 n < n + 8 := by
  unfold round8 divCeil
  omega

variable (filetypeDirents data) in
def nameLenAt (pos : ℕ) : ℕ := le (window data (pos + 6) (nameWidth filetypeDirents))

variable (filetypeDirents data limit) in
/-- What is found at a place. -/
def entryAt (pos : ℕ) : List DirEntry :=
  if le (window data pos 4) ≠ 0 ∧ 0 < nameLenAt filetypeDirents data pos ∧
      pos + 8 + nameLenAt filetypeDirents data pos ≤ limit then
    [⟨le (window data pos 4), fromUtf8Lossy (window data (pos + 8) (nameLenAt filetypeDirents data pos))⟩]
  else []

variable (filetypeDirents data) in
def stepAt (first : Bool) (pos : ℕ) : ℕ :=
  let real := round8 (8 + nameLenAt filetypeDirents data pos)
  if first then min real (max (le (window data (pos + 4) 2)) 8) else real

theorem readEntry_eq {s : Slot} (hpos : s.pos + 8 ≤ limit) (hlimit : limit ≤ data.length) :
    readEntry filetypeDirents data limit s =
      .ok (entryAt filetypeDirents data limit s.pos, stepAt filetypeDirents data s.first s.pos) := by
  have hwidth : nameWidth filetypeDirents ≤ 2 := by
    unfold nameWidth
    split <;> decide
  have hname : field data (s.pos + 6) (if filetypeDirents = true then 1 else 2) =
      .ok (nameLenAt filetypeDirents data s.pos) := field_eq (by rw [nameWidth] at hwidth; omega)
  unfold readEntry entryAt
  rw [field_eq (by omega), exec_ok_bind, hname, exec_ok_bind, field_eq (by omega), exec_ok_bind]
  by_cases h : le (window data s.pos 4) ≠ 0 ∧ 0 < nameLenAt filetypeDirents data s.pos ∧
      s.pos + 8 + nameLenAt filetypeDirents data s.pos ≤ limit
  · rw [if_pos h, if_pos h, slice_eq (by omega), exec_ok_bind]
    rfl
  · rw [if_neg h, if_neg h]
    rfl

variable (filetypeDirents data) in
theorem le_stepAt (first : Bool) (pos : ℕ) : 8 ≤ stepAt filetypeDirents data first pos := by
  have hround := round8_bounds (8 + nameLenAt filetypeDirents data pos)
  unfold stepAt
  dsimp only
  split <;> omega

variable (filetypeDirents) in
theorem scan_next {s : Slot} (hpos : s.pos + 8 ≤ limit) (hlimit : limit ≤ data.length) :
    (direntLoop filetypeDirents data limit).body s =
      .next ⟨s.pos + stepAt filetypeDirents data s.first s.pos, false,
        s.entries ++ entryAt filetypeDirents data limit s.pos⟩ := by
  have hstep := le_stepAt filetypeDirents data s.first s.pos
  change direntStep filetypeDirents data limit s = _
  unfold direntStep
  rw [if_neg (by omega), readEntry_eq hpos hlimit]
  dsimp only
  rw [if_neg (by omega)]

variable (filetypeDirents) in
/-- The scan keeps what it found. -/
theorem scan_keeps (hlimit : limit ≤ data.length) (s : Slot) :
    ∃ out, (direntLoop filetypeDirents data limit).eval s = .ok out ∧ s.entries <+: out := by
  induction s using (direntLoop filetypeDirents data limit).induct with
  | step s ih =>
    by_cases hend : limit < s.pos + 8
    · have hdone : (direntLoop filetypeDirents data limit).body s = .done (.ok s.entries) := if_pos hend
      exact ⟨s.entries, (direntLoop filetypeDirents data limit).eval_done hdone, List.prefix_rfl⟩
    · have hnext := scan_next filetypeDirents (not_lt.mp hend) hlimit
      obtain ⟨out, hout, hprefix⟩ := ih _ hnext
      rw [(direntLoop filetypeDirents data limit).eval_next hnext]
      exact ⟨out, hout, (List.prefix_append _ _).trans hprefix⟩

/-- The steps through padding lead to the end of it. -/
theorem scan_crosses {l : List UInt8} (h : Crosses filetypeDirents l) {pre post : List UInt8}
    (hdata : data = pre ++ l ++ post) (hin : pre.length + l.length ≤ limit) (hlimit : limit ≤ data.length)
    (entries : List DirEntry) :
    ∃ more, (direntLoop filetypeDirents data limit).eval ⟨pre.length, false, entries⟩ =
      (direntLoop filetypeDirents data limit).eval ⟨pre.length + l.length, false, entries ++ more⟩ := by
  induction h generalizing pre entries with
  | nil => exact ⟨[], by rw [List.length_nil, Nat.add_zero, List.append_nil]⟩
  | @step l header fits rest ih =>
    have hwidth : nameWidth filetypeDirents ≤ 2 := by
      unfold nameWidth
      split <;> decide
    have hname : nameLenAt filetypeDirents data pre.length = le (window l 6 (nameWidth filetypeDirents)) := by
      rw [nameLenAt, hdata, List.append_assoc, window_behind rfl (by omega), Nat.add_sub_cancel_left,
        window_within rfl (by omega)]
    have hstep : stepAt filetypeDirents data false pre.length =
        round8 (8 + le (window l 6 (nameWidth filetypeDirents))) := by
      rw [stepAt, hname]
      rfl
    generalize round8 (8 + le (window l 6 (nameWidth filetypeDirents))) = k at fits rest ih hstep
    have hdata' : data = (pre ++ l.take k) ++ l.drop k ++ post := by
      rw [List.append_assoc pre, List.take_append_drop, hdata]
    have hlen : (pre ++ l.take k).length = pre.length + k := by
      rw [List.length_append, List.length_take, Nat.min_eq_left fits]
    have hlen' : (pre ++ l.take k).length + (l.drop k).length = pre.length + l.length := by
      rw [hlen, List.length_drop]
      omega
    have hnext := scan_next filetypeDirents (s := ⟨pre.length, false, entries⟩)
      (show pre.length + 8 ≤ limit by omega) hlimit
    obtain ⟨more, hmore⟩ := ih hdata' (by omega) (entries ++ entryAt filetypeDirents data limit pre.length)
    refine ⟨entryAt filetypeDirents data limit pre.length ++ more, ?_⟩
    rw [(direntLoop filetypeDirents data limit).eval_next hnext]
    dsimp only
    rw [hstep, ← hlen, hmore, hlen', List.append_assoc]

theorem window_part {a b c : List UInt8} {off n : ℕ} (hdata : data = a ++ b ++ c) (ha : a.length = off)
    (hb : b.length = n) : window data off n = b := by
  subst hdata ha hb
  exact window_append a b c

/-- What is read at the place of a record. -/
theorem record_read (r : DirRecord) {k : ℕ} (hk : k < 2 ^ 16) {pre post : List UInt8}
    (hdata : data = pre ++ r.bytes filetypeDirents k ++ post) :
    le (window data pre.length 4) = r.ino ∧ le (window data (pre.length + 4) 2) = k ∧
      nameLenAt filetypeDirents data pre.length = r.name.length ∧
      window data (pre.length + 8) r.name.length = r.name := by
  have hname := r.name_le
  have hlenField := r.length_lenField filetypeDirents
  have hwidth : r.name.length < 256 ^ nameWidth filetypeDirents := by
    unfold nameWidth
    split <;> omega
  unfold DirRecord.bytes at hdata
  refine ⟨?_, ?_, ?_, ?_⟩
  · rw [window_part (a := pre) (b := toLe 4 r.ino) (by simpa only [List.append_assoc] using hdata) rfl
      (length_toLe 4 r.ino)]
    exact le_toLe r.ino_lt
  · rw [window_part (a := pre ++ toLe 4 r.ino) (b := toLe 2 k) (by simpa only [List.append_assoc] using hdata)
      (by simp) (length_toLe 2 k)]
    exact le_toLe hk
  · rw [nameLenAt, window_part (a := pre ++ toLe 4 r.ino ++ toLe 2 k)
      (b := toLe (nameWidth filetypeDirents) r.name.length)
      (by simpa only [List.append_assoc, DirRecord.lenField] using hdata) (by simp) (length_toLe _ _)]
    exact le_toLe hwidth
  · exact window_part (a := pre ++ toLe 4 r.ino ++ toLe 2 k ++ r.lenField filetypeDirents)
      (by simpa only [List.append_assoc] using hdata) (by simp [hlenField]) rfl

/-- A record is found at its place. -/
theorem entryAt_record (r : DirRecord) {k : ℕ} (hk : k < 2 ^ 16) {pre post : List UInt8}
    (hdata : data = pre ++ r.bytes filetypeDirents k ++ post) (hin : pre.length + r.space ≤ limit) (hino : r.ino ≠ 0)
    (hname : r.name ≠ []) : entryAt filetypeDirents data limit pre.length = [r.entry] := by
  obtain ⟨hreadIno, -, hreadLen, hreadName⟩ := record_read r hk hdata
  have hpos := List.length_pos_of_ne_nil hname
  unfold DirRecord.space at hin
  unfold entryAt
  rw [hreadLen, hreadIno, hreadName, if_pos ⟨hino, hpos, by omega⟩]
  rfl

/-- The step from a record is that of its name, unless the space of a live one is less. -/
theorem stepAt_record (r : DirRecord) {k : ℕ} (hk : k < 2 ^ 16) {pre post : List UInt8}
    (hdata : data = pre ++ r.bytes filetypeDirents k ++ post) {first : Bool}
    (hfirst : first = true → round8 (8 + r.name.length) ≤ k) :
    stepAt filetypeDirents data first pre.length = round8 (8 + r.name.length) := by
  obtain ⟨-, hreadRec, hreadLen, -⟩ := record_read r hk hdata
  unfold stepAt
  rw [hreadLen, hreadRec]
  cases first with
  | false => rfl
  | true => exact min_eq_left ((hfirst rfl).trans (le_max_left k 8))

/-- The scan gets from a record to the place behind it. -/
theorem scan_crossed {r : DirRecord} (hr : Crossed filetypeDirents r) {k : ℕ} {pre post : List UInt8}
    (hdata : data = pre ++ r.bytes filetypeDirents k ++ post) (hin : pre.length + r.space ≤ limit)
    (hlimit : limit ≤ data.length) (entries : List DirEntry) :
    ∃ more, (direntLoop filetypeDirents data limit).eval
        ⟨pre.length + round8 (8 + r.name.length), false, entries⟩ =
      (direntLoop filetypeDirents data limit).eval ⟨pre.length + r.space, false, entries ++ more⟩ := by
  have hround := round8_bounds (8 + r.name.length)
  obtain ⟨hspace, hcross⟩ := hr
  have hlenField := r.length_lenField filetypeDirents
  have hfit : round8 (8 + r.name.length) - (8 + r.name.length) ≤ r.pad.length := by
    unfold DirRecord.space at hspace
    omega
  have hheader : (pre ++ (toLe 4 r.ino ++ toLe 2 k ++ r.lenField filetypeDirents ++ r.name ++
      r.pad.take (round8 (8 + r.name.length) - (8 + r.name.length)))).length =
        pre.length + round8 (8 + r.name.length) := by
    simp only [List.length_append, length_toLe, hlenField, List.length_take, Nat.min_eq_left hfit]
    omega
  have hrest : pre.length + round8 (8 + r.name.length) +
      (r.pad.drop (round8 (8 + r.name.length) - (8 + r.name.length))).length = pre.length + r.space := by
    rw [List.length_drop, DirRecord.space]
    omega
  have hdata' : data = pre ++ (toLe 4 r.ino ++ toLe 2 k ++ r.lenField filetypeDirents ++ r.name ++
      r.pad.take (round8 (8 + r.name.length) - (8 + r.name.length))) ++
        r.pad.drop (round8 (8 + r.name.length) - (8 + r.name.length)) ++ post := by
    rw [hdata, DirRecord.bytes]
    simp only [List.append_assoc]
    rw [← List.append_assoc (r.pad.take _), List.take_append_drop]
  obtain ⟨more, hmore⟩ := scan_crosses hcross hdata' (by omega) hlimit entries
  rw [hheader, hrest] at hmore
  exact ⟨more, hmore⟩

/-- The scan from a record on finds it and the records behind it, as long as it gets from each to the next. -/
theorem scan_records {records : List (DirRecord × ℕ)} {first : Bool}
    (hcrossed : ∀ f ∈ records.dropLast, Crossed filetypeDirents f.1) (hsizes : ∀ f ∈ records, f.2 < 2 ^ 16)
    (hfirst : first = true → ∀ f ∈ records.head?, f.1.space ≤ f.2) {pre post : List UInt8}
    (hdata : data = pre ++ (records.flatMap fun f => f.1.bytes filetypeDirents f.2) ++ post)
    (hin : pre.length + (records.map fun f => f.1.space).sum ≤ limit) (hlimit : limit ≤ data.length)
    (entries : List DirEntry) :
    ∃ out, (direntLoop filetypeDirents data limit).eval ⟨pre.length, first, entries⟩ = .ok out ∧ entries <+: out ∧
      ∀ f ∈ records, f.1.ino ≠ 0 → f.1.name ≠ [] → f.1.entry ∈ out := by
  induction records generalizing first pre entries with
  | nil =>
    obtain ⟨out, hout, hprefix⟩ := scan_keeps filetypeDirents hlimit ⟨pre.length, first, entries⟩
    exact ⟨out, hout, hprefix, fun f hf => absurd hf List.not_mem_nil⟩
  | cons f records ih =>
    obtain ⟨hk, hsizes⟩ := List.forall_mem_cons.mp hsizes
    rw [List.map_cons, List.sum_cons] at hin
    rw [List.flatMap_cons] at hdata
    have hat : data = pre ++ f.1.bytes filetypeDirents f.2 ++
        ((records.flatMap fun f => f.1.bytes filetypeDirents f.2) ++ post) := by
      simpa only [List.append_assoc] using hdata
    have hspace : 8 ≤ f.1.space := by
      unfold DirRecord.space
      omega
    have hnext := scan_next filetypeDirents (s := ⟨pre.length, first, entries⟩)
      (show pre.length + 8 ≤ limit by omega) hlimit
    rw [(direntLoop filetypeDirents data limit).eval_next hnext]
    dsimp only
    have hfound : ∀ out, entries ++ entryAt filetypeDirents data limit pre.length <+: out →
        f.1.ino ≠ 0 → f.1.name ≠ [] → f.1.entry ∈ out := by
      intro out hprefix hino hname
      rw [entryAt_record f.1 hk hat (by omega) hino hname] at hprefix
      exact hprefix.subset (List.mem_append_right entries List.mem_cons_self)
    cases records with
    | nil =>
      obtain ⟨out, hout, hprefix⟩ := scan_keeps filetypeDirents hlimit
        ⟨pre.length + stepAt filetypeDirents data first pre.length, false,
          entries ++ entryAt filetypeDirents data limit pre.length⟩
      refine ⟨out, hout, (List.prefix_append _ _).trans hprefix, fun e he => ?_⟩
      rw [List.mem_singleton.mp he]
      exact hfound out hprefix
    | cons f' rest =>
      obtain ⟨hf, hcrossed⟩ := List.forall_mem_cons.mp hcrossed
      have hstep := stepAt_record f.1 hk hat fun h => hf.1.trans (hfirst h f rfl)
      obtain ⟨more, hmore⟩ := scan_crossed hf hat (by omega) hlimit
        (entries ++ entryAt filetypeDirents data limit pre.length)
      have hlen : (pre ++ f.1.bytes filetypeDirents f.2).length = pre.length + f.1.space := by
        rw [List.length_append, f.1.length_bytes]
      have hdata' : data = (pre ++ f.1.bytes filetypeDirents f.2) ++
          ((f' :: rest).flatMap fun f => f.1.bytes filetypeDirents f.2) ++ post := by
        simpa only [List.append_assoc] using hdata
      have hstale : false = true → ∀ e ∈ (f' :: rest).head?, e.1.space ≤ e.2 := fun h => (by cases h)
      obtain ⟨out, hout, hprefix, hrest⟩ := ih hcrossed hsizes hstale hdata' (by rw [hlen]; omega)
        (entries ++ entryAt filetypeDirents data limit pre.length ++ more)
      rw [hlen] at hout
      refine ⟨out, by rw [hstep, hmore, hout], ?_, fun e he => ?_⟩
      · exact ((List.prefix_append _ _).trans (List.prefix_append _ _)).trans hprefix
      · rcases List.mem_cons.mp he with rfl | he
        · exact hfound out ((List.prefix_append _ _).trans hprefix)
        · exact hrest e he

end Scan

section Blocks

variable {filetypeDirents : Bool}

namespace Cell

variable {g d : Cell}

theorem records_absorb (g d : Cell) : (g.absorb d).records = g.records ++ d.records := by
  simp [absorb, records]

theorem total_absorb (g d : Cell) : (g.absorb d).total = g.total + d.total := by
  simp only [absorb, total, List.map_append, List.map_cons, List.sum_append, List.sum_cons]
  omega

/-- What keeps every record of a cell in reach of the scan. -/
structure Sound (filetypeDirents : Bool) (g : Cell) : Prop where
  crossed : ∀ r ∈ g.records.dropLast, Crossed filetypeDirents r
  size : g.total < 2 ^ 16
  stale : ∀ f ∈ g.folded, f.2 < 2 ^ 16

theorem Sound.absorb (hg : g.Sound filetypeDirents) (hd : d.Sound filetypeDirents)
    (hlast : Crossed filetypeDirents g.last) (hsize : g.total + d.total < 2 ^ 16) :
    (g.absorb d).Sound filetypeDirents where
  crossed := by
    intro r hr
    rw [records_absorb, List.dropLast_append_of_ne_nil (records_ne_nil d)] at hr
    rcases List.mem_append.mp hr with hr | hr
    · rw [← List.dropLast_append_getLast (records_ne_nil g)] at hr
      rcases List.mem_append.mp hr with hr | hr
      · exact hg.crossed r hr
      · rw [List.mem_singleton.mp hr]
        exact hlast
    · exact hd.crossed r hr
  size := by rwa [total_absorb]
  stale := by
    intro f hf
    rcases List.mem_append.mp hf with hf | hf
    · exact hg.stale f hf
    · rcases List.mem_cons.mp hf with rfl | hf
      · exact hd.size
      · exact hd.stale f hf

end Cell

/-- What a deletion keeps of a block. -/
structure Scannable (filetypeDirents : Bool) (blockSize : ℕ) (cells : List Cell) : Prop where
  sound : ∀ g ∈ cells, g.Sound filetypeDirents
  total : (cells.map Cell.total).sum = blockSize

theorem Tiled.scannable {blockSize : ℕ} {cells : List Cell} (h : Tiled blockSize cells) :
    Scannable filetypeDirents blockSize cells where
  sound := by
    intro g hg
    have hnone := h.unfolded g hg
    refine ⟨?_, h.sizes g hg, ?_⟩
    · simp [Cell.records, hnone]
    · simp [hnone]
  total := h.total

theorem Fold.scannable {blockSize : ℕ} {cells cells' : List Cell} (hfold : Fold (Crossed filetypeDirents) cells cells')
    (h : Scannable filetypeDirents blockSize cells) : Scannable filetypeDirents blockSize cells' := by
  obtain ⟨hsize, hlast⟩ := hfold
  rename_i before after g d
  have hg := h.sound g (by simp)
  have hd := h.sound d (by simp)
  refine ⟨fun c hc => ?_, ?_⟩
  · rcases List.mem_append.mp hc with hc | hc
    · exact h.sound c (List.mem_append_left _ hc)
    · rcases List.mem_cons.mp hc with rfl | hc
      · exact hg.absorb hd hlast hsize
      · exact h.sound c (by simp [hc])
  · have htotal := h.total
    simp only [List.map_append, List.map_cons, List.sum_append, List.sum_cons, Cell.total_absorb] at htotal ⊢
    omega

theorem length_stored (records : List (DirRecord × ℕ)) :
    (records.flatMap fun f => f.1.bytes filetypeDirents f.2).length = (records.map fun f => f.1.space).sum := by
  rw [List.length_flatMap]
  exact congrArg List.sum (List.map_congr_left fun f _ => f.1.length_bytes filetypeDirents f.2)

namespace Cell

variable (g : Cell)

theorem length_bytes : (g.bytes filetypeDirents).length = g.total := length_stored g.stored

theorem eight_le_total : 8 ≤ g.total := by
  unfold total DirRecord.space
  omega

end Cell

variable {data : List UInt8}

/-- The records of a cell are found. -/
theorem cell_scanned {g : Cell} (hg : g.Sound filetypeDirents) {pre post : List UInt8}
    (hdata : data = pre ++ g.bytes filetypeDirents ++ post) :
    ∃ out, (direntLoop filetypeDirents data (pre.length + g.total)).eval ⟨pre.length, true, []⟩ = .ok out ∧
      ∀ r ∈ g.records, r.ino ≠ 0 → r.name ≠ [] → r.entry ∈ out := by
  have hlimit : pre.length + g.total ≤ data.length := by
    rw [hdata, List.length_append, List.length_append, g.length_bytes]
    omega
  have hrecords : g.stored.map Prod.fst = g.records := rfl
  have hcrossed : ∀ f ∈ g.stored.dropLast, Crossed filetypeDirents f.1 := by
    intro f hf
    apply hg.crossed
    rw [← hrecords, ← List.map_dropLast]
    exact List.mem_map_of_mem hf
  have hsizes : ∀ f ∈ g.stored, f.2 < 2 ^ 16 := List.forall_mem_cons.mpr ⟨hg.size, hg.stale⟩
  have hfirst : true = true → ∀ f ∈ g.stored.head?, f.1.space ≤ f.2 := by
    intro _ f hf
    cases hf
    exact Nat.le_add_right _ _
  obtain ⟨out, hout, -, hfound⟩ := scan_records hcrossed hsizes hfirst hdata (le_refl (pre.length + g.total)) hlimit []
  refine ⟨out, hout, fun r hr => ?_⟩
  rw [← hrecords] at hr
  obtain ⟨f, hf, rfl⟩ := List.mem_map.mp hr
  exact hfound f hf

/-- The records of a row of cells are found. -/
theorem cells_scanned {cells : List Cell} (hcells : ∀ g ∈ cells, g.Sound filetypeDirents) {pre post : List UInt8}
    (hdata : data = pre ++ blockBytes filetypeDirents cells ++ post) (entries : List DirEntry) :
    ∃ out, (recordLoop filetypeDirents data (pre.length + (cells.map Cell.total).sum)).eval (pre.length, entries) =
        .ok out ∧ entries <+: out ∧
      ∀ g ∈ cells, ∀ r ∈ g.records, r.ino ≠ 0 → r.name ≠ [] → r.entry ∈ out := by
  generalize hend : pre.length + (cells.map Cell.total).sum = blockEnd
  induction cells generalizing pre entries with
  | nil =>
    have hdone : (recordLoop filetypeDirents data blockEnd).body (pre.length, entries) = .done (.ok entries) := by
      refine if_pos ?_
      dsimp only
      rw [List.map_nil, List.sum_nil] at hend
      omega
    exact ⟨entries, (recordLoop filetypeDirents data blockEnd).eval_done hdone, List.prefix_rfl,
      fun g hg => absurd hg List.not_mem_nil⟩
  | cons g cells ih =>
    obtain ⟨hg, hcells⟩ := List.forall_mem_cons.mp hcells
    rw [List.map_cons, List.sum_cons] at hend
    rw [blockBytes, List.flatMap_cons] at hdata
    have hcell : data = pre ++ g.bytes filetypeDirents ++ (blockBytes filetypeDirents cells ++ post) := by
      simpa only [blockBytes, List.append_assoc] using hdata
    have hhead : data = pre ++ g.head.bytes filetypeDirents g.total ++
        (g.folded.flatMap (fun f => f.1.bytes filetypeDirents f.2) ++ (blockBytes filetypeDirents cells ++ post)) := by
      simpa only [Cell.bytes, Cell.stored, List.flatMap_cons, List.append_assoc] using hcell
    have height := g.eight_le_total
    have hlen : (pre ++ g.bytes filetypeDirents).length = pre.length + g.total := by
      rw [List.length_append, g.length_bytes]
    have hlimit : pre.length + g.total ≤ data.length := by
      rw [hcell, List.length_append, hlen]
      omega
    obtain ⟨found, hfound, hin⟩ := cell_scanned hg hcell
    have hnext : (recordLoop filetypeDirents data blockEnd).body (pre.length, entries) =
        .next (pre.length + g.total, entries ++ found) := by
      change recordStep filetypeDirents data blockEnd _ = _
      unfold recordStep
      dsimp only
      rw [if_neg (by omega), field_eq (by omega), (record_read g.head hg.size hhead).2.1]
      dsimp only
      rw [if_neg (by omega), hfound]
    have hrest : data = (pre ++ g.bytes filetypeDirents) ++ blockBytes filetypeDirents cells ++ post := by
      simpa only [List.append_assoc] using hcell
    obtain ⟨out, hout, hprefix, hall⟩ := ih hcells hrest (entries ++ found) (by rw [hlen]; omega)
    rw [hlen] at hout
    refine ⟨out, ?_, (List.prefix_append _ _).trans hprefix, ?_⟩
    · rw [(recordLoop filetypeDirents data blockEnd).eval_next hnext, hout]
    · refine List.forall_mem_cons.mpr ⟨fun r hr hino hname => ?_, hall⟩
      exact hprefix.subset (List.mem_append_right entries (hin r hr hino hname))

/-- The records of a block are found. -/
theorem block_scanned {blockSize : ℕ} (hsize : 0 < blockSize) {cells : List Cell}
    (h : Scannable filetypeDirents blockSize cells) :
    ∃ entries, parseDirBlock filetypeDirents (blockBytes filetypeDirents cells) blockSize = .ok entries ∧
      ∀ g ∈ cells, ∀ r ∈ g.records, r.ino ≠ 0 → r.name ≠ [] → r.entry ∈ entries := by
  have hlen : (blockBytes filetypeDirents cells).length = blockSize := by
    rw [← h.total, blockBytes, List.length_flatMap]
    exact congrArg List.sum (List.map_congr_left fun g _ => g.length_bytes)
  have hone : divCeil blockSize blockSize = 1 := by
    rw [divCeil, Nat.add_sub_assoc hsize, Nat.add_div_left _ hsize, Nat.div_eq_of_lt (by omega)]
  have hdata : blockBytes filetypeDirents cells = [] ++ blockBytes filetypeDirents cells ++ [] := by
    rw [List.nil_append, List.append_nil]
  obtain ⟨out, hout, -, hall⟩ := cells_scanned h.sound hdata []
  rw [h.total, List.length_nil] at hout
  refine ⟨out, ?_, hall⟩
  have hmin : min (0 * blockSize + blockSize) blockSize = 0 + blockSize := by omega
  rw [parseDirBlock, hlen, hone, List.range_one, List.foldlM_cons]
  dsimp only
  rw [hmin, Nat.zero_mul, hout]
  rfl

/-- Every record of a block is found after any deletions, each of a record that the scan gets to from
the one before it; and no bytes stop the scan. -/
theorem folded_returned (v : Volume) :
    (∀ data, ∃ entries, parseDirBlock v.filetypeDirents data v.blockSize = .ok entries) ∧
      ∀ cells cells', Tiled v.blockSize cells →
        ReflTransGen (Fold (Crossed v.filetypeDirents)) cells cells' →
          ∃ entries, parseDirBlock v.filetypeDirents (blockBytes v.filetypeDirents cells') v.blockSize = .ok entries ∧
            ∀ g ∈ cells', ∀ r ∈ g.records, r.ino ≠ 0 → r.name ≠ [] → ⟨r.ino, fromUtf8Lossy r.name⟩ ∈ entries := by
  have hsize := v.block_ge
  refine ⟨fun data => ?_, fun cells cells' htiled hrun => ?_⟩
  · obtain ⟨entries, hentries, -⟩ := (safe_parseDirBlock v.filetypeDirents data v.blockSize).exists_ok
    exact ⟨entries, hentries⟩
  · have hscannable : Scannable v.filetypeDirents v.blockSize cells' := by
      induction hrun with
      | refl => exact htiled.scannable
      | tail _ hfold ih => exact hfold.scannable ih
    exact block_scanned (by omega) hscannable

end Blocks

section Skipped

/-- The first records of a directory. -/
def dotRecord : DirRecord where
  ino := 8002
  kind := 0
  name := [0x2E]
  pad := [0, 0, 0]
  ino_lt := by decide
  name_le := by decide
  aligned := by decide

def parentRecord : DirRecord where
  ino := 8003
  kind := 0
  name := [0x2E, 0x2E]
  pad := [0, 0]
  ino_lt := by decide
  name_le := by decide
  aligned := by decide

/-- A file of a name of one letter, in as little space as it needs. -/
def shortRecord : DirRecord where
  ino := 8011
  kind := 0
  name := [0x61]
  pad := [0, 0, 0]
  ino_lt := by decide
  name_le := by decide
  aligned := by decide

/-- A file of a name of one letter, as often as a name can have it. -/
def longRecord (letter : UInt8) : DirRecord where
  ino := 8012
  kind := 0
  name := List.replicate 255 letter
  pad := [0]
  ino_lt := by decide
  name_le := by rw [List.length_replicate]
  aligned := by
    rw [List.length_replicate]
    decide

/-- A file whose name takes what is left of the block. -/
def fillRecord (n : ℕ) (le : n ≤ 255) (four : 4 ∣ 8 + n) : DirRecord where
  ino := 8013
  kind := 0
  name := List.replicate n 0x66
  pad := []
  ino_lt := by decide
  name_le := by rwa [List.length_replicate]
  aligned := by rwa [List.length_replicate]

/-- The last records of the directory. -/
def restCells (n : ℕ) (le : n ≤ 255) (four : 4 ∣ 8 + n) : List Cell :=
  [⟨longRecord 0x62, []⟩, ⟨longRecord 0x63, []⟩, ⟨longRecord 0x64, []⟩, ⟨fillRecord n le four, []⟩]

def writtenCells : List Cell :=
  [⟨dotRecord, []⟩, ⟨parentRecord, []⟩, ⟨shortRecord, []⟩] ++ restCells 188 (by decide) (by decide)

def foldedCells : List Cell :=
  [⟨dotRecord, []⟩, ⟨parentRecord, [(shortRecord, 12)]⟩] ++ restCells 188 (by decide) (by decide)

/-- The entry behind a record of 12 bytes is jumped over. -/
theorem folded_skipped : Tiled 1024 writtenCells ∧ Fold (fun _ => True) writtenCells foldedCells ∧
    (∃ g ∈ foldedCells, shortRecord ∈ g.records) ∧
    parseDirBlock false (blockBytes false foldedCells) 1024 = .ok (foldedCells.map fun g => g.head.entry) ∧
    shortRecord.entry ∉ foldedCells.map fun g => g.head.entry := by
  refine ⟨⟨by decide, by decide +kernel, by decide +kernel⟩, ?_, ?_, by decide +kernel, by decide +kernel⟩
  · exact @Fold.fold _ [⟨dotRecord, []⟩] (restCells 188 (by decide) (by decide)) ⟨parentRecord, []⟩ ⟨shortRecord, []⟩
      (by decide) trivial
  · exact ⟨⟨parentRecord, [(shortRecord, 12)]⟩, by simp [foldedCells], by simp [Cell.records]⟩

/-- A name that ends three bytes before the next record. -/
def fittingRecord : DirRecord where
  ino := 8013
  kind := 0
  name := [0x6E, 0x6F, 0x74, 0x65, 0x73]
  pad := [0, 0, 0]
  ino_lt := by decide
  name_le := by decide
  aligned := by decide

theorem fitting_crossed : Crossed false fittingRecord := ⟨by decide, .nil⟩

theorem second_returned : ∃ entries,
    parseDirBlock false (blockBytes false (⟨fittingRecord, [(shortRecord, 12)]⟩ ::
      restCells 196 (by decide) (by decide))) 1024 = .ok entries ∧ shortRecord.entry ∈ entries := by
  have htiled : Tiled 1024 (⟨fittingRecord, []⟩ :: ⟨shortRecord, []⟩ :: restCells 196 (by decide) (by decide)) :=
    ⟨by decide, by decide +kernel, by decide +kernel⟩
  have hfold := @Fold.fold (Crossed false) [] (restCells 196 (by decide) (by decide)) ⟨fittingRecord, []⟩
    ⟨shortRecord, []⟩ (by decide) fitting_crossed
  obtain ⟨entries, hentries, hall⟩ := (folded_returned pointerVolume).2 _ _ htiled (.single hfold)
  exact ⟨entries, hentries, hall _ List.mem_cons_self shortRecord (by simp [Cell.records, Cell.absorb]) (by decide)
    (by decide)⟩

end Skipped

end Unearth.Ext
