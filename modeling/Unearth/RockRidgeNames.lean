import Unearth.Lib.Utf8Cuts
import Unearth.RockRidge
import Unearth.Stored

/-!
# Names in parts

A name is cut into parts, which are among other entries in the record and in up to eight continuation areas. Each
part is read as a text of its own, so that the name is found where none of them begins inside a character.
-/

namespace Unearth.Iso
open Bytes Word Lines Utf8

/-- A part of a name, with whether more follow, or an entry that has nothing to do with names. -/
inductive Item
  | part (more : Bool) (text : List UInt8)
  | other (first second version : UInt8) (data : List UInt8)

namespace Item

def bytes : Item → List UInt8
  | part more text => ascii "NM" ++ [UInt8.ofNat (5 + text.length), 1, if more then 1 else 0] ++ text
  | other first second version data => [first, second, UInt8.ofNat (4 + data.length), version] ++ data

def WellFormed : Item → Prop
  | part _ text => 5 + text.length < 256
  | other first second _ data =>
    4 + data.length < 256 ∧ [first, second] ∉ [ascii "NM", ascii "CE", ascii "ST"]

def part? : Item → Option (Bool × List UInt8)
  | part more text => some (more, text)
  | other _ _ _ _ => none

end Item

def parts (items : List Item) : List (Bool × List UInt8) := items.filterMap Item.part?

/-- Parts of which all but the last say that more follow. -/
def Finished : List (Bool × List UInt8) → Prop
  | [] => False
  | [p] => p.1 = false
  | p :: rest => p.1 = true ∧ Finished rest

/-- The place of the continuation area, in both orders of bytes. -/
def ceBytes (c : Continue) : List UInt8 :=
  ascii "CE" ++ [28, 1] ++ (toLe 4 c.lba ++ toBe 4 c.lba) ++ (toLe 4 c.off ++ toBe 4 c.off) ++
    (toLe 4 c.len ++ toBe 4 c.len)

/-- The entries of an area, before and behind the one that says where the next area is, and what is left of it. -/
structure Area where
  before : List Item
  behind : List Item
  rest : List UInt8

structure Continuation where
  lba : ℕ
  off : ℕ
  area : Area

namespace Area

variable (a : Area)

def parts : List (Bool × List UInt8) := Iso.parts a.before ++ Iso.parts a.behind

/-- The bytes of an area that goes on in others. -/
def bytes : Area → List Continuation → List UInt8
  | a, [] => a.before.flatMap Item.bytes ++ (a.behind.flatMap Item.bytes ++ a.rest)
  | a, c :: behind => a.before.flatMap Item.bytes ++ (ceBytes ⟨c.lba, c.off, (c.area.bytes behind).length⟩ ++
      (a.behind.flatMap Item.bytes ++ a.rest))

/-- Too few bytes for an entry, zeros, or the end of the entries. -/
structure WellFormed : Prop where
  before : ∀ i ∈ a.before, i.WellFormed
  behind : ∀ i ∈ a.behind, i.WellFormed
  rest : a.rest.length < 4 ∨ byteAt a.rest 2 = 0 ∨ window a.rest 0 2 = ascii "ST"

end Area

/-- The continuation areas are in the volume, and none is larger than what is read at once. -/
def StoredAreas (v : Volume) (src : Source) (volEnd : ℕ) : List Continuation → Prop
  | [] => True
  | c :: rest =>
    let start := v.offset + c.lba * v.blockSize + c.off
    c.lba < 2 ^ 32 ∧ c.off < 2 ^ 32 ∧ (c.area.bytes rest).length ≤ MAX_DIR_BYTES ∧
      Stored src start (c.area.bytes rest) ∧ start + (c.area.bytes rest).length ≤ volEnd ∧ StoredAreas v src volEnd rest

section Scan

variable {s : SuspScan} {entry rest : List UInt8}

/-- An entry is read, and the scan goes on behind it. -/
theorem suspFrom_entry (hlen : (byteAt entry 2).toNat = entry.length) (hfour : 4 ≤ entry.length)
    (hst : window entry 0 2 ≠ ascii "ST") : suspFrom (entry ++ rest) s = suspFrom rest (suspEntry entry s) := by
  have hbyte : byteAt (entry ++ rest) 2 = byteAt entry 2 := by
    rw [byteAt_append, if_pos (by omega)]
  have hwindow : window (entry ++ rest) 0 2 = window entry 0 2 := window_within rfl (by omega) rest
  rw [suspFrom]
  have hroom : entry.length ≤ (entry ++ rest).length := (List.prefix_append entry rest).length_le
  rw [hbyte, hwindow, hlen, dif_pos ⟨hfour.trans hroom, hfour, hroom, hst⟩, List.drop_left, List.take_left]

theorem suspFrom_end (h : rest.length < 4 ∨ byteAt rest 2 = 0 ∨ window rest 0 2 = ascii "ST") :
    suspFrom rest s = s := by
  rw [suspFrom]
  refine dif_neg fun hgo => ?_
  rcases h with h | h | h
  · omega
  · rw [h] at hgo
    exact absurd hgo.2.1 (by decide)
  · exact hgo.2.2.2 h

/-- What the parts of a name add to it. -/
def after (s : SuspScan) (ps : List (Bool × List UInt8)) : SuspScan :=
  { s with
    name := s.name ++ ps.flatMap fun p => fromUtf8Lossy p.2
    complete := s.complete || ps.any (!·.1) }

theorem after_append (s : SuspScan) (ps qs : List (Bool × List UInt8)) :
    after s (ps ++ qs) = after (after s ps) qs := by
  simp only [after, List.flatMap_append, List.append_assoc, List.any_append, Bool.or_assoc]

theorem suspEntry_part (more : Bool) (text : List UInt8) (s : SuspScan) :
    suspEntry (Item.part more text).bytes s = after s [(more, text)] := by
  have hname : window (Item.part more text).bytes 0 2 = ascii "NM" ∧ 5 ≤ (Item.part more text).bytes.length := by
    refine ⟨rfl, ?_⟩
    simp [Item.bytes, ascii]
  have hflags : byteAt (Item.part more text).bytes 4 = if more then 1 else 0 := rfl
  have htext : (Item.part more text).bytes.drop 5 = text := rfl
  rw [suspEntry, if_pos hname, hflags, htext]
  cases more with
  | true =>
    have hbit : (1 : UInt8) &&& 0x06 = 0 := by decide
    simp [after, hbit]
  | false => simp [after]

theorem suspEntry_other {first second version : UInt8} {data : List UInt8}
    (h : [first, second] ∉ [ascii "NM", ascii "CE", ascii "ST"]) (s : SuspScan) :
    suspEntry (Item.other first second version data).bytes s = s := by
  have hmark : window (Item.other first second version data).bytes 0 2 = [first, second] := rfl
  simp only [List.mem_cons, List.not_mem_nil, or_false, not_or] at h
  rw [suspEntry, hmark, if_neg fun hname => h.1 hname.1, if_neg fun hce => h.2.1 hce.1]

theorem suspEntry_ce {c : Continue} (hlba : c.lba < 2 ^ 32) (hoff : c.off < 2 ^ 32) (hlen : c.len < 2 ^ 32) :
    suspEntry (ceBytes c) s = { s with ce := some c } := by
  have hbytes : ceBytes c = [0x43, 0x45, 28, 1] ++ (toLe 4 c.lba ++ (toBe 4 c.lba ++ (toLe 4 c.off ++
      (toBe 4 c.off ++ (toLe 4 c.len ++ toBe 4 c.len))))) := by
    simp [ceBytes, ascii]
  have hmark : window (ceBytes c) 0 2 = ascii "CE" := rfl
  have hlength : (ceBytes c).length = 28 := by
    simp [ceBytes, ascii]
  have hother : ¬ (window (ceBytes c) 0 2 = ascii "NM" ∧ 5 ≤ (ceBytes c).length) := by
    rw [hmark]
    exact fun h => absurd h.1 (by decide)
  have hlbaField : window (ceBytes c) 4 4 = toLe 4 c.lba := by
    rw [hbytes, window_behind rfl (by decide)]
    exact window_whole (length_toLe 4 _) _
  have hoffField : window (ceBytes c) 12 4 = toLe 4 c.off := by
    rw [hbytes, window_behind rfl (by decide), window_behind (length_toLe 4 _) (by decide),
      window_behind (length_toBe 4 _) (by decide)]
    exact window_whole (length_toLe 4 _) _
  have hlenField : window (ceBytes c) 20 4 = toLe 4 c.len := by
    rw [hbytes, window_behind rfl (by decide), window_behind (length_toLe 4 _) (by decide),
      window_behind (length_toBe 4 _) (by decide), window_behind (length_toLe 4 _) (by decide),
      window_behind (length_toBe 4 _) (by decide)]
    exact window_whole (length_toLe 4 _) _
  rw [suspEntry, if_neg hother, if_pos ⟨hmark, hlength.ge⟩, hlbaField, hoffField, hlenField, le_toLe (by omega),
    le_toLe (by omega), le_toLe (by omega)]

/-- An item is as long as it says. -/
theorem suspFrom_item {i : Item} (h : i.WellFormed) (rest : List UInt8) (s : SuspScan) :
    suspFrom (i.bytes ++ rest) s = suspFrom rest (after s i.part?.toList) := by
  cases i with
  | part more text =>
    have hlength : (Item.part more text).bytes.length = 5 + text.length := by
      simp [Item.bytes, ascii]
      omega
    have hlen : (byteAt (Item.part more text).bytes 2).toNat = (Item.part more text).bytes.length := by
      rw [hlength]
      exact Nat.mod_eq_of_lt h
    have hst : window (Item.part more text).bytes 0 2 ≠ ascii "ST" := by
      change ascii "NM" ≠ _
      decide
    rw [suspFrom_entry hlen (by omega) hst, suspEntry_part]
    rfl
  | other first second version data =>
    obtain ⟨hdata, hmark⟩ := h
    have hlength : (Item.other first second version data).bytes.length = 4 + data.length := by
      simp [Item.bytes]
      omega
    have hlen : (byteAt (Item.other first second version data).bytes 2).toNat =
        (Item.other first second version data).bytes.length := by
      rw [hlength]
      exact Nat.mod_eq_of_lt hdata
    have hst : window (Item.other first second version data).bytes 0 2 ≠ ascii "ST" := by
      intro heq
      apply hmark
      change [first, second] = _ at heq
      rw [heq]
      decide
    rw [suspFrom_entry hlen (by omega) hst, suspEntry_other hmark]
    simp [after, Item.part?]

theorem suspFrom_items {items : List Item} (h : ∀ i ∈ items, i.WellFormed) (rest : List UInt8) (s : SuspScan) :
    suspFrom (items.flatMap Item.bytes ++ rest) s = suspFrom rest (after s (parts items)) := by
  induction items generalizing s with
  | nil => simp [parts, after]
  | cons i items ih =>
    obtain ⟨hi, hitems⟩ := List.forall_mem_cons.mp h
    have hparts : parts (i :: items) = i.part?.toList ++ parts items := by
      cases hpart : i.part? with
      | none => simp [parts, hpart]
      | some p => simp [parts, hpart]
    rw [List.flatMap_cons, List.append_assoc, suspFrom_item hi, ih hitems, hparts, after_append]

/-- An area is scanned for its parts and for where the next one is. -/
theorem scanSuspArea_eq {a : Area} (ha : a.WellFormed) {areas : List Continuation}
    (hplace : ∀ c ∈ areas.head?, c.lba < 2 ^ 32 ∧ c.off < 2 ^ 32 ∧ (c.area.bytes areas.tail).length < 2 ^ 32)
    (name : Text) (complete : Bool) :
    scanSuspArea (a.bytes areas) name complete =
      { after ⟨name, complete, none⟩ a.parts with
        ce := areas.head?.map fun c => ⟨c.lba, c.off, (c.area.bytes areas.tail).length⟩ } := by
  cases areas with
  | nil =>
    rw [scanSuspArea, Area.bytes, suspFrom_items ha.before, suspFrom_items ha.behind, suspFrom_end ha.rest,
      ← after_append]
    rfl
  | cons c areas =>
    obtain ⟨hlba, hoff, hlen⟩ := hplace c rfl
    have hce : (byteAt (ceBytes ⟨c.lba, c.off, (c.area.bytes areas).length⟩) 2).toNat =
        (ceBytes ⟨c.lba, c.off, (c.area.bytes areas).length⟩).length := by
      simp [ceBytes, ascii, byteAt]
    have hst : window (ceBytes ⟨c.lba, c.off, (c.area.bytes areas).length⟩) 0 2 ≠ ascii "ST" := by
      change ascii "CE" ≠ _
      decide
    have hfour : 4 ≤ (ceBytes ⟨c.lba, c.off, (c.area.bytes areas).length⟩).length := by
      simp [ceBytes, ascii]
    rw [scanSuspArea, Area.bytes, suspFrom_items ha.before, suspFrom_entry hce hfour hst,
      suspEntry_ce hlba hoff hlen, suspFrom_items ha.behind, suspFrom_end ha.rest]
    simp only [after, Area.parts, List.flatMap_append, List.append_assoc, List.any_append, Bool.or_assoc,
      List.head?_cons, Option.map_some, List.tail_cons]

end Scan

section Chain

variable {v : Volume} {src : Source} {volEnd : ℕ}

theorem finished_append {ps qs : List (Bool × List UInt8)} (h : Finished (ps ++ qs)) (hqs : qs ≠ []) :
    (∀ p ∈ ps, p.1 = true) ∧ Finished qs := by
  induction ps with
  | nil => exact ⟨fun p hp => (by cases hp), h⟩
  | cons p ps ih =>
    obtain ⟨q, rest, hrest⟩ := List.exists_cons_of_ne_nil (List.append_ne_nil_of_right_ne_nil ps hqs)
    rw [List.cons_append, hrest] at h
    obtain ⟨hp, h⟩ := h
    rw [← hrest] at h
    obtain ⟨hps, hqs⟩ := ih h
    exact ⟨List.forall_mem_cons.mpr ⟨hp, hps⟩, hqs⟩

theorem finished_last {ps : List (Bool × List UInt8)} (h : Finished ps) : ps.any (!·.1) = true := by
  induction ps with
  | nil => cases h
  | cons p ps ih =>
    cases ps with
    | nil =>
      have hp : p.1 = false := h
      simp [hp]
    | cons q ps =>
      rw [List.any_cons, ih h.2, Bool.or_true]

theorem readContinuation_stored (hrel : src.Reliable) {c : Continue} {bytes : List UInt8} (hlen : bytes.length = c.len)
    (hne : bytes ≠ []) (hmax : c.len ≤ MAX_DIR_BYTES)
    (hstored : Stored src (v.offset + c.lba * v.blockSize + c.off) bytes)
    (hend : v.offset + c.lba * v.blockSize + c.off + bytes.length ≤ volEnd) :
    readContinuation v src c volEnd = some bytes := by
  have hlt := hstored.end_lt hne
  have hpos := List.length_pos_of_ne_nil hne
  have hread := hstored.readAt hrel hlen
  unfold readContinuation
  have hmul : checkedMul c.lba v.blockSize = some (c.lba * v.blockSize) := if_pos (by omega)
  have hbase : checkedAdd v.offset (c.lba * v.blockSize) = some (v.offset + c.lba * v.blockSize) := if_pos (by omega)
  have hstart : checkedAdd (v.offset + c.lba * v.blockSize) c.off = some (v.offset + c.lba * v.blockSize + c.off) :=
    if_pos (by omega)
  have hstop : checkedAdd (v.offset + c.lba * v.blockSize + c.off) c.len =
      some (v.offset + c.lba * v.blockSize + c.off + c.len) := if_pos (by omega)
  rw [if_neg (by omega)]
  simp only [hmul, hbase, hstart, hstop, Option.bind_eq_bind, Option.bind_some]
  rw [if_neg (by omega), hread]
  rfl

theorem bytes_ne_nil {a : Area} {areas : List Continuation} (h : a.parts ++ areas.flatMap (·.area.parts) ≠ []) :
    a.bytes areas ≠ [] := by
  intro hnil
  cases areas with
  | cons c areas =>
    rw [Area.bytes, List.append_eq_nil_iff, List.append_eq_nil_iff] at hnil
    exact absurd hnil.2.1 (by simp [ceBytes])
  | nil =>
    rw [Area.bytes, List.append_eq_nil_iff, List.append_eq_nil_iff] at hnil
    have hitems : ∀ {items : List Item}, items.flatMap Item.bytes = [] → items = [] := by
      intro items hitems
      cases items with
      | nil => rfl
      | cons i items =>
        rw [List.flatMap_cons, List.append_eq_nil_iff] at hitems
        cases i with
        | part more text => exact absurd hitems.1 (by simp [Item.bytes])
        | other first second version data => exact absurd hitems.1 (by simp [Item.bytes])
    apply h
    simp [Area.parts, parts, hitems hnil.1, hitems hnil.2.1]

/-- The name of a chain of areas, by induction on the areas that are left. -/
theorem nameFrom_chain (hrel : src.Reliable) {areas : List Continuation} {a : Area} (ha : a.WellFormed)
    (hareas : ∀ c ∈ areas, c.area.WellFormed) (hstored : StoredAreas v src volEnd areas) {rounds : ℕ}
    (hrounds : areas.length < rounds) (name : Text) (hfinished : Finished (a.parts ++ areas.flatMap (·.area.parts))) :
    nameFrom v src volEnd rounds (a.bytes areas) name false =
      name ++ (a.parts ++ areas.flatMap (·.area.parts)).flatMap fun p => fromUtf8Lossy p.2 := by
  induction areas generalizing a rounds name with
  | nil =>
    obtain ⟨rounds, rfl⟩ : ∃ n, rounds = n + 1 := ⟨rounds - 1, by omega⟩
    rw [nameFrom, scanSuspArea_eq ha (fun c hc => by cases hc)]
    dsimp only [List.head?_nil, Option.map_none]
    rw [List.flatMap_nil, List.append_nil]
    rfl
  | cons c areas ih =>
    obtain ⟨rounds, rfl⟩ : ∃ n, rounds = n + 1 := ⟨rounds - 1, by omega⟩
    obtain ⟨hlba, hoff, hmax, hbytes, hend, hstored⟩ := hstored
    obtain ⟨hc, hareas⟩ := List.forall_mem_cons.mp hareas
    have hlen : (c.area.bytes areas).length < 2 ^ 32 := hmax.trans_lt (by decide)
    rw [nameFrom, scanSuspArea_eq ha fun d hd => by cases hd; exact ⟨hlba, hoff, hlen⟩]
    dsimp only [List.head?_cons, Option.map_some, List.tail_cons]
    rw [List.flatMap_cons] at hfinished ⊢
    by_cases hrest : c.area.parts ++ areas.flatMap (·.area.parts) = []
    · rw [hrest, List.append_nil] at hfinished ⊢
      have hcomplete : (after ⟨name, false, none⟩ a.parts).complete = true := finished_last hfinished
      rw [if_pos hcomplete]
      rfl
    · obtain ⟨hmore, hfinished⟩ := finished_append hfinished hrest
      have hcomplete : (after ⟨name, false, none⟩ a.parts).complete = false := by
        rw [after, Bool.false_or, List.any_eq_false]
        intro p hp
        rw [hmore p hp]
        decide
      have hread : readContinuation v src ⟨c.lba, c.off, (c.area.bytes areas).length⟩ volEnd =
          some (c.area.bytes areas) :=
        readContinuation_stored hrel rfl (bytes_ne_nil hrest) hmax hbytes hend
      rw [hcomplete, if_neg Bool.false_ne_true, hread]
      dsimp only
      rw [List.length_cons] at hrounds
      rw [ih hc hareas hstored (by omega) _ hfinished, @List.flatMap_append _ _ a.parts, ← List.append_assoc]
      rfl

end Chain

section Exactness

variable {v : Volume} {src : Source} {rec : List UInt8} {nameLen volEnd : ℕ}

/-- A name in a record, in as many continuation areas as are followed. -/
structure NameAt (v : Volume) (src : Source) (rec : List UInt8) (nameLen volEnd : ℕ) where
  first : Area
  areas : List Continuation
  first_wf : first.WellFormed
  areas_wf : ∀ c ∈ areas, c.area.WellFormed
  record : rec.drop (systemUse nameLen) = first.bytes areas
  few : areas.length ≤ 8
  stored : StoredAreas v src volEnd areas
  finished : Finished (first.parts ++ areas.flatMap (·.area.parts))

def NameAt.parts (n : NameAt v src rec nameLen volEnd) : List (List UInt8) :=
  (n.first.parts ++ n.areas.flatMap (·.area.parts)).map Prod.snd

/-- The name that is found is that of its parts, each read for itself. -/
theorem rockRidgeName_eq (hrel : src.Reliable) (n : NameAt v src rec nameLen volEnd) :
    rockRidgeName v src rec nameLen volEnd =
      if n.parts.flatMap fromUtf8Lossy = [] then none else some (n.parts.flatMap fromUtf8Lossy) := by
  have hne : n.first.parts ++ n.areas.flatMap (·.area.parts) ≠ [] := by
    intro hnil
    have hfinished := n.finished
    rw [hnil] at hfinished
    exact hfinished
  have hlong : ¬ rec.length ≤ systemUse nameLen := by
    intro hshort
    apply bytes_ne_nil hne
    rw [← n.record]
    exact List.drop_eq_nil_of_le hshort
  have hname : nameFrom v src volEnd (MAX_CE_FOLLOW + 1) (rec.drop (systemUse nameLen)) [] false =
      n.parts.flatMap fromUtf8Lossy := by
    have hrounds : n.areas.length < MAX_CE_FOLLOW + 1 := Nat.lt_succ_of_le n.few
    rw [n.record, nameFrom_chain hrel n.first_wf n.areas_wf n.stored hrounds [] n.finished, List.nil_append,
      NameAt.parts, List.flatMap_map]
  rw [rockRidgeName, if_neg hlong, hname]

/-- What is read of a volume is inside of it. -/
theorem rockRidgeName_congr {src' : Source}
    (h : ∀ off len, v.offset ≤ off → off + len ≤ volEnd → src.readAt off len = src'.readAt off len) :
    rockRidgeName v src rec nameLen volEnd = rockRidgeName v src' rec nameLen volEnd := by
  have hread : ∀ c, readContinuation v src c volEnd = readContinuation v src' c volEnd := by
    intro c
    unfold readContinuation
    split_ifs with hlen
    · rfl
    · cases checkedMul c.lba v.blockSize with
      | none => rfl
      | some product =>
        simp only [Option.bind_eq_bind, Option.bind_some]
        cases checkedAdd v.offset product with
        | none => rfl
        | some base =>
          simp only [Option.bind_some]
          cases checkedAdd base c.off with
          | none => rfl
          | some start =>
            simp only [Option.bind_some]
            cases hstop : checkedAdd start c.len with
            | none => rfl
            | some stop =>
              obtain ⟨-, rfl⟩ := checkedAdd_eq_some.mp hstop
              simp only [Option.bind_some]
              by_cases hout : start < v.offset ∨ volEnd < start + c.len
              · rw [if_pos hout, if_pos hout]
              · rw [not_or, not_lt, not_lt] at hout
                rw [h start c.len hout.1 hout.2]
  have hname : ∀ rounds area name complete,
      nameFrom v src volEnd rounds area name complete = nameFrom v src' volEnd rounds area name complete := by
    intro rounds
    induction rounds with
    | zero => exact fun _ _ _ => rfl
    | succ rounds ih =>
      intro area name complete
      simp only [nameFrom, hread, ih]
  rw [rockRidgeName, rockRidgeName, hname]

/-- A name is found exactly where it is not empty and no part of it begins inside a character; and whatever a record and
its areas say, nothing is read but what is in the volume. -/
theorem rockRidgeName_exact (v : Volume) (src : Source) (hrel : src.Reliable) (rec : List UInt8) (nameLen volEnd : ℕ)
    (n : NameAt v src rec nameLen volEnd) (name : Text) (hname : fromUtf8 n.parts.flatten = some name) :
    (rockRidgeName v src rec nameLen volEnd = some name ↔ name ≠ [] ∧ ∀ p ∈ n.parts, Fresh p) ∧
      ∀ (src src' : Source) (rec : List UInt8) (nameLen volEnd : ℕ),
        (∀ off len, v.offset ≤ off → off + len ≤ volEnd → src.readAt off len = src'.readAt off len) →
          rockRidgeName v src rec nameLen volEnd = rockRidgeName v src' rec nameLen volEnd := by
  refine ⟨?_, fun _ _ _ _ _ h => rockRidgeName_congr h⟩
  rw [rockRidgeName_eq hrel n, ← lossy_pieces_iff hname]
  constructor
  · intro h
    split_ifs at h with hempty
    have heq := Option.some.inj h
    exact ⟨heq ▸ hempty, heq⟩
  · rintro ⟨hne, heq⟩
    rw [heq, if_neg hne]

end Exactness

section Sample

/-- A character of two bytes, whole or in two parts. -/
def accented (cut : Bool) : Area where
  before := if cut then [.part true [0xc3], .part false [0xa9]] else [.part false [0xc3, 0xa9]]
  behind := []
  rest := []

def accentedRecord (cut : Bool) : List UInt8 := List.replicate 34 0 ++ (accented cut).bytes []

theorem accented_wf (cut : Bool) : (accented cut).WellFormed where
  before := by
    cases cut <;> simp [accented, Item.WellFormed]
  behind := fun i hi => by cases hi
  rest := .inl (show 0 < 4 by decide)

theorem accented_finished (cut : Bool) :
    Finished ((accented cut).parts ++ ([] : List Continuation).flatMap (·.area.parts)) := by
  cases cut with
  | true => exact ⟨rfl, rfl⟩
  | false => exact rfl

theorem accented_few : ([] : List Continuation).length ≤ 8 := Nat.zero_le 8

def accentedName (src : Source) (cut : Bool) : NameAt ⟨0, 2048⟩ src (accentedRecord cut) 1 4096 where
  first := accented cut
  areas := []
  first_wf := accented_wf cut
  areas_wf := fun c hc => by cases hc
  record := rfl
  few := accented_few
  stored := trivial
  finished := accented_finished cut

theorem length_empty_lt : ([] : List UInt8).length < 2 ^ 63 := by decide

def emptySource : Source := ⟨[], length_empty_lt, fun _ _ => false⟩

theorem accented_fresh : ∀ p ∈ (accentedName emptySource false).parts, Fresh p := by
  intro p hp x hx
  rw [List.mem_singleton.mp hp] at hx
  cases hx
  decide

theorem whole_name_found : rockRidgeName ⟨0, 2048⟩ emptySource (accentedRecord false) 1 4096 = some ['é'] :=
  (rockRidgeName_exact _ emptySource (fun _ _ => rfl) _ _ _ (accentedName emptySource false) ['é'] rfl).1.mpr
    ⟨by decide, accented_fresh⟩

/-- A name that is cut inside a character is found with marks in its place. -/
theorem cut_name_marked : fromUtf8 (accentedName emptySource true).parts.flatten = some ['é'] ∧
    rockRidgeName ⟨0, 2048⟩ emptySource (accentedRecord true) 1 4096 = some ['\uFFFD', '\uFFFD'] :=
  ⟨rfl, rockRidgeName_eq (fun _ _ => rfl) (accentedName emptySource true)⟩

end Sample

end Unearth.Iso
