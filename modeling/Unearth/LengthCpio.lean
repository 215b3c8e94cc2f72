import Unearth.LengthTar
import Unearth.Stored
import Unearth.Lib.Hex

/-!
# Copy archives

An entry of an archive is a header of hexadecimal fields, its name and its data, each filled up to a
multiple of four. The archive ends with an entry of a name of its own; what the data of the entries hold
does not count.
-/

namespace Unearth.Cpio
open Bytes Word Loop Post Lines Decimal Hex Utf8 Tar

section Walk

def HDR : ℕ := 110
def MAX_ENTRIES : ℕ := 5000000

/-- The number that hexadecimal digits make of the one before them. -/
def hexFrom : ℕ → Text → Option ℕ
  | n, [] => some n
  | n, c :: t => (hexDigit c).bind fun d => hexFrom (16 * n + d) t

/-- `u64::from_str_radix` of base sixteen -/
def parseHexU64 (t : Text) : Option ℕ :=
  if digitsOf t = [] then none else (hexFrom 0 (digitsOf t)).filter (· < 2 ^ 64)

def parseCpioHex (field : List UInt8) : Option ℕ := (fromUtf8 field).bind parseHexU64

def roundUp4 (n : ℕ) : ℕ := satAdd n 3 / 4 * 4

def trailerName : List UInt8 := [0x54, 0x52, 0x41, 0x49, 0x4C, 0x45, 0x52, 0x21, 0x21, 0x21]

/-- A name without the zero at its end. -/
def stripZero (name : List UInt8) : List UInt8 := if name.getLast? = some 0 then name.dropLast else name

variable (b : Build) (src : Source) (fileStart limit : ℕ)

/-- The sizes of the data and of the name, if the bytes are a header. -/
def headerSizes (hdr : List UInt8) : Option (ℕ × ℕ) :=
  if window hdr 0 5 ≠ [0x30, 0x37, 0x30, 0x37, 0x30] ∨ (byteAt hdr 5 ≠ 0x31 ∧ byteAt hdr 5 ≠ 0x32) then none
  else do
    let filesize ← parseCpioHex (window hdr 54 8)
    let namesize ← parseCpioHex (window hdr 94 8)
    if namesize = 0 ∨ 8192 < namesize then none else return (filesize, namesize)

/-- The size of the data and the name of the entry at a place. -/
def entryAt (pos : ℕ) : Exec (Option (ℕ × List UInt8)) := do
  let hdr ← src.readAt (← plus b fileStart pos) HDR
  if hdr.length < HDR then return none
  else
    match headerSizes hdr with
    | none => return none
    | some (filesize, namesize) =>
      let namePos := satAdd pos HDR
      if limit - fileStart < satAdd namePos namesize then return none
      else do
        let name ← src.readAt (← plus b fileStart namePos) namesize
        return if name.length < namesize then none else some (filesize, name)

@[irreducible] def cpioBody : ℕ × ℕ → Ctl (ℕ × ℕ) (Exec (Option ℕ))
  | (pos, entries) =>
    let avail := limit - fileStart
    if avail < satAdd pos HDR then .done (.ok none)
    else
      match entryAt b src fileStart limit pos with
      | .error f => .done (.error f)
      | .ok none => .done (.ok none)
      | .ok (some (filesize, name)) =>
        let afterName := roundUp4 (satAdd HDR name.length)
        if stripZero name = trailerName then
          .done (.ok (complete (min (satAdd pos afterName) avail) entries))
        else
          let next := satAdd (satAdd pos afterName) (roundUp4 filesize)
          if avail < next ∨ MAX_ENTRIES ≤ entries then .done (.ok none) else .next (next, entries + 1)

theorem cpioBody_decreases (s s' : ℕ × ℕ) (h : cpioBody b src fileStart limit s = .next s') :
    MAX_ENTRIES - s'.2 < MAX_ENTRIES - s.2 := by
  obtain ⟨pos, entries⟩ := s
  unfold cpioBody at h
  dsimp only at h
  split_ifs at h
  split at h
  · cases h
  · cases h
  · split_ifs at h with htrailer hstop
    cases h
    dsimp only
    omega

def cpioLoop : While (ℕ × ℕ) (Exec (Option ℕ)) where
  body := cpioBody b src fileStart limit
  measure s := MAX_ENTRIES - s.2
  decreases := cpioBody_decreases b src fileStart limit

theorem cpioLoop_body : (cpioLoop b src fileStart limit).body = cpioBody b src fileStart limit := rfl

def cpioLength : Exec (Option ℕ) := (cpioLoop b src fileStart limit).eval (0, 0)

end Walk

section Bound

variable {b : Build} {src : Source} {fileStart limit pos entries : ℕ}

theorem roundUp4_pos {n : ℕ} (h : 0 < n) : 0 < roundUp4 n := by
  unfold roundUp4 satAdd
  omega

/-- Reading an entry fails only when a read does. -/
theorem ends_entryAt (hlimit : limit < 2 ^ 64) (hpos : pos ≤ limit - fileStart)
    (hhead : satAdd pos HDR ≤ limit - fileStart) :
    Ends (· = Fault.io) (fun _ => True) (entryAt b src fileStart limit pos) := by
  have hroom : 0 < satAdd pos HDR := satAdd_pos (Nat.add_pos_right pos (by decide))
  unfold entryAt
  rw [plus_eq (by omega), exec_ok_bind]
  refine Ends.bind (src.ends_readAt _ _) fun hdr _ => ?_
  split_ifs
  · exact Ends.ok trivial
  cases headerSizes hdr with
  | none => exact Ends.ok trivial
  | some sizes =>
    dsimp only
    split_ifs
    · exact Ends.ok trivial
    · rw [plus_eq (by omega), exec_ok_bind]
      exact Ends.bind (src.ends_readAt _ _) fun name _ => Ends.ok trivial

/-- A round ends the walk inside the limit, or goes on to a place inside it. -/
theorem sat_cpioBody (hlimit : limit < 2 ^ 64) {s : ℕ × ℕ} (hs : s.1 ≤ limit - fileStart) :
    (cpioBody b src fileStart limit s).Sat (fun s => s.1 ≤ limit - fileStart)
      (Ends (· = Fault.io) (Within (limit - fileStart))) := by
  obtain ⟨pos, entries⟩ := s
  have hnone : Ends (· = Fault.io) (Within (limit - fileStart)) (.ok none : Exec (Option ℕ)) :=
    Ends.ok fun n hn => by cases hn
  unfold cpioBody
  dsimp only
  split_ifs with hhead
  · exact hnone
  have hroom : 0 < satAdd pos HDR := satAdd_pos (Nat.add_pos_right pos (by decide))
  have hentry := @ends_entryAt b src _ _ _ hlimit hs (not_lt.mp hhead)
  cases hread : entryAt b src fileStart limit pos with
  | error f =>
    rw [hread] at hentry
    exact hentry
  | ok entry =>
    cases entry with
    | none => exact hnone
    | some entry =>
      dsimp only
      have hafter : 0 < roundUp4 (satAdd HDR entry.2.length) :=
        roundUp4_pos (satAdd_pos (Nat.add_pos_left (by decide) _))
      have hend : 0 < min (satAdd pos (roundUp4 (satAdd HDR entry.2.length))) (limit - fileStart) :=
        lt_min (satAdd_pos (Nat.add_pos_right pos hafter)) (by omega)
      split_ifs with htrailer hstop
      · exact within_complete (min_le_right _ _) fun _ => hend
      · exact hnone
      · exact not_lt.mp (not_or.mp hstop).1

theorem ends_cpioLength (b : Build) (src : Source) (fileStart : ℕ) (hlimit : limit < 2 ^ 64) :
    Ends (· = Fault.io) (Within (limit - fileStart)) (cpioLength b src fileStart limit) := by
  have hstep : ∀ s, s.1 ≤ limit - fileStart → ((cpioLoop b src fileStart limit).body s).Sat
      (fun s => s.1 ≤ limit - fileStart) (Ends (· = Fault.io) (Within (limit - fileStart))) := by
    intro s hs
    rw [cpioLoop_body]
    exact sat_cpioBody hlimit hs
  have hstart : ((0, 0) : ℕ × ℕ).1 ≤ limit - fileStart := Nat.zero_le _
  unfold cpioLength
  exact (cpioLoop b src fileStart limit).eval_inv (Q := Ends (· = Fault.io) (Within (limit - fileStart))) hstep hstart

end Bound

section Fields

theorem hexDigit_some {c : Char} {d : ℕ} (h : hexDigit c = some d) : c.toNat < 0x80 ∧ c ≠ '+' ∧ d < 16 := by
  unfold hexDigit at h
  split_ifs at h with hdigit hlower hupper <;> cases h
  · have hlow : 48 ≤ c.toNat := hdigit.1
    have hhigh : c.toNat ≤ 57 := hdigit.2
    exact ⟨by omega, fun h => by rw [h] at hlow; revert hlow; decide, by omega⟩
  · have hlow : 97 ≤ c.toNat := hlower.1
    have hhigh : c.toNat ≤ 102 := hlower.2
    exact ⟨by omega, fun h => by rw [h] at hlow; revert hlow; decide, by omega⟩
  · have hlow : 65 ≤ c.toNat := hupper.1
    have hhigh : c.toNat ≤ 70 := hupper.2
    exact ⟨by omega, fun h => by rw [h] at hlow; revert hlow; decide, by omega⟩

theorem hexFrom_some {n v : ℕ} {t : Text} (h : hexFrom n t = some v) :
    (∀ c ∈ t, c.toNat < 0x80 ∧ c ≠ '+') ∧ v < (n + 1) * 16 ^ t.length := by
  induction t generalizing n with
  | nil =>
    cases h
    exact ⟨List.forall_mem_nil _, by simp⟩
  | cons c t ih =>
    obtain ⟨d, hd, h⟩ := Option.bind_eq_some_iff.mp h
    obtain ⟨hascii, hplus, hd⟩ := hexDigit_some hd
    obtain ⟨hrest, hlt⟩ := ih h
    refine ⟨List.forall_mem_cons.mpr ⟨⟨hascii, hplus⟩, hrest⟩, hlt.trans_le ?_⟩
    rw [List.length_cons, pow_succ', ← Nat.mul_assoc]
    exact Nat.mul_le_mul_right _ (by omega)

/-- Eight hexadecimal digits. -/
def HexField (n : ℕ) (field : List UInt8) : Prop :=
  ∃ t : Text, field = t.map (fun c => UInt8.ofNat c.toNat) ∧ t.length = 8 ∧ hexFrom 0 t = some n

theorem HexField.length {n : ℕ} {field : List UInt8} (h : HexField n field) : field.length = 8 := by
  obtain ⟨t, rfl, hlength, -⟩ := h
  rw [List.length_map, hlength]

theorem parse_hexField {n : ℕ} {field : List UInt8} (h : HexField n field) : parseCpioHex field = some n := by
  obtain ⟨t, rfl, hlength, hvalue⟩ := h
  obtain ⟨hchars, hlt⟩ := hexFrom_some hvalue
  have hdigits : digitsOf t = t := by
    unfold digitsOf
    split
    · exact absurd rfl (hchars '+' List.mem_cons_self).2
    · rfl
  have hne : t ≠ [] := List.ne_nil_of_length_pos (by omega)
  rw [hlength] at hlt
  rw [parseCpioHex, fromUtf8_text fun c hc => (hchars c hc).1, Option.bind_some, parseHexU64, hdigits, if_neg hne,
    hvalue, Option.filter_some, if_pos (decide_eq_true (by omega))]

end Fields

section Entries

/-- The header of an entry and the name behind it. -/
structure Header (name : List UInt8) (size : ℕ) where
  crc : Bool
  front : List UInt8
  sizeField : List UInt8
  middle : List UInt8
  nameField : List UInt8
  check : List UInt8
  fill : List UInt8
  front_length : front.length = 48
  middle_length : middle.length = 32
  check_length : check.length = 8
  fill_length : fill.length = (4 - (HDR + name.length + 1) % 4) % 4
  size_written : HexField size sizeField
  name_written : HexField (name.length + 1) nameField

namespace Header

variable {name : List UInt8} {size : ℕ} (h : Header name size)

def magic : List UInt8 := [0x30, 0x37, 0x30, 0x37, 0x30, if h.crc then 0x32 else 0x31]

def fields : List UInt8 := h.magic ++ h.front ++ h.sizeField ++ h.middle ++ h.nameField ++ h.check

def bytes : List UInt8 := h.fields ++ (name ++ [0]) ++ h.fill

theorem length_fields : h.fields.length = HDR := by
  simp only [fields, magic, List.length_append, List.length_cons, List.length_nil, h.front_length,
    h.size_written.length, h.middle_length, h.name_written.length, h.check_length]
  decide

theorem length_bytes : h.bytes.length = HDR + name.length + 1 + (4 - (HDR + name.length + 1) % 4) % 4 := by
  rw [bytes, List.length_append, List.length_append, h.length_fields, List.length_append, h.fill_length]
  rfl

theorem sizes (hname : name.length ≤ 8191) : headerSizes h.fields = some (size, name.length + 1) := by
  have hmagic : window h.fields 0 5 = [0x30, 0x37, 0x30, 0x37, 0x30] := rfl
  have hkind : byteAt h.fields 5 = if h.crc then 0x32 else 0x31 := rfl
  have hsize : window h.fields 54 8 = h.sizeField := by
    have hsplit : h.fields = h.magic ++ h.front ++ h.sizeField ++ (h.middle ++ h.nameField ++ h.check) := by
      simp only [fields, List.append_assoc]
    rw [hsplit]
    refine window_field ?_ h.size_written.length
    rw [List.length_append, h.front_length]
    rfl
  have hnameField : window h.fields 94 8 = h.nameField := by
    refine window_field ?_ h.name_written.length
    rw [List.length_append, List.length_append, List.length_append, h.front_length, h.size_written.length,
      h.middle_length]
    rfl
  have hheader : ¬ (window h.fields 0 5 ≠ [0x30, 0x37, 0x30, 0x37, 0x30] ∨
      (byteAt h.fields 5 ≠ 0x31 ∧ byteAt h.fields 5 ≠ 0x32)) := by
    rw [hmagic, hkind]
    cases h.crc <;> decide
  unfold headerSizes
  rw [if_neg hheader, hsize, hnameField, parse_hexField h.size_written, parse_hexField h.name_written]
  exact if_neg (by omega)

end Header

structure Entry where
  name : List UInt8
  data : List UInt8
  header : Header name data.length
  fill : List UInt8
  name_le : name.length ≤ 8191
  name_ne : name ≠ trailerName
  fill_length : fill.length = (4 - data.length % 4) % 4

def Entry.bytes (e : Entry) : List UInt8 := e.header.bytes ++ e.data ++ e.fill

/-- The entries of an archive and the one that ends it. -/
def archive (entries : List Entry) {size : ℕ} (trailer : Header trailerName size) : List UInt8 :=
  entries.flatMap Entry.bytes ++ trailer.bytes

theorem roundUp4_eq {n : ℕ} (h : n + 3 < 2 ^ 64) : roundUp4 n = n + (4 - n % 4) % 4 := by
  rw [roundUp4, satAdd_eq h]
  omega

/-- What a header and its name take up. -/
theorem Header.length_after {name : List UInt8} {size : ℕ} (h : Header name size) (hname : name.length ≤ 8191) :
    roundUp4 (satAdd HDR (name ++ [0]).length) = h.bytes.length := by
  have hnames : (name ++ [0]).length = name.length + 1 := List.length_append
  rw [hnames, satAdd_eq (by unfold HDR; omega), ← Nat.add_assoc, roundUp4_eq (by unfold HDR; omega), h.length_bytes]

theorem stripZero_terminated (name : List UInt8) : stripZero (name ++ [0]) = name := by
  rw [stripZero, List.getLast?_concat, if_pos rfl, List.dropLast_concat]

variable {b : Build} {src : Source} {fileStart limit pos k : ℕ}

theorem entryAt_header {name : List UInt8} {size : ℕ} (h : Header name size) (hrel : src.Reliable)
    (hstored : Stored src (fileStart + pos) h.bytes) (hname : name.length ≤ 8191)
    (hfit : fileStart + pos + h.bytes.length ≤ limit) :
    entryAt b src fileStart limit pos = .ok (some (size, name ++ [0])) := by
  have hlength := h.length_bytes
  have hfields : Stored src (fileStart + pos) h.fields := hstored.left.left
  have hbehind : Stored src (fileStart + pos + HDR) (name ++ [0]) := h.length_fields ▸ hstored.left.right
  have hlt := hbehind.end_lt (List.concat_ne_nil 0 name)
  have hnames : (name ++ [0]).length = name.length + 1 := List.length_append
  have hbefore : satAdd pos HDR = pos + HDR := satAdd_eq (by omega)
  unfold entryAt
  rw [plus_eq (by omega), exec_ok_bind, hfields.readAt hrel h.length_fields, exec_ok_bind,
    if_neg h.length_fields.not_lt, h.sizes hname]
  dsimp only
  rw [hbefore, satAdd_eq (by omega), if_neg (by omega), plus_eq (by omega), exec_ok_bind, ← Nat.add_assoc,
    hbehind.readAt hrel hnames, exec_ok_bind, if_neg hnames.not_lt]
  rfl

/-- The walk goes from an entry to what is behind it. -/
theorem cpioBody_entry (e : Entry) (hrel : src.Reliable) (hstored : Stored src (fileStart + pos) e.bytes)
    (hfit : fileStart + pos + e.bytes.length ≤ limit) (hlimit : limit < 2 ^ 64) (hk : k < MAX_ENTRIES) :
    cpioBody b src fileStart limit (pos, k) = .next (pos + e.bytes.length, k + 1) := by
  have hheader := e.header.length_bytes
  have hlength : e.bytes.length = e.header.bytes.length + e.data.length + e.fill.length := by
    rw [Entry.bytes, List.length_append, List.length_append]
  have hfill := e.fill_length
  have hname := e.name_le
  have hentry := @entryAt_header b src fileStart limit pos _ _ e.header hrel hstored.left.left e.name_le (by omega)
  have hnames : (e.name ++ [0]).length = e.name.length + 1 := List.length_append
  have hbefore : satAdd pos HDR = pos + HDR := satAdd_eq (by omega)
  have hafter : satAdd pos (roundUp4 (satAdd HDR (e.name ++ [0]).length)) = pos + e.header.bytes.length := by
    rw [e.header.length_after e.name_le, satAdd_eq (by omega)]
  have hnext : satAdd (pos + e.header.bytes.length) (e.data.length + e.fill.length) = pos + e.bytes.length := by
    rw [satAdd_eq (by omega), hlength]
    omega
  unfold cpioBody
  dsimp only
  rw [hbefore, if_neg (by omega), hentry]
  dsimp only
  rw [stripZero_terminated, if_neg e.name_ne, hafter, roundUp4_eq (by omega), ← hfill, hnext, if_neg (by omega)]

theorem cpioBody_trailer {size : ℕ} (trailer : Header trailerName size) (hrel : src.Reliable)
    (hstored : Stored src (fileStart + pos) trailer.bytes) (hfit : fileStart + pos + trailer.bytes.length ≤ limit)
    (hlimit : limit < 2 ^ 64) (hk : k ≠ 0) :
    cpioBody b src fileStart limit (pos, k) = .done (.ok (some (pos + trailer.bytes.length))) := by
  have hheader := trailer.length_bytes
  have hname : trailerName.length = 10 := rfl
  have hentry := @entryAt_header b src fileStart limit pos _ _ trailer hrel hstored (by decide) hfit
  have hnames : (trailerName ++ [0]).length = trailerName.length + 1 := List.length_append
  have hbefore : satAdd pos HDR = pos + HDR := satAdd_eq (by omega)
  have hafter : satAdd pos (roundUp4 (satAdd HDR (trailerName ++ [0]).length)) = pos + trailer.bytes.length := by
    rw [trailer.length_after (by decide), satAdd_eq (by omega)]
  unfold cpioBody
  dsimp only
  rw [hbefore, if_neg (by omega), hentry]
  dsimp only
  rw [stripZero_terminated, if_pos rfl, hafter, min_eq_left (by omega), complete, if_neg hk]

/-- The walk over the rest of an archive. -/
theorem eval_entries {entries : List Entry} {size : ℕ} (trailer : Header trailerName size) (hrel : src.Reliable)
    (hstored : Stored src (fileStart + pos) (archive entries trailer))
    (hfit : fileStart + pos + (archive entries trailer).length ≤ limit) (hlimit : limit < 2 ^ 64)
    (hmax : k + entries.length ≤ MAX_ENTRIES) (hk : k + entries.length ≠ 0) :
    (cpioLoop b src fileStart limit).eval (pos, k) = .ok (some (pos + (archive entries trailer).length)) := by
  induction entries generalizing pos k with
  | nil => exact (cpioLoop b src fileStart limit).eval_done (cpioBody_trailer trailer hrel hstored hfit hlimit hk)
  | cons e entries ih =>
    have hcons : archive (e :: entries) trailer = e.bytes ++ archive entries trailer := by
      rw [archive, archive, List.flatMap_cons, List.append_assoc]
    rw [hcons] at hstored hfit ⊢
    rw [List.length_append] at hfit ⊢
    rw [List.length_cons] at hmax
    have hstep : cpioBody b src fileStart limit (pos, k) = .next (pos + e.bytes.length, k + 1) :=
      cpioBody_entry e hrel hstored.left (by omega) hlimit (by omega)
    rw [(cpioLoop b src fileStart limit).eval_next hstep, ← Nat.add_assoc]
    refine ih ?_ (by omega) (by omega) (by omega)
    rw [← Nat.add_assoc]
    exact hstored.right

end Entries

/-- The length of an archive of at least one entry is found with the entry that ends it, whatever is behind it;
and on any bytes the walk ends, and what it finds is positive and inside the limit. -/
theorem cpio_length_exact :
    (∀ (b : Build) (src : Source) (fileStart limit : ℕ) (entries : List Entry) (size : ℕ)
      (trailer : Header trailerName size), src.Reliable → Stored src fileStart (archive entries trailer) →
      entries ≠ [] → entries.length ≤ MAX_ENTRIES → fileStart + (archive entries trailer).length ≤ limit →
      limit < 2 ^ 64 → cpioLength b src fileStart limit = .ok (some (archive entries trailer).length)) ∧
    ∀ (b : Build) (src : Source) (fileStart limit : ℕ), limit < 2 ^ 64 →
      Ends (· = Fault.io) (Within (limit - fileStart)) (cpioLength b src fileStart limit) := by
  refine ⟨fun b src fileStart limit entries size trailer hrel hstored hne hmax hfit hlimit => ?_,
    fun b src fileStart limit => ends_cpioLength b src fileStart⟩
  have hk := List.length_pos_of_ne_nil hne
  have hwalk := @eval_entries b src _ _ 0 0 _ _ trailer hrel hstored hfit hlimit (by omega) (by omega)
  rwa [Nat.zero_add] at hwalk

section Sample

theorem hexField_digit {c : Char} {d : ℕ} (h : hexDigit c = some d) :
    HexField d (List.replicate 7 0x30 ++ [UInt8.ofNat c.toNat]) :=
  ⟨List.replicate 7 '0' ++ [c], rfl, rfl, by simp [hexFrom, List.replicate, h, show hexDigit '0' = some 0 from rfl]⟩

theorem zeros_length (n : ℕ) : (List.replicate n (0x30 : UInt8)).length = n := List.length_replicate

/-- A header of an entry whose name and data are short. -/
def shortHeader (name : List UInt8) {size : ℕ} {c d : Char} (hname : hexDigit c = some (name.length + 1))
    (hsize : hexDigit d = some size) : Header name size where
  crc := false
  front := List.replicate 48 0x30
  sizeField := List.replicate 7 0x30 ++ [UInt8.ofNat d.toNat]
  middle := List.replicate 32 0x30
  nameField := List.replicate 7 0x30 ++ [UInt8.ofNat c.toNat]
  check := List.replicate 8 0x30
  fill := List.replicate ((4 - (HDR + name.length + 1) % 4) % 4) 0x30
  front_length := zeros_length 48
  middle_length := zeros_length 32
  check_length := zeros_length 8
  fill_length := zeros_length _
  size_written := hexField_digit hsize
  name_written := hexField_digit hname

theorem hex_two : hexDigit '2' = some 2 := rfl
theorem hex_one : hexDigit '1' = some 1 := rfl
theorem hex_eleven : hexDigit 'B' = some 11 := rfl
theorem hex_zero : hexDigit '0' = some 0 := rfl

theorem letter_le : ([0x61] : List UInt8).length ≤ 8191 := by decide
theorem letter_ne : ([0x61] : List UInt8) ≠ trailerName := by decide

def oneByte : Entry where
  name := [0x61]
  data := [7]
  header := shortHeader [0x61] hex_two hex_one
  fill := List.replicate 3 0x30
  name_le := letter_le
  name_ne := letter_ne
  fill_length := zeros_length 3

def noByte : Header trailerName 0 := shortHeader trailerName hex_eleven hex_zero

theorem length_cpio : (archive [oneByte] noByte).length = 240 := by decide +kernel

theorem length_cpio_lt : ([5] ++ archive [oneByte] noByte ++ [9]).length < 2 ^ 63 := by decide +kernel

def cpioSource : Source where
  data := [5] ++ archive [oneByte] noByte ++ [9]
  size_lt := length_cpio_lt

theorem one_entry_archive : (archive [oneByte] noByte).length = 240 ∧
    cpioLength .debug cpioSource 1 241 = .ok (some (archive [oneByte] noByte).length) := by
  have hstored : Stored cpioSource 1 (archive [oneByte] noByte) := (stored_of_data [5] rfl).left
  have hfit : 1 + (archive [oneByte] noByte).length ≤ 241 := by rw [length_cpio]
  exact ⟨length_cpio, cpio_length_exact.1 .debug cpioSource 1 241 [oneByte] 0 noByte (fun _ _ => rfl) hstored
    (List.cons_ne_nil _ _) (by decide) hfit (by decide)⟩

end Sample

end Unearth.Cpio
