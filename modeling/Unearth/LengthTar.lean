import Unearth.Slices
import Unearth.Lib.Utf8
import Unearth.Lib.Decimal
import Unearth.Lib.Loop

/-!
# Tape archives

A member of an archive is a header of one block and its data, filled up to whole blocks; the
archive ends with two blocks of zeros. The length of a member is in its header, in octal digits
or in binary, and a header is one only with its checksum. The walk from header to header finds
the length of a well-formed archive, and stays inside the limit on any bytes.
-/

namespace Unearth.Tar
open Bytes Word Loop Post Lines Decimal Utf8

section Walk

def BLOCK : ℕ := 512
def MAX_MEMBERS : ℕ := 1000000

/-- The last eight bytes of a binary field are enough for any size. -/
def parseTarNumeric : List UInt8 → Option ℕ
  | [] => none
  | first :: rest =>
    let field := first :: rest
    if first &&& 0x80 ≠ 0 then some (be (field.drop (field.length - 8)))
    else do
      let text := trim (← fromUtf8 (field.filter (· ≠ 0)))
      if text = [] then some 0 else parseOctal text

/-- The sum of a header in which the checksum is blank. -/
def headerSum (block : List UInt8) : ℕ :=
  (block.mapIdx fun i x => if 148 ≤ i ∧ i < 156 then 0x20 else x.toNat).sum

def tarChecksumOk (block : List UInt8) : Bool := parseTarNumeric (window block 148 8) == some (headerSum block)

def ustar : List UInt8 := [0x75, 0x73, 0x74, 0x61, 0x72]

/-- What is there of an archive that is cut off. -/
def complete (pos members : ℕ) : Option ℕ := if members = 0 then none else some pos

variable (b : Build) (src : Source) (fileStart limit : ℕ)

/-- The end of an archive that has a block of zeros at a position. -/
def archiveEnd (pos members : ℕ) : Exec (Option ℕ) := do
  let stop ← if satAdd pos (2 * BLOCK) ≤ limit - fileStart then plus b pos (2 * BLOCK) else plus b pos BLOCK
  return complete stop members

@[irreducible] def tarBody : ℕ × ℕ → Ctl (ℕ × ℕ) (Exec (Option ℕ))
  | (pos, members) =>
    let avail := limit - fileStart
    if avail < satAdd pos BLOCK then .done (.ok (complete pos members))
    else
      match plus b fileStart pos >>= (src.readAt · BLOCK) with
      | .error f => .done (.error f)
      | .ok block =>
        if block.length < BLOCK then .done (.ok (complete pos members))
        else if block.all (· = 0) then .done (archiveEnd b fileStart limit pos members)
        else if window block 257 5 ≠ ustar ∨ ¬ tarChecksumOk block then .done (.ok (complete pos members))
        else
          match parseTarNumeric (window block 124 12) with
          | none => .done (.ok (complete pos members))
          | some size =>
            let next := satAdd (satAdd pos BLOCK) (satMul (divCeil size BLOCK) BLOCK)
            if avail < next ∨ MAX_MEMBERS ≤ members then .done (.ok (complete pos members))
            else .next (next, members + 1)

theorem tarBody_decreases (s s' : ℕ × ℕ) (h : tarBody b src fileStart limit s = .next s') :
    MAX_MEMBERS - s'.2 < MAX_MEMBERS - s.2 := by
  obtain ⟨pos, members⟩ := s
  unfold tarBody at h
  dsimp only at h
  split_ifs at h
  split at h
  · cases h
  · split_ifs at h
    split at h
    · cases h
    · split_ifs at h with hstop
      cases h
      dsimp only
      omega

def tarLoop : While (ℕ × ℕ) (Exec (Option ℕ)) where
  body := tarBody b src fileStart limit
  measure s := MAX_MEMBERS - s.2
  decreases := tarBody_decreases b src fileStart limit

theorem tarLoop_body : (tarLoop b src fileStart limit).body = tarBody b src fileStart limit := rfl

def tarLength : Exec (Option ℕ) := (tarLoop b src fileStart limit).eval (0, 0)

end Walk

section Bound

variable {b : Build} {src : Source} {fileStart limit pos members : ℕ}

/-- A length that is positive and inside the limit. -/
def Within (avail : ℕ) (r : Option ℕ) : Prop := ∀ n ∈ r, 0 < n ∧ n ≤ avail

/-- The members walked so far are inside the limit. -/
def Walked (avail : ℕ) (s : ℕ × ℕ) : Prop := s.1 ≤ avail ∧ (s.2 ≠ 0 → 0 < s.1)

theorem within_complete {avail : ℕ} (hpos : pos ≤ avail) (hmembers : members ≠ 0 → 0 < pos) :
    Within avail (complete pos members) := by
  intro n hn
  unfold complete at hn
  split_ifs at hn with h
  · cases hn
  · cases hn
    exact ⟨hmembers h, hpos⟩

theorem satAdd_pos {x y : ℕ} (h : 0 < x + y) : 0 < satAdd x y := lt_min h (by decide)

theorem start_plus (hlimit : limit < 2 ^ 64) (hpos : pos ≤ limit - fileStart)
    (hblock : ¬ limit - fileStart < satAdd pos BLOCK) : plus b fileStart pos = .ok (fileStart + pos) := by
  apply plus_eq
  unfold satAdd BLOCK at hblock
  omega

/-- The blocks of zeros that are counted are inside the limit. -/
theorem archiveEnd_within (b : Build) (members : ℕ) {block : List UInt8}
    (hread : src.readAt (fileStart + pos) BLOCK = .ok block)
    (hlen : ¬ block.length < BLOCK) (hblock : ¬ limit - fileStart < satAdd pos BLOCK) :
    ∃ r, archiveEnd b fileStart limit pos members = .ok r ∧ Within (limit - fileStart) r := by
  have hsize : fileStart + pos + BLOCK < 2 ^ 63 := by
    have hwindow := src.size_lt
    rw [Source.readAt_ok hread, length_window] at hlen
    unfold BLOCK at hlen ⊢
    omega
  have hone : plus b pos BLOCK = .ok (pos + BLOCK) := plus_eq (by omega)
  have htwo : plus b pos (2 * BLOCK) = .ok (pos + 2 * BLOCK) := plus_eq (by unfold BLOCK at hsize ⊢; omega)
  have hpos : 0 < BLOCK := by decide
  unfold archiveEnd
  rw [hone, htwo]
  by_cases hfit : satAdd pos (2 * BLOCK) ≤ limit - fileStart
  · rw [if_pos hfit]
    rw [satAdd_eq (by unfold BLOCK at hsize ⊢; omega)] at hfit
    exact ⟨_, rfl, within_complete hfit fun _ => by omega⟩
  · rw [if_neg hfit]
    rw [satAdd_eq (by omega), not_lt] at hblock
    exact ⟨_, rfl, within_complete hblock fun _ => by omega⟩

/-- A round ends the walk inside the limit, or goes on to a place inside it. -/
theorem tarBody_cases (b : Build) (src : Source) (hlimit : limit < 2 ^ 64)
    (hs : Walked (limit - fileStart) (pos, members)) :
    (∃ x, tarBody b src fileStart limit (pos, members) = .done x ∧
      Ends (· = Fault.io) (Within (limit - fileStart)) x) ∨
    ∃ s, tarBody b src fileStart limit (pos, members) = .next s ∧ Walked (limit - fileStart) s := by
  have hpos : pos ≤ limit - fileStart := hs.1
  have hcut : Ends (· = Fault.io) (Within (limit - fileStart)) (.ok (complete pos members)) :=
    Ends.ok (within_complete hpos hs.2)
  unfold tarBody
  dsimp only
  by_cases hblock : limit - fileStart < satAdd pos BLOCK
  · rw [if_pos hblock]
    exact .inl ⟨_, rfl, hcut⟩
  rw [if_neg hblock, start_plus hlimit hpos hblock, exec_ok_bind]
  cases hread : src.readAt (fileStart + pos) BLOCK with
  | error f => exact .inl ⟨_, rfl, Ends.error (Source.readAt_error hread)⟩
  | ok block =>
    dsimp only
    by_cases hlen : block.length < BLOCK
    · rw [if_pos hlen]
      exact .inl ⟨_, rfl, hcut⟩
    rw [if_neg hlen]
    by_cases hzero : block.all (· = 0)
    · rw [if_pos hzero]
      obtain ⟨r, hr, hwithin⟩ := archiveEnd_within b members hread hlen hblock
      rw [hr]
      exact .inl ⟨_, rfl, Ends.ok hwithin⟩
    rw [if_neg hzero]
    by_cases hheader : window block 257 5 ≠ ustar ∨ ¬ tarChecksumOk block
    · rw [if_pos hheader]
      exact .inl ⟨_, rfl, hcut⟩
    rw [if_neg hheader]
    cases parseTarNumeric (window block 124 12) with
    | none => exact .inl ⟨_, rfl, hcut⟩
    | some size =>
      dsimp only
      by_cases hstop : limit - fileStart < satAdd (satAdd pos BLOCK) (satMul (divCeil size BLOCK) BLOCK) ∨
          MAX_MEMBERS ≤ members
      · rw [if_pos hstop]
        exact .inl ⟨_, rfl, hcut⟩
      · rw [if_neg hstop]
        rw [not_or, not_lt] at hstop
        refine .inr ⟨_, rfl, hstop.1, fun _ => ?_⟩
        have hblock : 0 < BLOCK := by decide
        exact satAdd_pos (Nat.add_pos_left (satAdd_pos (Nat.add_pos_right pos hblock)) _)

theorem sat_tarBody (b : Build) (src : Source) (hlimit : limit < 2 ^ 64) {s : ℕ × ℕ}
    (hs : Walked (limit - fileStart) s) : (tarBody b src fileStart limit s).Sat
      (Walked (limit - fileStart)) (Ends (· = Fault.io) (Within (limit - fileStart))) := by
  obtain ⟨pos, members⟩ := s
  exact Ctl.sat_of_cases (tarBody_cases b src hlimit hs)

/-- On any bytes the length found is positive and inside the limit. -/
theorem ends_tarLength (b : Build) (src : Source) (fileStart : ℕ) (hlimit : limit < 2 ^ 64) :
    Ends (· = Fault.io) (Within (limit - fileStart)) (tarLength b src fileStart limit) := by
  have hstep : ∀ s, Walked (limit - fileStart) s → ((tarLoop b src fileStart limit).body s).Sat
      (Walked (limit - fileStart)) (Ends (· = Fault.io) (Within (limit - fileStart))) :=
    fun s hs => by
      rw [tarLoop_body]
      exact sat_tarBody b src hlimit hs
  have hstart : Walked (limit - fileStart) (0, 0) := ⟨Nat.zero_le _, fun h => absurd rfl h⟩
  unfold tarLength
  exact (tarLoop b src fileStart limit).eval_inv (Q := Ends (· = Fault.io) (Within (limit - fileStart))) hstep hstart

end Bound

section Fields

/-- A number in octal digits, with blanks before it and blanks or zeros behind it. -/
def OctalField (n : ℕ) (field : List UInt8) : Prop :=
  ∃ (blanks : ℕ) (digits : Text) (fill : List UInt8),
    field = List.replicate blanks 0x20 ++ digits.map (fun c => UInt8.ofNat c.toNat) ++ fill ∧
      (∀ c ∈ digits, isOctal c) ∧ Nat.ofDigitChars 8 digits 0 = n ∧ ∀ x ∈ fill, x = 0 ∨ x = 0x20

/-- A number behind a mark, the highest byte first. -/
def BinaryField (n : ℕ) (field : List UInt8) : Prop :=
  ∃ rest, field = 0x80 :: rest ∧ 8 ≤ rest.length ∧ be rest = n

theorem octal_byte {c : Char} (h : isOctal c) :
    UInt8.ofNat c.toNat < 0x80 ∧ UInt8.ofNat c.toNat ≠ 0 ∧ Char.ofNat (UInt8.ofNat c.toNat).toNat = c := by
  simp only [isOctal, Bool.and_eq_true, decide_eq_true_eq] at h
  have hlow : 48 ≤ c.toNat := h.1
  have hhigh : c.toNat ≤ 55 := h.2
  have hbyte : (UInt8.ofNat c.toNat).toNat = c.toNat := by
    rw [UInt8.toNat_ofNat']
    omega
  refine ⟨?_, ?_, ?_⟩
  · rw [UInt8.lt_iff_toNat_lt, hbyte]
    exact hhigh.trans_lt (by decide)
  · intro hzero
    rw [hzero] at hbyte
    have hnil : (0 : UInt8).toNat = 0 := rfl
    omega
  · rw [hbyte, Char.ofNat_toNat]

theorem parse_octal {n : ℕ} {field : List UInt8} (h : OctalField n field) (hne : field ≠ []) (hn : n < 2 ^ 64) :
    parseTarNumeric field = some n := by
  obtain ⟨blanks, digits, fill, hfield, hdigits, rfl, hfill⟩ := h
  have hascii : ∀ x ∈ field, x < 0x80 := by
    intro x hx
    rw [hfield] at hx
    rcases List.mem_append.mp hx with hx | hx
    · rcases List.mem_append.mp hx with hx | hx
      · rw [List.eq_of_mem_replicate hx]
        decide
      · obtain ⟨c, hc, rfl⟩ := List.mem_map.mp hx
        exact (octal_byte (hdigits c hc)).1
    · rcases hfill x hx with rfl | rfl <;> decide
  obtain ⟨k, hk⟩ : ∃ k, fill.filter (· ≠ 0) = List.replicate k (0x20 : UInt8) := by
    refine ⟨_, List.eq_replicate_of_mem fun x hx => ?_⟩
    obtain ⟨hx, hzero⟩ := List.mem_filter.mp hx
    exact (hfill x hx).resolve_left (of_decide_eq_true hzero)
  have hnonzero : (digits.map fun c => UInt8.ofNat c.toNat).filter (· ≠ 0) =
      digits.map fun c => UInt8.ofNat c.toNat := by
    rw [List.filter_eq_self]
    intro x hx
    obtain ⟨c, hc, rfl⟩ := List.mem_map.mp hx
    exact decide_eq_true (octal_byte (hdigits c hc)).2.1
  have hback : (digits.map fun c => UInt8.ofNat c.toNat).map (fun x => Char.ofNat x.toNat) = digits := by
    rw [List.map_map, List.map_congr_left (g := id), List.map_id]
    exact fun c hc => (octal_byte (hdigits c hc)).2.2
  have hparsed : fromUtf8 (field.filter (· ≠ 0)) =
      some (List.replicate blanks ' ' ++ digits ++ List.replicate k ' ') := by
    rw [fromUtf8_ascii fun x hx => hascii x (List.mem_of_mem_filter hx), hfield, List.filter_append, List.filter_append,
      hk, hnonzero, List.filter_replicate_of_pos (by decide), List.map_append, List.map_append, hback,
      List.map_replicate, List.map_replicate]
    rfl
  obtain ⟨first, rest, rfl⟩ := List.exists_cons_of_ne_nil hne
  have hfirst : first &&& 0x80 = 0 := by
    have hlt : first.toNat < 2 ^ 7 := UInt8.lt_iff_toNat_lt.mp (hascii first List.mem_cons_self)
    have hbit : first.toNat.testBit 7 = false := Nat.testBit_lt_two_pow hlt
    rw [← UInt8.toNat_inj, UInt8.toNat_and]
    change first.toNat &&& 2 ^ 7 = 0
    rw [Nat.and_two_pow, hbit]
    rfl
  rw [parseTarNumeric]
  dsimp only
  rw [if_neg (not_not.mpr hfirst), hparsed]
  simp only [bind, Option.bind, trim_blanks]
  by_cases hnil : digits = []
  · subst hnil
    rfl
  · have htoken : Token digits := ⟨hnil, fun c hc => isWhitespace_of_isDigit (isDigit_of_isOctal (hdigits c hc))⟩
    rw [trim_token htoken, if_neg hnil, parseOctal_digits hnil hdigits hn]

theorem parse_binary {n : ℕ} {field : List UInt8} (h : BinaryField n field) (hn : n < 2 ^ 64) :
    parseTarNumeric field = some n := by
  obtain ⟨rest, rfl, hlen, rfl⟩ := h
  have hlow : (rest.drop (rest.length - 8)).length = 8 := by
    rw [List.length_drop]
    omega
  have hsplit := be_append (rest.take (rest.length - 8)) (rest.drop (rest.length - 8))
  rw [List.take_append_drop, hlow] at hsplit
  have hhigh : be (rest.take (rest.length - 8)) = 0 := by
    rw [hsplit] at hn
    by_contra hne
    have hge := Nat.le_mul_of_pos_left (256 ^ 8) (Nat.pos_of_ne_zero hne)
    omega
  have hdrop : ((0x80 : UInt8) :: rest).length - 8 = rest.length - 8 + 1 := by
    rw [List.length_cons]
    omega
  rw [hhigh, Nat.zero_mul, Nat.zero_add] at hsplit
  rw [parseTarNumeric]
  dsimp only
  rw [if_pos (by decide), hdrop, List.drop_succ_cons, hsplit]

end Fields

section Members

/-- A member with a correct checksum and its data filled up to whole blocks. -/
structure TarMember where
  name : List UInt8
  owner : List UInt8
  size : List UInt8
  time : List UInt8
  checksum : List UInt8
  link : List UInt8
  rest : List UInt8
  data : List UInt8
  fill : List UInt8
  name_length : name.length = 100
  owner_length : owner.length = 24
  size_length : size.length = 12
  time_length : time.length = 12
  checksum_length : checksum.length = 8
  link_length : link.length = 101
  rest_length : rest.length = 250
  fill_length : fill.length = (BLOCK - data.length % BLOCK) % BLOCK
  size_written : OctalField data.length size ∨ BinaryField data.length size
  checksum_written : OctalField
    ((name ++ owner ++ size ++ time ++ List.replicate 8 0x20 ++ (link ++ ustar ++ rest)).map UInt8.toNat).sum checksum

namespace TarMember

variable (m : TarMember)

def front : List UInt8 := m.name ++ m.owner ++ m.size ++ m.time

def header : List UInt8 := m.front ++ m.checksum ++ (m.link ++ ustar ++ m.rest)

def bytes : List UInt8 := m.header ++ m.data ++ m.fill

theorem length_front : m.front.length = 148 := by
  simp only [front, List.length_append, m.name_length, m.owner_length, m.size_length, m.time_length]

theorem length_header : m.header.length = BLOCK := by
  simp only [header, List.length_append, m.length_front, m.checksum_length, m.link_length, m.rest_length]
  decide

theorem length_bytes : m.bytes.length = BLOCK + divCeil m.data.length BLOCK * BLOCK := by
  rw [bytes, List.length_append, List.length_append, m.length_header, m.fill_length]
  unfold divCeil BLOCK
  omega

end TarMember

def archive (members : List TarMember) : List UInt8 := members.flatMap TarMember.bytes ++ List.replicate (2 * BLOCK) 0

theorem window_field {a c field : List UInt8} {i n : ℕ} (ha : a.length = i) (hn : field.length = n) :
    window (a ++ field ++ c) i n = field := by
  rw [← ha, ← hn]
  exact window_append a field c

theorem mapIdx_eq_map {l : List UInt8} {f : ℕ → UInt8 → ℕ} {g : UInt8 → ℕ}
    (h : ∀ i x, i < l.length → f i x = g x) : l.mapIdx f = l.map g := by
  apply List.ext_getElem
  · rw [List.length_mapIdx, List.length_map]
  · intro i hi _
    rw [List.getElem_mapIdx, List.getElem_map]
    exact h i _ (by rwa [List.length_mapIdx] at hi)

/-- The checksum is summed up as if it were blank. -/
theorem sum_blank (m : TarMember) : headerSum m.header = ((m.front ++ List.replicate 8 0x20 ++
    (m.link ++ ustar ++ m.rest)).map UInt8.toNat).sum := by
  have hfront := m.length_front
  have hchecksum := m.checksum_length
  have hblank : (m.checksum.map fun _ => 0x20) = (List.replicate 8 (0x20 : UInt8)).map UInt8.toNat := by
    rw [List.map_const', m.checksum_length, List.map_replicate]
    rfl
  rw [headerSum, TarMember.header, List.mapIdx_append, List.mapIdx_append, List.map_append, List.map_append,
    mapIdx_eq_map (l := m.front) (g := UInt8.toNat), mapIdx_eq_map (l := m.checksum) (g := fun _ => 0x20), hblank,
    mapIdx_eq_map (l := m.link ++ ustar ++ m.rest) (g := UInt8.toNat)]
  · intro i x _
    rw [if_neg]
    rw [List.length_append]
    omega
  · intro i x hi
    rw [if_pos]
    omega
  · intro i x hi
    rw [if_neg]
    omega

theorem tarChecksumOk_header (m : TarMember) : tarChecksumOk m.header = true := by
  have hfield : window m.header 148 8 = m.checksum := window_field m.length_front m.checksum_length
  have hlt : headerSum m.header < 2 ^ 64 := by
    rw [sum_blank]
    set blank := m.front ++ List.replicate 8 0x20 ++ (m.link ++ ustar ++ m.rest)
    have hle := List.sum_le_card_nsmul (blank.map UInt8.toNat) 255 (by
      intro n hn
      obtain ⟨x, -, rfl⟩ := List.mem_map.mp hn
      exact Nat.le_of_lt_succ x.toNat_lt)
    have hlength : blank.length = 512 := by
      simp only [blank, List.length_append, List.length_replicate, m.length_front, m.link_length, m.rest_length]
      decide
    rw [List.length_map, hlength, smul_eq_mul] at hle
    omega
  have hne : m.checksum ≠ [] := by
    rw [← List.length_pos_iff, m.checksum_length]
    decide
  have hwritten : OctalField (headerSum m.header) m.checksum := by
    rw [sum_blank]
    exact m.checksum_written
  rw [tarChecksumOk, hfield, parse_octal hwritten hne hlt]
  exact beq_self_eq_true _

variable {b : Build} {src : Source} {fileStart limit pos k : ℕ} {before : List UInt8}

theorem read_block {block : List UInt8} (rest : List UInt8) (hrel : src.Reliable)
    (hdata : src.data = before ++ block ++ rest) (hlen : block.length = BLOCK)
    (hpos : fileStart + pos = before.length) : plus b fileStart pos >>= (src.readAt · BLOCK) = .ok block := by
  have hsize := src.size_lt
  rw [hdata, List.length_append, List.length_append, hlen] at hsize
  rw [plus_eq (by omega), exec_ok_bind, hrel.readAt (by omega), hdata, hpos]
  exact congrArg _ (window_field rfl hlen)

theorem parse_size (m : TarMember) (hlt : m.data.length < 2 ^ 64) :
    parseTarNumeric (window m.header 124 12) = some m.data.length := by
  have hfield : window m.header 124 12 = m.size := by
    have hfront : (m.name ++ m.owner).length = 124 := by rw [List.length_append, m.name_length, m.owner_length]
    have hsplit : m.header = m.name ++ m.owner ++ m.size ++ (m.time ++ m.checksum ++ (m.link ++ ustar ++ m.rest)) := by
      simp only [TarMember.header, TarMember.front, List.append_assoc]
    rw [hsplit]
    exact window_field hfront m.size_length
  have hne : m.size ≠ [] := by
    rw [← List.length_pos_iff, m.size_length]
    decide
  rw [hfield]
  rcases m.size_written with h | h
  · exact parse_octal h hne hlt
  · exact parse_binary h hlt

/-- The walk goes from a member to what is behind it. -/
theorem tarBody_member (m : TarMember) (rest : List UInt8) (hrel : src.Reliable)
    (hdata : src.data = before ++ m.bytes ++ rest) (hpos : fileStart + pos = before.length)
    (hfit : before.length + m.bytes.length ≤ limit) (hlimit : limit < 2 ^ 64) (hk : k < MAX_MEMBERS) :
    tarBody b src fileStart limit (pos, k) = .next (pos + m.bytes.length, k + 1) := by
  have hlen := m.length_bytes
  have hmagic : window m.header 257 5 = ustar := by
    have hbefore : (m.front ++ m.checksum ++ m.link).length = 257 := by
      rw [List.length_append, List.length_append, m.length_front, m.checksum_length, m.link_length]
    have hsplit : m.header = m.front ++ m.checksum ++ m.link ++ ustar ++ m.rest := by
      simp only [TarMember.header, List.append_assoc]
    rw [hsplit]
    exact window_field hbefore rfl
  have hzero : ¬ m.header.all (· = 0) := by
    intro hall
    rw [List.all_eq_true] at hall
    have hmem : (0x75 : UInt8) ∈ m.header := by
      apply List.mem_of_mem_drop (i := 257)
      apply List.mem_of_mem_take (i := 5)
      change (0x75 : UInt8) ∈ window m.header 257 5
      rw [hmagic]
      exact List.mem_cons_self
    exact absurd (hall _ hmem) (by decide)
  have hread : plus b fileStart pos >>= (src.readAt · BLOCK) = .ok m.header := by
    apply read_block (m.data ++ m.fill ++ rest) hrel _ m.length_header hpos
    rw [hdata, TarMember.bytes]
    simp only [List.append_assoc]
  have hdatalen : m.data.length < 2 ^ 64 := by
    have hle : m.data.length ≤ m.bytes.length := by
      rw [TarMember.bytes, List.length_append, List.length_append]
      omega
    omega
  have hone : satAdd pos BLOCK = pos + BLOCK := satAdd_eq (by omega)
  have hmul : satMul (divCeil m.data.length BLOCK) BLOCK = divCeil m.data.length BLOCK * BLOCK := satMul_eq (by omega)
  have hnext : satAdd (pos + BLOCK) (divCeil m.data.length BLOCK * BLOCK) = pos + m.bytes.length := by
    rw [satAdd_eq (by omega), hlen, Nat.add_assoc]
  have hheader : ¬ (window m.header 257 5 ≠ ustar ∨ ¬ tarChecksumOk m.header) := by
    rw [hmagic, tarChecksumOk_header]
    simp
  unfold tarBody
  dsimp only
  rw [hone, if_neg (by omega), hread]
  dsimp only
  rw [if_neg m.length_header.not_lt, if_neg hzero, if_neg hheader,
    parse_size m hdatalen]
  dsimp only
  rw [hmul, hnext, if_neg (by omega)]

/-- The walk ends behind two blocks of zeros. -/
theorem tarBody_zeros {rest : List UInt8} (hrel : src.Reliable)
    (hdata : src.data = before ++ List.replicate (2 * BLOCK) 0 ++ rest) (hpos : fileStart + pos = before.length)
    (hfit : before.length + 2 * BLOCK ≤ limit) (hlimit : limit < 2 ^ 64) (hk : k ≠ 0) :
    tarBody b src fileStart limit (pos, k) = .done (.ok (some (pos + 2 * BLOCK))) := by
  have hread : plus b fileStart pos >>= (src.readAt · BLOCK) = .ok (List.replicate BLOCK 0) := by
    apply read_block (List.replicate BLOCK 0 ++ rest) hrel _ List.length_replicate hpos
    rw [hdata, Nat.two_mul, List.replicate_add]
    simp only [List.append_assoc]
  have hzero : (List.replicate BLOCK (0 : UInt8)).all (· = 0) := by
    rw [List.all_replicate]
    simp
  have hone : satAdd pos BLOCK = pos + BLOCK := satAdd_eq (by omega)
  have htwo : satAdd pos (2 * BLOCK) = pos + 2 * BLOCK := satAdd_eq (by omega)
  have hplus : plus b pos (2 * BLOCK) = .ok (pos + 2 * BLOCK) := plus_eq (by omega)
  unfold tarBody
  dsimp only
  rw [hone, if_neg (by omega), hread]
  dsimp only
  rw [if_neg List.length_replicate.not_lt, if_pos hzero, archiveEnd, htwo, if_pos (by omega), hplus]
  simp only [bind, Except.bind, complete, if_neg hk]
  rfl

/-- The walk over the rest of an archive. -/
theorem eval_members {members : List TarMember} (before : List UInt8) {rest : List UInt8}
    (hrel : src.Reliable) (hdata : src.data = before ++ archive members ++ rest)
    (hpos : fileStart + pos = before.length) (hfit : before.length + (archive members).length ≤ limit)
    (hlimit : limit < 2 ^ 64) (hmax : k + members.length ≤ MAX_MEMBERS) (hk : k + members.length ≠ 0) :
    (tarLoop b src fileStart limit).eval (pos, k) = .ok (some (pos + (archive members).length)) := by
  induction members generalizing before pos k with
  | nil =>
    rw [archive, List.flatMap_nil, List.nil_append] at hdata hfit ⊢
    rw [List.length_replicate] at hfit ⊢
    exact (tarLoop b src fileStart limit).eval_done (tarBody_zeros hrel hdata hpos hfit hlimit hk)
  | cons m members ih =>
    have hcons : archive (m :: members) = m.bytes ++ archive members := by
      rw [archive, archive, List.flatMap_cons, List.append_assoc]
    rw [hcons, List.length_append] at hfit ⊢
    rw [hcons] at hdata
    rw [List.length_cons] at hmax
    have hstep : tarBody b src fileStart limit (pos, k) = .next (pos + m.bytes.length, k + 1) := by
      apply tarBody_member m (archive members ++ rest) hrel _ hpos (by omega) hlimit (by omega)
      rw [hdata]
      simp only [List.append_assoc]
    rw [(tarLoop b src fileStart limit).eval_next hstep, ← Nat.add_assoc]
    apply ih (before ++ m.bytes)
    · rw [hdata]
      simp only [List.append_assoc]
    · rw [List.length_append]
      omega
    · rw [List.length_append]
      omega
    · omega
    · omega

end Members

/-- The length of an archive of at least one member is found with its two blocks of zeros, whatever is
behind them; and on any bytes the walk ends, and what it finds is positive and inside the limit. -/
theorem tar_length_exact :
    (∀ (b : Build) (src : Source) (before rest : List UInt8) (members : List TarMember) (limit : ℕ),
      src.Reliable → src.data = before ++ archive members ++ rest → members ≠ [] →
      members.length ≤ MAX_MEMBERS → before.length + (archive members).length ≤ limit → limit < 2 ^ 64 →
      tarLength b src before.length limit = .ok (some (archive members).length)) ∧
    ∀ (b : Build) (src : Source) (fileStart limit : ℕ), limit < 2 ^ 64 →
      Ends (· = Fault.io) (Within (limit - fileStart)) (tarLength b src fileStart limit) := by
  refine ⟨?_, fun b src fileStart limit hlimit => ends_tarLength b src fileStart hlimit⟩
  intro b src before rest members limit hrel hdata hne hmax hfit hlimit
  have hlen := List.length_pos_iff.mpr hne
  unfold tarLength
  rw [eval_members before hrel hdata (Nat.add_zero _) hfit hlimit (by omega) (by omega), Nat.zero_add]

/-- A member of one byte, with its size and its checksum in octal digits. -/
def oneByte : TarMember where
  name := List.replicate 100 0x61
  owner := List.replicate 24 0x30
  size := List.replicate 10 0x30 ++ [0x31, 0]
  time := List.replicate 12 0x30
  checksum := [0x30, 0x33, 0x30, 0x37, 0x34, 0x34, 0, 0x20]
  link := List.replicate 101 0
  rest := List.replicate 250 0
  data := [7]
  fill := List.replicate 511 0
  name_length := rfl
  owner_length := rfl
  size_length := rfl
  time_length := rfl
  checksum_length := rfl
  link_length := rfl
  rest_length := rfl
  fill_length := List.length_replicate
  size_written := .inl ⟨0, List.replicate 10 '0' ++ ['1'], [0], rfl, List.all_eq_true.mp rfl, rfl, by simp⟩
  checksum_written := ⟨0, ['0', '3', '0', '7', '4', '4'], [0, 0x20], rfl, List.all_eq_true.mp rfl,
    by decide +kernel, by simp⟩

def tarSource : Source where
  data := [5] ++ archive [oneByte] ++ [9]
  size_lt := by decide +kernel

theorem one_member_archive : (archive [oneByte]).length = 2048 ∧
    tarLength .debug tarSource 1 2049 = .ok (some (archive [oneByte]).length) := by
  have hlen : (archive [oneByte]).length = 2048 := by decide +kernel
  refine ⟨hlen, tar_length_exact.1 .debug tarSource [5] [9] [oneByte] 2049 (fun _ _ => rfl) rfl (List.cons_ne_nil _ _)
    (by decide) ?_ (by decide)⟩
  rw [hlen]
  decide

end Unearth.Tar
