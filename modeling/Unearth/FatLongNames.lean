import Unearth.FatDirectory
import Unearth.Lib.Utf16Cut

/-!
# Long names in a FAT directory

A long name is stored in pieces of 13 units, the last piece first, before the entry that it
belongs to. The pieces are decoded one by one, so that a character goes missing where its two
units are in two pieces.
-/

namespace Unearth

open Bytes

/-- Pieces of `n` bytes are cut out of their row as they are. -/
theorem chunksExact_flatten {n : ℕ} (hn : 0 < n) {rows : List (List UInt8)}
    (h : ∀ row ∈ rows, row.length = n) : chunksExact n rows.flatten = rows := by
  induction rows with
  | nil => simp [chunksExact]
  | cons row rows ih =>
    have hrow := h row List.mem_cons_self
    have hrest := ih fun r hr => h r (List.mem_cons_of_mem _ hr)
    have hcount : (row ++ rows.flatten).length / n = rows.flatten.length / n + 1 := by
      rw [List.length_append, hrow, Nat.add_div_left _ hn]
    have hfirst : window (row ++ rows.flatten) (n * 0) n = row := by
      rw [Nat.mul_zero, window, List.drop_zero, ← hrow, List.take_left]
    have hlater : ∀ i, window (row ++ rows.flatten) (n * (i + 1)) n = window rows.flatten (n * i) n := by
      intro i
      rw [window, Nat.mul_succ, Nat.add_comm, ← List.drop_drop, ← hrow, List.drop_left]
      rfl
    rw [chunksExact, List.flatten_cons, hcount, List.range_succ_eq_map, List.map_cons, hfirst, List.map_map]
    exact congrArg (row :: ·) ((List.map_congr_left fun i _ => hlater i).trans hrest)

namespace Fat
open Lines Bytes Utf16

section Layout

/-- The units of a slot. A name that ends in it has a terminator, and padding behind that. -/
def padded (units : List ℕ) : List ℕ :=
  if units.length < 13 then units ++ 0 :: List.replicate (12 - units.length) 0xFFFF else units

/-- The units of a name in `n` slots. -/
def pieces : ℕ → List ℕ → List (List ℕ)
  | 0, _ => []
  | n + 1, units => padded (units.take 13) :: pieces n (units.drop 13)

def unitBytes (u : ℕ) : List UInt8 := [UInt8.ofNat (u % 256), UInt8.ofNat (u / 256)]

def lfnSlot (order checksum : UInt8) (units : List ℕ) : List UInt8 :=
  [order] ++ (units.take 5).flatMap unitBytes ++ [attrLfn, 0, checksum] ++
    ((units.drop 5).take 6).flatMap unitBytes ++ [0, 0] ++ (units.drop 11).flatMap unitBytes

def slotCount (units : List ℕ) : ℕ := (units.length + 12) / 13

/-- The first byte of the `k`-th slot; the last slot of a name is marked. -/
def orderByte (deleted : Bool) (count k : ℕ) : UInt8 :=
  if deleted then deletedMarker else UInt8.ofNat (if k + 1 = count then 0x40 + (k + 1) else k + 1)

def lfnSlots (deleted : Bool) (checksum : UInt8) (name : Text) : List (List UInt8) :=
  let units := encodeUtf16 name
  let count := slotCount units
  ((pieces count units).zipIdx.map fun (piece, k) =>
    lfnSlot (orderByte deleted count k) checksum piece).reverse

/-- The slot of a file or of a directory. -/
structure ShortEntry (slot : List UInt8) : Prop where
  length : slot.length = entrySize
  used : byteAt slot 0 ≠ 0
  short : byteAt slot 11 ≠ attrLfn
  no_label : ¬ (byteAt slot 11 &&& attrVolumeId ≠ 0 ∧ byteAt slot 11 &&& attrDirectory = 0)

/-- The two units of a character are in two slots. -/
def PairCut (units : List ℕ) : Prop :=
  ∃ k u v, units[13 * k + 12]? = some u ∧ units[13 * k + 13]? = some v ∧ joined u v = true

end Layout

section Slots

variable {units : List ℕ}

theorem unitsOf_unitBytes (h : ∀ u ∈ units, u < 2 ^ 16) : unitsOf (units.flatMap unitBytes) = units := by
  induction units with
  | nil => rfl
  | cons u units ih =>
    have hu := h u List.mem_cons_self
    have hbytes : (UInt8.ofNat (u % 256)).toNat + 256 * (UInt8.ofNat (u / 256)).toNat = u := by
      rw [UInt8.toNat_ofNat', UInt8.toNat_ofNat']
      omega
    rw [List.flatMap_cons]
    change _ :: unitsOf (units.flatMap unitBytes) = _
    rw [ih fun v hv => h v (List.mem_cons_of_mem _ hv), hbytes]

theorem length_unitBytes (units : List ℕ) : (units.flatMap unitBytes).length = 2 * units.length := by
  induction units with
  | nil => rfl
  | cons u units ih =>
    rw [List.flatMap_cons, List.length_append, ih, List.length_cons]
    change 2 + _ = _
    omega

theorem length_padded (units : List ℕ) (h : units.length ≤ 13) : (padded units).length = 13 := by
  unfold padded
  split_ifs with hlen
  · rw [List.length_append, List.length_cons, List.length_replicate]
    omega
  · omega

theorem length_lfnSlot (order checksum : UInt8) (h : units.length = 13) :
    (lfnSlot order checksum units).length = entrySize := by
  simp only [lfnSlot, List.length_append, List.length_cons, List.length_nil, length_unitBytes,
    List.length_take, List.length_drop, h, entrySize]
  omega

/-- The pieces of a slot that hold the name. -/
theorem window_lfnSlot (order checksum : UInt8) (h : units.length = 13) :
    window (lfnSlot order checksum units) 1 10 = (units.take 5).flatMap unitBytes ∧
      window (lfnSlot order checksum units) 14 12 = ((units.drop 5).take 6).flatMap unitBytes ∧
      window (lfnSlot order checksum units) 28 4 = (units.drop 11).flatMap unitBytes := by
  have hfirst := window_append [order] ((units.take 5).flatMap unitBytes) ([attrLfn, 0, checksum] ++
    ((units.drop 5).take 6).flatMap unitBytes ++ [0, 0] ++ (units.drop 11).flatMap unitBytes)
  have hsecond := window_append ([order] ++ (units.take 5).flatMap unitBytes ++ [attrLfn, 0, checksum])
    (((units.drop 5).take 6).flatMap unitBytes) ([0, 0] ++ (units.drop 11).flatMap unitBytes)
  have hthird := window_append ([order] ++ (units.take 5).flatMap unitBytes ++ [attrLfn, 0, checksum] ++
    ((units.drop 5).take 6).flatMap unitBytes ++ [0, 0]) ((units.drop 11).flatMap unitBytes) []
  simp only [List.length_append, List.length_cons, List.length_nil, length_unitBytes, List.length_take,
    List.length_drop, h] at hfirst hsecond hthird
  simp only [List.append_assoc, List.append_nil] at hfirst hsecond hthird
  rw [lfnSlot]
  simp only [List.append_assoc]
  exact ⟨hfirst, hsecond, hthird⟩

theorem extract_lfnSlot (order checksum : UInt8) (h : units.length = 13) (hwords : ∀ u ∈ units, u < 2 ^ 16) :
    extractLfnChars (lfnSlot order checksum units) = lfnChars (decodeUtf16 units) := by
  obtain ⟨hfirst, hsecond, hthird⟩ := window_lfnSlot order checksum h
  have hjoin : units.take 5 ++ (units.drop 5).take 6 ++ units.drop 11 = units := by
    have hdrop : units.drop 11 = (units.drop 5).drop 6 := by rw [List.drop_drop]
    rw [List.append_assoc, hdrop, List.take_append_drop, List.take_append_drop]
  rw [extractLfnChars, hfirst, hsecond, hthird, ← List.flatMap_append, ← List.flatMap_append, hjoin,
    unitsOf_unitBytes hwords]

theorem byteAt_lfnSlot (order checksum : UInt8) (h : units.length = 13) :
    byteAt (lfnSlot order checksum units) 0 = order ∧ byteAt (lfnSlot order checksum units) 11 = attrLfn := by
  have hlen : ([order] ++ (units.take 5).flatMap unitBytes).length = 11 := by
    rw [List.length_append, length_unitBytes, List.length_take, h]
    rfl
  constructor
  · rfl
  · rw [lfnSlot]
    simp only [List.append_assoc]
    rw [← List.append_assoc, byteAt_append, hlen, if_neg (lt_irrefl 11)]
    rfl

/-- The slots of a long name are gathered, first come first. -/
theorem entriesFrom_lfn {slots rest : List (List UInt8)} (parts : List Text) (i : ℕ)
    (h : ∀ slot ∈ slots, byteAt slot 0 ≠ 0 ∧ byteAt slot 11 = attrLfn) :
    entriesFrom parts i (slots ++ rest) =
      entriesFrom (parts ++ slots.map extractLfnChars) (i + slots.length) rest := by
  induction slots generalizing parts i with
  | nil => simp
  | cons slot slots ih =>
    obtain ⟨hused, hattr⟩ := h slot List.mem_cons_self
    rw [List.cons_append, entriesFrom]
    dsimp only
    rw [if_neg hused, if_pos hattr, ih _ _ fun s hs => h s (List.mem_cons_of_mem _ hs), List.map_cons,
      List.append_assoc, List.singleton_append, List.length_cons, Nat.add_assoc, Nat.add_comm 1]

end Slots

section Pieces

theorem lfnChars_append_terminator (l rest : List (Option Char)) :
    lfnChars (l ++ some '\x00' :: rest) = lfnChars l := by
  induction l with
  | nil => rfl
  | cons x l ih =>
    cases x with
    | none => exact ih
    | some c =>
      rw [List.cons_append, lfnChars, lfnChars, ih]

/-- Neither the terminator nor the padding is among the units of a name. -/
def Plain (units : List ℕ) : Prop := ∀ u ∈ units, u < 2 ^ 16 ∧ u ≠ 0 ∧ u ≠ 0xFFFF

theorem unit_plain {u : ℕ} {c : Char} (h : u < 2 ^ 16 ∧ u ≠ 0 ∧ u ≠ 0xFFFF) (hc : unit u = some c) :
    c ≠ '\x00' ∧ c ≠ '\uFFFF' := by
  unfold unit at hc
  split_ifs at hc with hsurrogate
  cases hc
  obtain ⟨hhigh, hlow⟩ := Bool.or_eq_false_iff.mp (Bool.eq_false_iff.mpr hsurrogate)
  have hcode := toNat_ofNat_unit h.1 hlow hhigh
  constructor
  · intro heq
    rw [heq] at hcode
    exact h.2.1 hcode.symm
  · intro heq
    rw [heq] at hcode
    exact h.2.2 hcode.symm

theorem pair_plain {u v : ℕ} (h : joined u v = true) : pair u v ≠ '\x00' ∧ pair u v ≠ '\uFFFF' := by
  simp only [joined, isHigh, isLow, Bool.and_eq_true, decide_eq_true_eq] at h
  have hvalid : (0x10000 + (u - 0xD800) * 0x400 + (v - 0xDC00)).isValidChar := by
    unfold Nat.isValidChar
    omega
  have hcode : (pair u v).toNat = 0x10000 + (u - 0xD800) * 0x400 + (v - 0xDC00) := by
    rw [pair, Char.ofNat, dif_pos hvalid]
    rfl
  constructor
  · intro heq
    rw [heq] at hcode
    change 0 = _ at hcode
    omega
  · intro heq
    rw [heq] at hcode
    change 0xFFFF = _ at hcode
    omega

theorem lfnChars_decode {units : List ℕ} (h : Plain units) : lfnChars (decodeUtf16 units) = charsOf units := by
  induction units using decodeUtf16.induct with
  | case1 => rfl
  | case2 u =>
    change lfnChars [unit u] = [unit u].reduceOption
    cases hunit : unit u with
    | none => rfl
    | some c =>
      obtain ⟨hzero, hpad⟩ := unit_plain (h u List.mem_cons_self) hunit
      simp only [lfnChars, if_neg hzero, if_neg hpad]
      rfl
  | case3 u v rest hpair ih =>
    obtain ⟨hzero, hpad⟩ := pair_plain hpair
    unfold charsOf at ih ⊢
    rw [decode_pair hpair, lfnChars, if_neg hzero, if_neg hpad,
      ih fun w hw => h w (List.mem_cons_of_mem _ (List.mem_cons_of_mem _ hw)), List.reduceOption_cons_of_some]
  | case4 u v rest hpair ih =>
    have hhead : ∀ w ∈ (v :: rest).head?, joined u w = false := by
      rintro w ⟨⟩
      simpa [joined] using hpair
    have hrest := ih fun w hw => h w (List.mem_cons_of_mem _ hw)
    unfold charsOf at hrest ⊢
    rw [decode_cons hhead]
    cases hunit : unit u with
    | none => rw [lfnChars, hrest, List.reduceOption_cons_of_none]
    | some c =>
      obtain ⟨hzero, hpad⟩ := unit_plain (h u List.mem_cons_self) hunit
      rw [lfnChars, if_neg hzero, if_neg hpad, hrest, List.reduceOption_cons_of_some]

theorem lfnChars_padded {units : List ℕ} (h : Plain units) :
    lfnChars (decodeUtf16 (padded units)) = charsOf units := by
  unfold padded
  split_ifs with hlen
  · have hzero : ∀ rest : List ℕ, decodeUtf16 (0 :: rest) = some '\x00' :: decodeUtf16 rest := by
      intro rest
      refine (decode_cons fun v _ => ?_).trans rfl
      exact Bool.false_and _
    rw [decode_append, hzero, lfnChars_append_terminator, lfnChars_decode h]
    rintro u - v ⟨⟩
    exact Bool.and_false _
  · exact lfnChars_decode h

/-- The text of a name that is decoded in `n` pieces. -/
def pieceText (n : ℕ) (units : List ℕ) : Text :=
  ((pieces n units).map fun piece => lfnChars (decodeUtf16 piece)).flatten

theorem Plain.take {units : List ℕ} (h : Plain units) (n : ℕ) : Plain (units.take n) :=
  fun u hu => h u (List.mem_of_mem_take hu)

theorem Plain.drop {units : List ℕ} (h : Plain units) (n : ℕ) : Plain (units.drop n) :=
  fun u hu => h u (List.mem_of_mem_drop hu)

theorem pieceText_succ {n : ℕ} {units : List ℕ} (h : Plain units) :
    pieceText (n + 1) units = charsOf (units.take 13) ++ pieceText n (units.drop 13) := by
  rw [pieceText, pieces, List.map_cons, List.flatten_cons, lfnChars_padded (h.take 13)]
  rfl

theorem pairCut_drop {units : List ℕ} (h : ¬ ∃ u v, units[12]? = some u ∧ units[13]? = some v ∧ joined u v = true) :
    PairCut units ↔ PairCut (units.drop 13) := by
  constructor
  · rintro ⟨_ | k, u, v, hu, hv, hjoined⟩
    · exact absurd ⟨u, v, hu, hv, hjoined⟩ h
    · refine ⟨k, u, v, ?_, ?_, hjoined⟩
      · rw [List.getElem?_drop, ← hu]
        congr 1
        omega
      · rw [List.getElem?_drop, ← hv]
        congr 1
        omega
  · rintro ⟨k, u, v, hu, hv, hjoined⟩
    rw [List.getElem?_drop] at hu hv
    refine ⟨k + 1, u, v, ?_, ?_, hjoined⟩
    · rw [← hu]
      congr 1
      omega
    · rw [← hv]
      congr 1
      omega

/-- The pieces together have the characters of the name exactly when no pair of units is cut;
otherwise they have fewer. -/
theorem pieceText_iff {n : ℕ} {units : List ℕ} (h : Plain units) (hn : units.length ≤ 13 * n) :
    (pieceText n units).length ≤ (charsOf units).length ∧ (pieceText n units = charsOf units ↔ ¬ PairCut units) := by
  induction n generalizing units with
  | zero =>
    have hnil : units = [] := List.eq_nil_of_length_eq_zero (by omega)
    subst hnil
    refine ⟨le_rfl, iff_of_true rfl ?_⟩
    rintro ⟨k, u, v, hu, -⟩
    cases hu
  | succ n ih =>
    obtain ⟨hle, hiff⟩ := ih (h.drop 13) (by rw [List.length_drop]; omega)
    rw [pieceText_succ h]
    by_cases hcut : ∃ u v, units[12]? = some u ∧ units[13]? = some v ∧ joined u v = true
    · obtain ⟨u, v, hu, hv, hjoined⟩ := hcut
      have htake : units.take 13 = units.take 12 ++ [u] := by
        rw [List.take_add_one, hu]
        rfl
      have hdrop : units.drop 13 = v :: units.drop 14 := by
        obtain ⟨hlt, hget⟩ := List.getElem?_eq_some_iff.mp hv
        rw [List.drop_eq_getElem_cons hlt, hget]
      have hlength := @length_charsOf_cut u v (units.take 12) (units.drop 14) hjoined
      rw [← htake, ← hdrop, List.take_append_drop] at hlength
      have hless : (charsOf (units.take 13) ++ pieceText n (units.drop 13)).length < (charsOf units).length := by
        rw [List.length_append]
        omega
      refine ⟨hless.le, iff_of_false (fun heq => ?_) fun hno => hno ⟨0, u, v, hu, hv, hjoined⟩⟩
      rw [heq] at hless
      exact lt_irrefl _ hless
    · have hsplit : charsOf units = charsOf (units.take 13) ++ charsOf (units.drop 13) := by
        conv_lhs => rw [← List.take_append_drop 13 units]
        refine charsOf_append fun u hu v hv => ?_
        by_contra hjoined
        rw [List.head?_drop] at hv
        have hlt := (List.getElem?_eq_some_iff.mp hv).1
        rw [List.getLast?_take, if_neg (by decide)] at hu
        refine hcut ⟨u, v, ?_, hv, by simpa using hjoined⟩
        rw [show (13 - 1) = 12 from rfl, List.getElem?_eq_getElem (show 12 < units.length by omega)] at hu
        exact (List.getElem?_eq_getElem (show 12 < units.length by omega)).trans hu
      rw [hsplit, List.length_append, List.length_append, pairCut_drop hcut, ← hiff, List.append_cancel_left_eq]
      exact ⟨by omega, Iff.rfl⟩

end Pieces

section Directory

theorem mem_lfnChars {l : List (Option Char)} {c : Char} (h : c ∈ lfnChars l) : c ≠ '\x00' ∧ c ≠ '\uFFFF' := by
  induction l with
  | nil => cases h
  | cons x l ih =>
    cases x with
    | none => exact ih h
    | some d =>
      rw [lfnChars] at h
      split_ifs at h with hzero hpad
      · cases h
      · exact ih h
      · rcases List.mem_cons.mp h with rfl | h
        · exact ⟨hzero, hpad⟩
        · exact ih h

/-- There is nothing to trim off the pieces of a name. -/
theorem assembleLfn_reverse (n : ℕ) (units : List ℕ) :
    assembleLfn ((pieces n units).map fun piece => lfnChars (decodeUtf16 piece)).reverse = pieceText n units := by
  have hplain : ∀ c ∈ (pieceText n units).reverse, ¬ (decide (c = '\x00' ∨ c = '\uFFFF') = true) := by
    intro c hc
    obtain ⟨text, htext, hc⟩ := List.mem_flatten.mp (List.mem_reverse.mp hc)
    obtain ⟨piece, -, rfl⟩ := List.mem_map.mp htext
    obtain ⟨hzero, hpad⟩ := mem_lfnChars hc
    simp [hzero, hpad]
  have hdrop : ((pieceText n units).reverse.dropWhile fun c => c = '\x00' || c = '\uFFFF') =
      (pieceText n units).reverse := by
    rw [List.dropWhile_eq_self_iff]
    intro hlen
    simpa using hplain _ (List.getElem_mem hlen)
  rw [assembleLfn, List.reverse_reverse]
  change ((pieceText n units).reverse.dropWhile _).reverse = _
  rw [hdrop, List.reverse_reverse]

theorem length_of_mem_pieces {n : ℕ} {units piece : List ℕ} (h : piece ∈ pieces n units) : piece.length = 13 := by
  induction n generalizing units with
  | zero => cases h
  | succ n ih =>
    rcases List.mem_cons.mp h with rfl | h
    · exact length_padded _ (List.length_take_le 13 units)
    · exact ih h

theorem word_of_mem_pieces {n : ℕ} {units piece : List ℕ} (hplain : Plain units) (h : piece ∈ pieces n units) :
    ∀ u ∈ piece, u < 2 ^ 16 := by
  induction n generalizing units with
  | zero => cases h
  | succ n ih =>
    rcases List.mem_cons.mp h with rfl | h
    · intro u hu
      unfold padded at hu
      split_ifs at hu
      · rcases List.mem_append.mp hu with hu | hu
        · exact (hplain.take 13 u hu).1
        · rcases List.mem_cons.mp hu with rfl | hu
          · decide
          · rw [(List.mem_replicate.mp hu).2]
            decide
      · exact (hplain.take 13 u hu).1
    · exact ih (hplain.drop 13) h

theorem length_pieces (n : ℕ) (units : List ℕ) : (pieces n units).length = n := by
  induction n generalizing units with
  | zero => rfl
  | succ n ih => exact congrArg (· + 1) (ih _)

theorem orderByte_ne_zero (deleted : Bool) {count k : ℕ} (hcount : count ≤ 20) (hk : k < count) :
    orderByte deleted count k ≠ 0 := by
  unfold orderByte
  cases deleted with
  | true =>
    change deletedMarker ≠ 0
    decide
  | false =>
    intro h
    have hnat := congrArg UInt8.toNat h
    simp only [Bool.false_eq_true, if_false, UInt8.toNat_ofNat'] at hnat
    change _ = 0 at hnat
    split_ifs at hnat <;> omega

theorem plain_encodeUtf16 {name : Text} (h : ∀ c ∈ name, c ≠ '\x00' ∧ c ≠ '\uFFFF') : Plain (encodeUtf16 name) := by
  intro u hu
  obtain ⟨hword, ⟨c, hc, rfl⟩ | hhigh | hlow⟩ := mem_encodeUtf16 hu
  · obtain ⟨hzero, hpad⟩ := h c hc
    refine ⟨hword, fun heq => hzero ?_, fun heq => hpad ?_⟩
    · rw [← Char.ofNat_toNat c, heq]
    · rw [← Char.ofNat_toNat c, heq]
  · simp only [isHigh, Bool.and_eq_true, decide_eq_true_eq] at hhigh
    omega
  · simp only [isLow, Bool.and_eq_true, decide_eq_true_eq] at hlow
    omega

/-- What is known of a slot of a long name. -/
theorem mem_lfnSlots {deleted : Bool} {checksum : UInt8} {name : Text} {slot : List UInt8}
    (hlen : (encodeUtf16 name).length ≤ 255) (h : slot ∈ lfnSlots deleted checksum name) :
    slot.length = entrySize ∧ byteAt slot 0 ≠ 0 ∧ byteAt slot 11 = attrLfn := by
  obtain ⟨⟨piece, k⟩, hmem, rfl⟩ := List.mem_map.mp (List.mem_reverse.mp h)
  have hpiece := length_of_mem_pieces (List.fst_mem_of_mem_zipIdx hmem)
  have hk := List.snd_lt_of_mem_zipIdx hmem
  rw [length_pieces, Nat.add_zero] at hk
  obtain ⟨hfirst, hattr⟩ := byteAt_lfnSlot (orderByte deleted (slotCount (encodeUtf16 name)) k) checksum hpiece
  have hcount : slotCount (encodeUtf16 name) ≤ 20 := by
    unfold slotCount
    omega
  refine ⟨length_lfnSlot _ _ hpiece, ?_, hattr⟩
  rw [hfirst]
  exact orderByte_ne_zero deleted hcount hk

theorem map_extract_lfnSlots (deleted : Bool) (checksum : UInt8) {name : Text} (hplain : Plain (encodeUtf16 name)) :
    (lfnSlots deleted checksum name).map extractLfnChars =
      ((pieces (slotCount (encodeUtf16 name)) (encodeUtf16 name)).map fun piece =>
        lfnChars (decodeUtf16 piece)).reverse := by
  rw [lfnSlots, List.map_reverse, List.map_map]
  refine congrArg List.reverse ?_
  rw [← List.zipIdx_map_fst 0 (pieces (slotCount (encodeUtf16 name)) (encodeUtf16 name)), List.map_map,
    List.zipIdx_map_fst]
  refine List.map_congr_left fun p hp => ?_
  have hmem := List.fst_mem_of_mem_zipIdx hp
  exact extract_lfnSlot _ _ (length_of_mem_pieces hmem) (word_of_mem_pieces hplain hmem)

/-- A long name comes back as it was exactly when no character has its units in two slots. -/
theorem long_name_iff {name : Text} {short : List UInt8} (deleted : Bool) (checksum : UInt8)
    (hpos : 1 ≤ (encodeUtf16 name).length) (hlen : (encodeUtf16 name).length ≤ 255)
    (hchars : ∀ c ∈ name, c ≠ '\x00' ∧ c ≠ '\uFFFF') (hshort : ShortEntry short) :
    (∃ e, parseEntries ((lfnSlots deleted checksum name ++ [short]).flatten) = [e] ∧ e.name = name) ↔
      ¬ PairCut (encodeUtf16 name) := by
  have hplain := plain_encodeUtf16 hchars
  have hrows : ∀ row ∈ lfnSlots deleted checksum name ++ [short], row.length = entrySize := by
    intro row hrow
    rcases List.mem_append.mp hrow with hrow | hrow
    · exact (mem_lfnSlots hlen hrow).1
    · cases List.mem_singleton.mp hrow
      exact hshort.length
  have hcount : 1 ≤ slotCount (encodeUtf16 name) := by
    unfold slotCount
    omega
  have hparts : (lfnSlots deleted checksum name).map extractLfnChars ≠ [] := by
    intro hnil
    have hzero := congrArg List.length hnil
    rw [map_extract_lfnSlots deleted checksum hplain, List.length_reverse, List.length_map, length_pieces] at hzero
    change _ = 0 at hzero
    omega
  have hname : assembleLfn ((lfnSlots deleted checksum name).map extractLfnChars) =
      pieceText (slotCount (encodeUtf16 name)) (encodeUtf16 name) := by
    rw [map_extract_lfnSlots deleted checksum hplain, assembleLfn_reverse]
  have hiff := (pieceText_iff hplain (n := slotCount (encodeUtf16 name)) (by unfold slotCount; omega)).2
  rw [charsOf_encode] at hiff
  have hne : name ≠ [] := by
    rintro rfl
    exact absurd hpos (by decide)
  rw [parseEntries, chunksExact_flatten (by decide) hrows, entriesFrom_lfn _ _ fun slot hslot =>
    (mem_lfnSlots hlen hslot).2, List.nil_append, entriesFrom]
  dsimp only
  rw [if_neg hshort.used, if_neg hshort.short, if_neg hshort.no_label, entryOf, ← hiff]
  dsimp only
  rw [if_pos hparts, hname]
  by_cases hempty : pieceText (slotCount (encodeUtf16 name)) (encodeUtf16 name) = []
  · rw [if_pos hempty, hempty]
    refine iff_of_false ?_ (Ne.symm hne)
    rintro ⟨e, he, -⟩
    cases he
  · rw [if_neg hempty]
    constructor
    · rintro ⟨e, he, hename⟩
      rw [← List.head_eq_of_cons_eq he] at hename
      exact hename
    · exact fun h => ⟨_, rfl, h⟩

/-- An entry of 32 bytes for a file. -/
def plainShort : List UInt8 := List.replicate 11 0x41 ++ 0x20 :: List.replicate 20 0

theorem plainShort_entry : ShortEntry plainShort := ⟨by decide, by decide, by decide, by decide⟩

/-- Twelve letters and a character of two units: the second of these is in another slot. -/
theorem cut_character_lost :
    ¬ ∃ e, parseEntries ((lfnSlots false 0 ("abcdefghijkl𝄞.jpg".toList) ++ [plainShort]).flatten) = [e] ∧
      e.name = "abcdefghijkl𝄞.jpg".toList := by
  have hparse : (parseEntries ((lfnSlots false 0 ("abcdefghijkl𝄞.jpg".toList) ++
      [plainShort]).flatten)).map (·.name) = ["abcdefghijkl.jpg".toList] := by decide +kernel
  rintro ⟨e, he, hname⟩
  rw [he, List.map_singleton, hname] at hparse
  exact absurd hparse (by decide +kernel)

/-- One letter more before it, and the character is whole. -/
theorem whole_character_kept :
    ∃ e, parseEntries ((lfnSlots true 0 ("abcdefghijklm𝄞.jpg".toList) ++ [plainShort]).flatten) = [e] ∧
      e.name = "abcdefghijklm𝄞.jpg".toList := by
  have hlen : (encodeUtf16 "abcdefghijklm𝄞.jpg".toList).length = 19 := by decide +kernel
  apply (long_name_iff true 0 (by omega) (by omega) (by simp) plainShort_entry).mpr
  rintro ⟨k, u, v, hu, hv, hjoined⟩
  have hlt := (List.getElem?_eq_some_iff.mp hv).1
  have hk : k = 0 := by omega
  subst hk
  cases hu
  cases hv
  exact absurd hjoined (by decide +kernel)

end Directory

end Fat

end Unearth
