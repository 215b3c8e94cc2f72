import Unearth.Lib.Utf16

/-!
# Texts in 16-bit units that are cut

A text is encoded in units, and units are decoded in pieces. A piece loses a character of the
text exactly where a cut goes between the two units of one.
-/

namespace Unearth.Utf16
open Lines

def encodeChar (c : Char) : List ℕ :=
  if c.toNat < 0x10000 then [c.toNat]
  else [0xD800 + (c.toNat - 0x10000) / 0x400, 0xDC00 + (c.toNat - 0x10000) % 0x400]

def encodeUtf16 (t : Text) : List ℕ := t.flatMap encodeChar

/-- The characters of the units, without those that are none. -/
def charsOf (units : List ℕ) : Text := (decodeUtf16 units).reduceOption

/-- The units of a character that are side by side. -/
def joined (u v : ℕ) : Bool := isHigh u && isLow v

section Decode

variable {u v : ℕ} {rest : List ℕ}

theorem decode_cons (h : ∀ v ∈ rest.head?, joined u v = false) :
    decodeUtf16 (u :: rest) = unit u :: decodeUtf16 rest := by
  cases rest with
  | nil => rfl
  | cons v rest =>
    have hv : (isHigh u && isLow v) = false := h v rfl
    rw [decodeUtf16, hv]
    rfl

theorem decode_pair (h : joined u v = true) :
    decodeUtf16 (u :: v :: rest) = some (pair u v) :: decodeUtf16 rest := by
  have hjoined : (isHigh u && isLow v) = true := h
  rw [decodeUtf16, hjoined]
  rfl

theorem isLow_of_isHigh (h : isHigh u = true) : isLow u = false := by
  simp only [isHigh, isLow, Bool.and_eq_true, decide_eq_true_eq, Bool.and_eq_false_iff,
    decide_eq_false_iff_not] at h ⊢
  omega

theorem isHigh_of_isLow (h : isLow u = true) : isHigh u = false := by
  simp only [isHigh, isLow, Bool.and_eq_true, decide_eq_true_eq, Bool.and_eq_false_iff,
    decide_eq_false_iff_not] at h ⊢
  omega

/-- Units that are cut between two characters are decoded piece by piece. -/
theorem decode_append {a b : List ℕ} (h : ∀ u ∈ a.getLast?, ∀ v ∈ b.head?, joined u v = false) :
    decodeUtf16 (a ++ b) = decodeUtf16 a ++ decodeUtf16 b := by
  induction a using decodeUtf16.induct with
  | case1 => rfl
  | case2 u =>
    rw [List.singleton_append, decode_cons (h u rfl)]
    rfl
  | case3 u v rest hpair ih =>
    have hlast : ∀ x ∈ rest.getLast?, ∀ y ∈ b.head?, joined x y = false := by
      intro x hx
      apply h
      rw [List.getLast?_cons_cons]
      cases rest with
      | nil => cases hx
      | cons w rest => rwa [List.getLast?_cons_cons]
    rw [List.cons_append, List.cons_append, decode_pair hpair, decode_pair hpair, ih hlast]
    rfl
  | case4 u v rest hpair ih =>
    have hsingle : joined u v = false := by simpa [joined] using hpair
    have hlast : ∀ x ∈ (v :: rest).getLast?, ∀ y ∈ b.head?, joined x y = false := by
      intro x hx
      apply h
      rwa [List.getLast?_cons_cons]
    have hhead : ∀ l : List ℕ, ∀ w ∈ (v :: l).head?, joined u w = false := by
      rintro l w ⟨⟩
      exact hsingle
    calc decodeUtf16 (u :: v :: (rest ++ b)) = unit u :: decodeUtf16 (v :: rest ++ b) :=
          decode_cons (hhead (rest ++ b))
      _ = unit u :: decodeUtf16 (v :: rest) ++ decodeUtf16 b := by rw [ih hlast, List.cons_append]
      _ = decodeUtf16 (u :: v :: rest) ++ decodeUtf16 b := by rw [decode_cons (hhead rest)]

theorem charsOf_append {a b : List ℕ} (h : ∀ u ∈ a.getLast?, ∀ v ∈ b.head?, joined u v = false) :
    charsOf (a ++ b) = charsOf a ++ charsOf b := by
  rw [charsOf, decode_append h, List.reduceOption_append]
  rfl

/-- A cut between the two units of a character costs that character. -/
theorem length_charsOf_cut {a b : List ℕ} (h : joined u v = true) :
    (charsOf (a ++ [u] ++ v :: b)).length =
      (charsOf (a ++ [u])).length + (charsOf (v :: b)).length + 1 := by
  obtain ⟨hu, hv⟩ := Bool.and_eq_true_iff.mp h
  have hfirst : ∀ (c : List ℕ), ∀ x ∈ a.getLast?, ∀ y ∈ (u :: c).head?, joined x y = false := by
    rintro c x - y ⟨⟩
    rw [joined, isLow_of_isHigh hu, Bool.and_false]
  have hsecond : decodeUtf16 (v :: b) = none :: decodeUtf16 b := by
    rw [decode_cons]
    · simp [unit, hv]
    · intro w _
      rw [joined, isHigh_of_isLow hv, Bool.false_and]
  have hlone : decodeUtf16 [u] = [none] := by simp [decodeUtf16, unit, hu]
  rw [List.append_assoc, List.singleton_append, charsOf_append (hfirst _), charsOf_append (hfirst _)]
  unfold charsOf
  rw [hsecond, hlone, decode_pair h]
  simp only [List.reduceOption_cons_of_some, List.reduceOption_cons_of_none, List.length_append,
    List.length_cons, List.reduceOption_nil, List.length_nil]
  omega

end Decode

section Encode

theorem toNat_not_surrogate (c : Char) : isHigh c.toNat = false ∧ isLow c.toNat = false := by
  have hvalid := c.valid
  simp only [UInt32.isValidChar, Nat.isValidChar] at hvalid
  have htoNat : c.toNat = c.val.toNat := rfl
  simp only [isHigh, isLow, Bool.and_eq_false_iff, decide_eq_false_iff_not]
  omega

theorem toNat_lt (c : Char) : c.toNat < 0x110000 := by
  have hvalid := c.valid
  simp only [UInt32.isValidChar, Nat.isValidChar] at hvalid
  have htoNat : c.toNat = c.val.toNat := rfl
  omega

theorem toNat_ofNat_unit {u : ℕ} (hword : u < 2 ^ 16) (hlow : isLow u = false) (hhigh : isHigh u = false) :
    (Char.ofNat u).toNat = u := by
  have hvalid : u.isValidChar := by
    simp only [isHigh, isLow, Bool.and_eq_false_iff, decide_eq_false_iff_not] at hlow hhigh
    unfold Nat.isValidChar
    omega
  rw [Char.ofNat, dif_pos hvalid]
  rfl

theorem unit_toNat (c : Char) : unit c.toNat = some c := by
  obtain ⟨hhigh, hlow⟩ := toNat_not_surrogate c
  rw [unit, hhigh, hlow, Bool.or_self, if_neg Bool.false_ne_true, Char.ofNat_toNat]

/-- The units of a character are decoded into it, whatever follows. -/
theorem decode_encodeChar (c : Char) (rest : List ℕ) :
    decodeUtf16 (encodeChar c ++ rest) = some c :: decodeUtf16 rest := by
  unfold encodeChar
  split_ifs with hc
  · rw [List.singleton_append, decode_cons, unit_toNat]
    intro v _
    rw [joined, (toNat_not_surrogate c).1, Bool.false_and]
  · have hlt := toNat_lt c
    have hjoined : joined (0xD800 + (c.toNat - 0x10000) / 0x400) (0xDC00 + (c.toNat - 0x10000) % 0x400) = true := by
      simp only [joined, isHigh, isLow, Bool.and_eq_true, decide_eq_true_eq]
      omega
    have hpair : pair (0xD800 + (c.toNat - 0x10000) / 0x400) (0xDC00 + (c.toNat - 0x10000) % 0x400) = c := by
      have hcode : 0x10000 + (0xD800 + (c.toNat - 0x10000) / 0x400 - 0xD800) * 0x400 +
          (0xDC00 + (c.toNat - 0x10000) % 0x400 - 0xDC00) = c.toNat := by omega
      rw [pair, hcode, Char.ofNat_toNat]
    rw [List.cons_append, List.singleton_append, decode_pair hjoined, hpair]

theorem decode_encodeUtf16 (t : Text) : decodeUtf16 (encodeUtf16 t) = t.map some := by
  induction t with
  | nil => rfl
  | cons c t ih =>
    rw [encodeUtf16, List.flatMap_cons, decode_encodeChar, List.map_cons, ← ih]
    rfl

theorem charsOf_encode (t : Text) : charsOf (encodeUtf16 t) = t := by
  rw [charsOf, decode_encodeUtf16, List.reduceOption, List.filterMap_map]
  exact List.filterMap_some

theorem fromUtf16Lossy_encode (t : Text) : fromUtf16Lossy (encodeUtf16 t) = t := by
  rw [fromUtf16Lossy, decode_encodeUtf16, List.map_map]
  exact List.map_id t

theorem mem_encodeUtf16 {t : Text} {u : ℕ} (h : u ∈ encodeUtf16 t) :
    u < 2 ^ 16 ∧ ((∃ c ∈ t, u = c.toNat) ∨ isHigh u = true ∨ isLow u = true) := by
  obtain ⟨c, hc, hu⟩ := List.mem_flatMap.mp h
  have hlt := toNat_lt c
  unfold encodeChar at hu
  split_ifs at hu with hsmall
  · cases List.mem_singleton.mp hu
    exact ⟨hsmall, .inl ⟨c, hc, rfl⟩⟩
  · simp only [List.mem_cons, List.not_mem_nil, or_false] at hu
    simp only [isHigh, isLow, Bool.and_eq_true, decide_eq_true_eq]
    omega

end Encode

end Unearth.Utf16
