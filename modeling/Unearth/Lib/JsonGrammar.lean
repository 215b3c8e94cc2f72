import Unearth.Lib.Double
import Unearth.Lib.Hex
import Unearth.Lib.Utf16Cut

/-!
# The grammar of JSON texts

A text of the grammar is given by its derivation: what stands for white space, how a number
and every character of a string are spelled, and the items and members one after the other.
Codes in a string are units, of which two may make up a character.
-/

namespace Unearth.JsonGrammar
open Lines Decimal Hex Utf16 Double

def isSpace (c : Char) : Bool := c = ' ' || c = '\t' || c = '\n' || c = '\r'

structure Space where
  text : Text
  valid : ∀ c ∈ text, isSpace c = true

def Space.none : Space := ⟨[], nofun⟩
def Space.blank : Space := ⟨[' '], List.forall_mem_singleton.mpr rfl⟩

structure Digits where
  text : Text
  ne_nil : text ≠ []
  valid : ∀ c ∈ text, c.isDigit = true

def Digits.value (d : Digits) : ℕ := Nat.ofDigitChars 10 d.text 0

structure Exponent where
  upper : Bool
  sign : Option Bool
  digits : Digits

namespace Exponent

def signText : Option Bool → Text
  | none => []
  | some true => ['-']
  | some false => ['+']

def text (e : Exponent) : Text := (if e.upper then 'E' else 'e') :: (signText e.sign ++ e.digits.text)

def value (e : Exponent) : ℤ := if e.sign = some true then -(e.digits.value : ℤ) else e.digits.value

end Exponent

structure Number where
  neg : Bool
  whole : Digits
  leading : whole.text.head? = some '0' → whole.text = ['0']
  frac : Option Digits
  exp : Option Exponent

namespace Number

def wholeText (n : Number) : Text := if n.neg then '-' :: n.whole.text else n.whole.text

def fracText : Option Digits → Text
  | none => []
  | some d => '.' :: d.text

def expText : Option Exponent → Text
  | none => []
  | some e => e.text

def text (n : Number) : Text := n.wholeText ++ (fracText n.frac ++ expText n.exp)

def fracValue : Option Digits → ℚ
  | none => 0
  | some d => d.value / 10 ^ d.text.length

def expValue : Option Exponent → ℤ
  | none => 0
  | some e => e.value

def value (n : Number) : ℚ := signed n.neg ((n.whole.value + fracValue n.frac) * 10 ^ expValue n.exp)

end Number

/-- The characters that one letter behind a backslash stands for. -/
inductive Short
  | quote | backslash | slash | backspace | formFeed | lineFeed | carriageReturn | tab

namespace Short

def letter : Short → Char
  | quote => '"'
  | backslash => '\\'
  | slash => '/'
  | backspace => 'b'
  | formFeed => 'f'
  | lineFeed => 'n'
  | carriageReturn => 'r'
  | tab => 't'

def char : Short → Char
  | quote => '"'
  | backslash => '\\'
  | slash => '/'
  | backspace => '\x08'
  | formFeed => '\x0c'
  | lineFeed => '\n'
  | carriageReturn => '\r'
  | tab => '\t'

end Short

structure HexChar where
  char : Char
  value : ℕ
  valid : hexDigit char = some value

/-- The digit of a number below 16, in small letters. -/
def HexChar.of (n : Fin 16) : HexChar := ⟨Nat.digitChar n, n, hexDigit_digitChar n.isLt⟩

inductive Item
  | char (c : Char) (printed : 0x20 ≤ c.toNat) (quote : c ≠ '"') (backslash : c ≠ '\\')
  | short (s : Short)
  | code (a b c d : HexChar)

namespace Item

def codeValue (a b c d : HexChar) : ℕ := ((a.value * 16 + b.value) * 16 + c.value) * 16 + d.value

def text : Item → Text
  | char c _ _ _ => [c]
  | short s => ['\\', s.letter]
  | code a b c d => ['\\', 'u', a.char, b.char, c.char, d.char]

def units : Item → List ℕ
  | char c _ _ _ => encodeChar c
  | short s => [s.char.toNat]
  | code a b c d => [codeValue a b c d]

/-- The item is no half of a character. -/
def Whole : Item → Prop
  | char _ _ _ _ => True
  | short _ => True
  | code a b c d => isHigh (codeValue a b c d) = false ∧ isLow (codeValue a b c d) = false

end Item

def quoted (s : List Item) : Text := '"' :: (s.flatMap Item.text ++ ['"'])

/-- The characters of a string; a half that is on its own is none. -/
def chars (s : List Item) : Option Text := (decodeUtf16 (s.flatMap Item.units)).mapM id

mutual

inductive Tree
  | null
  | bool (b : Bool)
  | num (n : Number)
  | str (s : List Item)
  | emptyArr (space : Space)
  | arr (items : Items)
  | emptyObj (space : Space)
  | obj (members : Members)

/-- One item or more. -/
inductive Items
  | last (before : Space) (item : Tree) (after : Space)
  | cons (before : Space) (item : Tree) (after : Space) (rest : Items)

inductive Members
  | last (before : Space) (key : List Item) (between ahead : Space) (value : Tree) (after : Space)
  | cons (before : Space) (key : List Item) (between ahead : Space) (value : Tree) (after : Space)
      (rest : Members)

end

mutual

def Tree.text : Tree → Text
  | .null => "null".toList
  | .bool b => if b then "true".toList else "false".toList
  | .num n => n.text
  | .str s => quoted s
  | .emptyArr space => '[' :: (space.text ++ [']'])
  | .arr items => '[' :: (items.text ++ [']'])
  | .emptyObj space => '{' :: (space.text ++ ['}'])
  | .obj members => '{' :: (members.text ++ ['}'])

def Items.text : Items → Text
  | .last before item after => before.text ++ (item.text ++ after.text)
  | .cons before item after rest => before.text ++ (item.text ++ (after.text ++ ',' :: rest.text))

def Members.text : Members → Text
  | .last before key between ahead value after =>
    before.text ++ (quoted key ++ (between.text ++ ':' :: (ahead.text ++ (value.text ++ after.text))))
  | .cons before key between ahead value after rest =>
    before.text ++ (quoted key ++ (between.text ++ ':' :: (ahead.text ++
      (value.text ++ (after.text ++ ',' :: rest.text)))))

end

mutual

def Tree.depth : Tree → ℕ
  | .null | .bool _ | .num _ | .str _ => 0
  | .emptyArr _ | .emptyObj _ => 1
  | .arr items => items.depth + 1
  | .obj members => members.depth + 1

def Items.depth : Items → ℕ
  | .last _ item _ => item.depth
  | .cons _ item _ rest => max item.depth rest.depth

def Members.depth : Members → ℕ
  | .last _ _ _ _ value _ => value.depth
  | .cons _ _ _ _ value _ rest => max value.depth rest.depth

end

mutual

/-- What holds of every item of every string. -/
def Tree.All (P : Item → Prop) : Tree → Prop
  | .null | .bool _ | .num _ | .emptyArr _ | .emptyObj _ => True
  | .str s => ∀ i ∈ s, P i
  | .arr items => items.All P
  | .obj members => members.All P

def Items.All (P : Item → Prop) : Items → Prop
  | .last _ item _ => item.All P
  | .cons _ item _ rest => item.All P ∧ rest.All P

def Members.All (P : Item → Prop) : Members → Prop
  | .last _ key _ _ value _ => (∀ i ∈ key, P i) ∧ value.All P
  | .cons _ key _ _ value _ rest => (∀ i ∈ key, P i) ∧ value.All P ∧ rest.All P

end

structure Document where
  before : Space
  tree : Tree
  after : Space

def Document.text (x : Document) : Text := x.before.text ++ (x.tree.text ++ x.after.text)

section Chars

theorem HexChar.lt (d : HexChar) : d.value < 16 := by
  have h := d.valid
  unfold hexDigit at h
  split_ifs at h with h₁ h₂ h₃
  · have hle : d.char.toNat ≤ 57 := h₁.2
    have hvalue := Option.some.inj h
    omega
  · have hle : d.char.toNat ≤ 102 := h₂.2
    have hvalue := Option.some.inj h
    omega
  · have hle : d.char.toNat ≤ 70 := h₃.2
    have hvalue := Option.some.inj h
    omega

theorem Item.codeValue_lt (a b c d : HexChar) : codeValue a b c d < 0x10000 := by
  have ha := a.lt
  have hb := b.lt
  have hc := c.lt
  have hd := d.lt
  unfold codeValue
  omega

/-- The character of an item without its neighbours. -/
def Item.alone : Item → Option Char
  | char c _ _ _ => some c
  | short s => some s.char
  | code a b c d => unit (codeValue a b c d)

theorem encodeChar_of_lt {c : Char} (h : c.toNat < 0x10000) : encodeChar c = [c.toNat] := if_pos h

theorem Item.units_of_alone {i : Item} {c : Char} (h : i.alone = some c) : i.units = encodeChar c := by
  cases i with
  | char d _ _ _ =>
    cases h
    rfl
  | short s =>
    cases h
    have hlt : s.char.toNat < 0x10000 := by cases s <;> decide
    exact (encodeChar_of_lt hlt).symm
  | code x y z w =>
    have hlt := codeValue_lt x y z w
    change unit (codeValue x y z w) = some c at h
    have htoNat : c.toNat = codeValue x y z w := by
      unfold unit at h
      split_ifs at h with hsurrogate
      cases h
      obtain ⟨hhigh, hlow⟩ := Bool.or_eq_false_iff.mp (Bool.eq_false_iff.mpr hsurrogate)
      exact toNat_ofNat_unit hlt hlow hhigh
    rw [encodeChar_of_lt (by omega), htoNat]
    rfl

theorem Item.alone_eq_none {i : Item} : i.alone = none ↔ ¬ i.Whole := by
  cases i with
  | char c _ _ _ => exact iff_of_false (by simp [alone]) (not_not.mpr trivial)
  | short s => exact iff_of_false (by simp [alone]) (not_not.mpr trivial)
  | code a b c d =>
    change unit (codeValue a b c d) = none ↔ ¬ (isHigh (codeValue a b c d) = false ∧ isLow (codeValue a b c d) = false)
    unfold unit
    cases isHigh (codeValue a b c d) <;> cases isLow (codeValue a b c d) <;> simp

/-- Items that are whole are the characters that they are alone. -/
theorem chars_of_whole {s : List Item} (h : ∀ i ∈ s, i.Whole) : chars s = s.mapM Item.alone := by
  unfold chars
  induction s with
  | nil => rfl
  | cons i s ih =>
    have hi : i.alone ≠ none := fun hnone => Item.alone_eq_none.mp hnone (h i (.head _))
    obtain ⟨c, hc⟩ := Option.ne_none_iff_exists'.mp hi
    rw [List.flatMap_cons, Item.units_of_alone hc, decode_encodeChar, List.mapM_cons, List.mapM_cons, hc,
      ih fun j hj => h j (.tail _ hj)]
    rfl

theorem alone_of_not_whole {s : List Item} (h : ¬ ∀ i ∈ s, i.Whole) : s.mapM Item.alone = none := by
  induction s with
  | nil => exact absurd (fun i hi => absurd hi List.not_mem_nil) h
  | cons i s ih =>
    rw [List.mapM_cons]
    cases hi : i.alone with
    | none => rfl
    | some c =>
      have hwhole : i.Whole := by
        by_contra hno
        rw [Item.alone_eq_none.mpr hno] at hi
        cases hi
      have hrest : ¬ ∀ j ∈ s, j.Whole := fun hrest => h fun j hj => by
        rcases List.mem_cons.mp hj with rfl | hj
        · exact hwhole
        · exact hrest j hj
      rw [ih hrest]
      rfl

end Chars

section Numbers

theorem span_of_stop {p : Char → Bool} {l rest : Text} (hl : ∀ c ∈ l, p c = true)
    (hrest : ∀ c ∈ rest.head?, p c = false) :
    (l ++ rest).takeWhile p = l ∧ (l ++ rest).dropWhile p = rest := by
  rw [List.takeWhile_append_of_pos hl, List.dropWhile_append_of_pos hl]
  cases rest with
  | nil => exact ⟨List.append_nil l, rfl⟩
  | cons c rest =>
    have hc : ¬ p c = true := by rw [hrest c rfl]; exact Bool.false_ne_true
    rw [List.takeWhile_cons_of_neg hc, List.dropWhile_cons_of_neg hc]
    exact ⟨List.append_nil l, rfl⟩

theorem Digits.exists_cons (d : Digits) : ∃ c t, d.text = c :: t ∧ c.isDigit = true := by
  obtain ⟨c, t, hcons⟩ := List.exists_cons_of_ne_nil d.ne_nil
  exact ⟨c, t, hcons, d.valid c (hcons ▸ List.mem_cons_self)⟩

theorem takeSign_digits (d : Digits) (rest : Text) : takeSign (d.text ++ rest) = (false, d.text ++ rest) := by
  obtain ⟨c, t, hcons, hc⟩ := d.exists_cons
  rw [hcons, List.cons_append]
  unfold takeSign
  split
  · rename_i heq
    rw [(List.cons.inj heq).1] at hc
    exact absurd hc (by decide)
  · rename_i heq
    rw [(List.cons.inj heq).1] at hc
    exact absurd hc (by decide)
  · rfl

theorem takeSign_signText (sign : Option Bool) (d : Digits) :
    takeSign (Exponent.signText sign ++ d.text) = (decide (sign = some true), d.text) := by
  cases sign with
  | none =>
    have hsign := takeSign_digits d []
    rwa [List.append_nil] at hsign
  | some neg => cases neg <;> rfl

theorem tailExponent_expText (e : Option Exponent) : tailExponent (Number.expText e) = some (Number.expValue e) := by
  cases e with
  | none => rfl
  | some e =>
    have hmark : (if e.upper then 'E' else 'e') = 'e' ∨ (if e.upper then 'E' else 'e') = 'E' := by
      cases e.upper
      · exact .inl rfl
      · exact .inr rfl
    have hall : e.digits.text.all Char.isDigit = true := List.all_eq_true.mpr e.digits.valid
    change tailExponent ((if e.upper then 'E' else 'e') :: (Exponent.signText e.sign ++ e.digits.text)) = _
    unfold tailExponent
    dsimp only
    rw [takeSign_signText]
    dsimp only
    rw [if_pos ⟨hmark, e.digits.ne_nil, hall⟩]
    simp only [decide_eq_true_eq]
    rfl

/-- What is behind the digits of a number does not begin with one. -/
theorem expText_head (e : Option Exponent) : ∀ c ∈ (Number.expText e).head?, c.isDigit = false ∧ c ≠ '.' := by
  intro c hc
  cases e with
  | none => cases hc
  | some e =>
    cases Option.some.inj hc
    cases e.upper
    · exact ⟨rfl, by decide⟩
    · exact ⟨rfl, by decide⟩

def Number.fracDigits : Option Digits → Text
  | none => []
  | some d => d.text

theorem takeFraction_text (frac : Option Digits) (e : Option Exponent) :
    takeFraction (Number.fracText frac ++ Number.expText e) = (Number.fracDigits frac, Number.expText e) := by
  cases frac with
  | some d =>
    obtain ⟨htake, hdrop⟩ := span_of_stop d.valid fun c hc => (expText_head e c hc).1
    change ((d.text ++ Number.expText e).takeWhile Char.isDigit, (d.text ++ Number.expText e).dropWhile Char.isDigit) = _
    rw [htake, hdrop]
    rfl
  | none =>
    change takeFraction (Number.expText e) = ([], Number.expText e)
    unfold takeFraction
    split
    · rename_i heq
      exact absurd rfl (expText_head e '.' (by rw [heq]; rfl)).2
    · rfl

theorem digits_value (whole : Digits) (frac : Option Digits) (e : ℤ) :
    (Nat.ofDigitChars 10 (whole.text ++ Number.fracDigits frac) 0 : ℚ) * 10 ^ (e - (Number.fracDigits frac).length) =
      (whole.value + Number.fracValue frac) * 10 ^ e := by
  have hten : (10 : ℚ) ≠ 0 := by norm_num
  cases frac with
  | none =>
    simp only [Number.fracDigits, Number.fracValue, List.append_nil, List.length_nil, Nat.cast_zero, sub_zero, add_zero]
    rfl
  | some d =>
    have hdigits : Nat.ofDigitChars 10 (whole.text ++ d.text) 0 = 10 ^ d.text.length * whole.value + d.value := by
      rw [Nat.ofDigitChars_append, Nat.ofDigitChars_eq_ofDigitChars_zero]
      rfl
    have hpow : (10 : ℚ) ^ d.text.length ≠ 0 := pow_ne_zero _ hten
    simp only [Number.fracDigits, Number.fracValue]
    rw [hdigits, zpow_sub₀ hten, zpow_natCast]
    push_cast
    field_simp

theorem Number.wholeText_sign (n : Number) (rest : Text) :
    takeSign (n.wholeText ++ rest) = (n.neg, n.whole.text ++ rest) := by
  unfold wholeText
  cases n.neg
  · exact takeSign_digits _ _
  · rfl

/-- The text of a number is read as its value. -/
theorem exactValue_text (n : Number) : exactValue n.text = some n.value := by
  have hstop : ∀ c ∈ (Number.fracText n.frac ++ Number.expText n.exp).head?, c.isDigit = false := by
    intro c hc
    cases hfrac : n.frac with
    | none =>
      rw [hfrac] at hc
      exact (expText_head n.exp c hc).1
    | some d =>
      rw [hfrac] at hc
      cases Option.some.inj hc
      rfl
  obtain ⟨htake, hdrop⟩ := span_of_stop n.whole.valid hstop
  unfold exactValue Number.text
  rw [n.wholeText_sign]
  dsimp only
  rw [htake, hdrop, takeFraction_text]
  dsimp only
  rw [if_neg fun h => n.whole.ne_nil h.1, tailExponent_expText, Option.map_some, digits_value]
  rfl

theorem Number.exists_cons (n : Number) : ∃ c t, n.text = c :: t ∧ (c = '-' ∨ c.isDigit = true) := by
  obtain ⟨c, t, hcons, hc⟩ := n.whole.exists_cons
  unfold Number.text Number.wholeText
  cases n.neg with
  | false =>
    rw [hcons]
    exact ⟨c, _, rfl, .inr hc⟩
  | true => exact ⟨'-', _, rfl, .inl rfl⟩

theorem decimal_leading (n : ℕ) (h : (decimal n).head? = some '0') : decimal n = ['0'] := by
  induction n using Nat.strong_induction_on with
  | _ n ih =>
    rcases Nat.lt_or_ge n 10 with hlt | hge
    · interval_cases n <;> first | rfl | exact absurd h (by decide)
    · exfalso
      rw [decimal_of_ge hge, List.head?_append_of_ne_nil _ (decimal_token _).1] at h
      have hzero : decimal (n / 10) = decimal 0 := ih (n / 10) (by omega) h
      have hvalue := congrArg (fun t => Nat.ofDigitChars 10 t 0) hzero
      simp only [ofDigitChars_decimal] at hvalue
      omega

/-- A number without point and power of ten. -/
def Number.ofInt (n : ℤ) : Number where
  neg := decide (n < 0)
  whole := ⟨decimal n.natAbs, (decimal_token _).1, fun _ hc => isDigit_of_mem_decimal hc⟩
  leading := decimal_leading _
  frac := none
  exp := none

theorem Number.ofInt_value (n : ℤ) : (Number.ofInt n).value = n := by
  have hwhole : ((Number.ofInt n).whole.value : ℚ) = (n.natAbs : ℚ) := by
    unfold ofInt Digits.value
    rw [ofDigitChars_decimal]
  have hvalue : (Number.ofInt n).value = signed (decide (n < 0)) (((Number.ofInt n).whole.value + 0) * 10 ^ (0 : ℤ)) := rfl
  rw [hvalue, hwhole, add_zero, zpow_zero, mul_one, signed]
  have hcast : (n.natAbs : ℚ) = ((|n| : ℤ) : ℚ) := by rw [Int.abs_eq_natAbs, Int.cast_natCast]
  rw [hcast]
  by_cases hneg : n < 0
  · rw [if_pos (decide_eq_true hneg), abs_of_neg hneg, Int.cast_neg, neg_neg]
  · rw [if_neg (by simpa using hneg), abs_of_nonneg (not_lt.mp hneg)]

end Numbers

section First

theorem digit_ne {c d : Char} (h : c = '-' ∨ c.isDigit = true) (hd : d ≠ '-' ∧ d.isDigit = false) : c ≠ d := by
  rintro rfl
  rcases h with h | h
  · exact hd.1 h
  · rw [hd.2] at h
    cases h

/-- A text of the grammar begins with no space, and with nothing that ends a container. -/
theorem Tree.exists_cons (x : Tree) : ∃ c t, x.text = c :: t ∧ isSpace c = false ∧ c ≠ ']' ∧ c ≠ '}' := by
  cases x with
  | null => exact ⟨'n', _, rfl, rfl, by decide, by decide⟩
  | bool b => cases b
              · exact ⟨'f', _, rfl, rfl, by decide, by decide⟩
              · exact ⟨'t', _, rfl, rfl, by decide, by decide⟩
  | num n =>
    obtain ⟨c, t, hcons, hc⟩ := n.exists_cons
    refine ⟨c, t, hcons, ?_, digit_ne hc (by decide), digit_ne hc (by decide)⟩
    simp only [isSpace, Bool.or_eq_false_iff, decide_eq_false_iff_not]
    exact ⟨⟨⟨digit_ne hc (by decide), digit_ne hc (by decide)⟩, digit_ne hc (by decide)⟩, digit_ne hc (by decide)⟩
  | str s => exact ⟨'"', _, rfl, rfl, by decide, by decide⟩
  | emptyArr space => exact ⟨'[', _, rfl, rfl, by decide, by decide⟩
  | arr items => exact ⟨'[', _, rfl, rfl, by decide, by decide⟩
  | emptyObj space => exact ⟨'{', _, rfl, rfl, by decide, by decide⟩
  | obj members => exact ⟨'{', _, rfl, rfl, by decide, by decide⟩

end First

end Unearth.JsonGrammar
