import Unearth.JsonWrite
import Unearth.Lib.Numerals
import Unearth.Lib.Tally

/-!
# Numbers that are read and printed

Every number that the parser reads is a double. Where a double is printed as a number that is read as the
same double, every value that was put together out of what was read is printed as a text that denotes it.
-/

namespace Unearth
open Lines Loop Decimal Hex JsonGrammar Json.Parser

namespace Json

/-- The numbers in a value are doubles. -/
inductive Doubles : Json → Prop
  | null : Doubles .null
  | bool (b : Bool) : Doubles (.bool b)
  | num {q : ℚ} (h : Double.finite q = some q) : Doubles (.num (some q))
  | str (s : Text) : Doubles (.str s)
  | arr {items : List Json} (h : ∀ v ∈ items, Doubles v) : Doubles (.arr items)
  | obj {fields : List (Text × Json)} (h : ∀ p ∈ fields, Doubles p.2) : Doubles (.obj fields)

section Read

variable {t rest : Text} {v : Json}

/-- A reader whose values have doubles for numbers. -/
def ReadsDoubles (p : Text → Parsed Json) : Prop := ∀ t v rest, p t = .ok (v, rest) → Doubles v

theorem map_ok {ε α β : Type} {x : Except ε α} {f : α → β} {b : β} (h : x.map f = .ok b) :
    ∃ a, x = .ok a ∧ f a = b := by
  cases x with
  | error e => cases h
  | ok a => exact ⟨a, rfl, Except.ok.inj h⟩

theorem readsDoubles_number : ReadsDoubles number := by
  intro t v rest h
  unfold number at h
  dsimp only at h
  split at h
  · cases h
  · cases h
  · rename_i q hq
    cases h
    obtain ⟨x, -, hx⟩ := Option.map_eq_some_iff.mp hq
    exact .num (Double.finite_of_finite hx)

variable {item : Reader Json}

theorem readsDoubles_array (hitem : ReadsDoubles item.read) : ReadsDoubles (array item) := by
  have hloop : ∀ t v rest, (arrayLoop item).eval ([], t) = .ok (v, rest) → Doubles v := by
    intro t
    refine (arrayLoop item).eval_inv (I := fun s => ∀ v ∈ s.1, Doubles v)
      (Q := fun r => ∀ v rest, r = .ok (v, rest) → Doubles v) (fun s hs => ?_) fun _ h => absurd h List.not_mem_nil
    change Ctl.Sat _ _ (arrayBody item s)
    unfold arrayBody
    split
    · intro v rest h
      cases h
    · rename_i v behind hread
      have hall : ∀ w ∈ s.1 ++ [v], Doubles w := by
        intro w hw
        rcases List.mem_append.mp hw with hw | hw
        · exact hs w hw
        · rw [List.mem_singleton.mp hw]
          exact hitem _ _ _ hread
      split
      · exact hall
      · intro w rest h
        cases h
        exact .arr hall
      · intro w rest h
        cases h
  intro t v rest h
  unfold array at h
  split at h
  · cases h
    exact .arr fun _ h => absurd h List.not_mem_nil
  · exact hloop _ _ _ h

theorem readsDoubles_object (hitem : ReadsDoubles item.read) : ReadsDoubles (object item) := by
  have hloop : ∀ t v rest, (objectLoop item).eval ([], t) = .ok (v, rest) → Doubles v := by
    intro t
    refine (objectLoop item).eval_inv (I := fun s => ∀ p ∈ s.1, Doubles p.2)
      (Q := fun r => ∀ v rest, r = .ok (v, rest) → Doubles v) (fun s hs => ?_) fun _ h => absurd h List.not_mem_nil
    change Ctl.Sat _ _ (objectBody item s)
    unfold objectBody
    split
    · intro v rest h
      cases h
    · rename_i key behind hkey
      split
      · rename_i value hcolon
        split
        · intro v rest h
          cases h
        · rename_i val after hread
          have hall : ∀ p ∈ SortedMap.insert key val s.1, Doubles p.2 := by
            intro p hp
            rcases SortedMap.mem_insert hp with rfl | hp
            · exact hitem _ _ _ hread
            · exact hs p hp
          dsimp only
          split
          · exact hall
          · intro w rest h
            cases h
            exact .obj hall
          · intro w rest h
            cases h
      · intro v rest h
        cases h
  intro t v rest h
  unfold object at h
  split at h
  · cases h
    exact .obj fun _ h => absurd h List.not_mem_nil
  · exact hloop _ _ _ h

theorem readsDoubles_valueIn {inner : Option (Reader Json)} (hinner : ∀ item ∈ inner, ReadsDoubles item.read) :
    ReadsDoubles (valueIn inner) := by
  intro t v rest h
  unfold valueIn at h
  split at h
  · cases h
  · rename_i c t' hskip
    split_ifs at h with hobj harr hstr hbool hnull hnum
    · cases inner with
      | none => cases h
      | some item => exact readsDoubles_object (hinner item rfl) _ _ _ h
    · cases inner with
      | none => cases h
      | some item => exact readsDoubles_array (hinner item rfl) _ _ _ h
    · obtain ⟨a, -, ha⟩ := map_ok h
      cases ha
      exact .str _
    · unfold boolean at h
      split_ifs at h
      · obtain ⟨a, -, ha⟩ := map_ok h
        cases ha
        exact .bool _
      · obtain ⟨a, -, ha⟩ := map_ok h
        cases ha
        exact .bool _
    · obtain ⟨a, -, ha⟩ := map_ok h
      cases ha
      exact .null
    · exact readsDoubles_number _ _ _ h

theorem readsDoubles_value (levels : ℕ) : ReadsDoubles (value levels).read := by
  induction levels with
  | zero => exact @readsDoubles_valueIn none fun item hitem => nomatch hitem
  | succ levels ih =>
    refine @readsDoubles_valueIn (some (value levels)) fun item hitem => ?_
    rw [← Option.mem_some_iff.mp hitem]
    exact ih

theorem parse_doubles (h : parse t = .ok v) : Doubles v := by
  unfold parse at h
  split at h
  · cases h
  · rename_i w behind hread
    split_ifs at h
    cases h
    exact readsDoubles_value _ _ _ _ hread

theorem Doubles.get {j : Json} (h : Doubles j) {key : Text} (hget : j.get key = some v) : Doubles v := by
  cases h with
  | obj h =>
    obtain ⟨p, hp, rfl⟩ := Option.map_eq_some_iff.mp hget
    exact h p (List.mem_of_find?_eq_some hp)
  | null => cases hget
  | bool b => cases hget
  | num h => cases hget
  | str s => cases hget
  | arr h => cases hget

end Read

section Print

/-- A double is printed as a number that is read as the same double. -/
def Shows (display : Option ℚ → Text) : Prop :=
  ∀ q, Double.finite q = some q → ∃ n : Number, n.text = display (some q) ∧ Double.finite n.value = some q

/-- A text without control characters, of which the ends of lines are some. -/
def Clean (t : Text) : Prop := (t.all fun c => Nat.ble 0x20 c.toNat) = true

instance (t : Text) : Decidable (Clean t) := inferInstanceAs (Decidable (_ = _))

theorem clean_iff {t : Text} : Clean t ↔ ∀ c ∈ t, 0x20 ≤ c.toNat := by
  rw [Clean, List.all_eq_true]
  exact forall₂_congr fun c _ => Iff.of_eq Nat.ble_eq

theorem Clean.append {t u : Text} (ht : Clean t) (hu : Clean u) : Clean (t ++ u) :=
  clean_iff.mpr fun c hc => (List.mem_append.mp hc).elim (clean_iff.mp ht c) (clean_iff.mp hu c)

theorem Clean.cons {c : Char} {t : Text} (hc : 0x20 ≤ c.toNat) (ht : Clean t) : Clean (c :: t) :=
  clean_iff.mpr (List.forall_mem_cons.mpr ⟨hc, clean_iff.mp ht⟩)

theorem Clean.oneLine {t : Text} (h : Clean t) : OneLine t :=
  ⟨fun hc => absurd (clean_iff.mp h _ hc) (by decide), fun hc => absurd (clean_iff.mp h _ hc) (by decide)⟩

/-- What is printed of a value is a text of the grammar that denotes the value, without control characters. -/
structure Legible (display : Option ℚ → Text) (k : ℕ) (v : Json) : Prop where
  spells : ∃ x, Spells x (write display v) v k
  clean : Clean (write display v)

variable {display : Option ℚ → Text} {k : ℕ}

theorem Legible.mono {v : Json} (h : Legible display k v) {l : ℕ} (hl : k ≤ l) : Legible display l v := by
  obtain ⟨⟨x, hx⟩, hclean⟩ := h
  exact ⟨⟨x, hx.text, hx.meaning, hx.whole, hx.depth.trans hl⟩, hclean⟩

theorem Legible.parse_eq {v : Json} (h : Legible display MAX_DEPTH v) : parse (toString display v) = .ok v := by
  obtain ⟨x, hx⟩ := h.spells
  have hparse := hx.parse .none
  rwa [Space.none, List.append_nil] at hparse

theorem clean_escapeChar (c : Char) : Clean (escapeChar c) := by
  unfold escapeChar
  split_ifs with hquote hback hn hr ht hb hf hcontrol
  iterate 7 decide
  · have hcode : ∀ n : Fin 0x20, Clean ('\\' :: 'u' :: pad 4 (hex n)) := by decide +kernel
    exact hcode ⟨c.toNat, hcontrol⟩
  · exact .cons (not_lt.mp hcontrol) rfl

theorem clean_writeEscaped (s : Text) : Clean (writeEscaped s) := by
  refine .cons (by decide) (.append (clean_iff.mpr fun d hd => ?_) (by decide))
  obtain ⟨c, -, hc⟩ := List.mem_flatMap.mp hd
  exact clean_iff.mp (clean_escapeChar c) d hc

theorem clean_joined {w : Json → Text} {items : List Json} (h : ∀ v ∈ items, Clean (w v)) :
    Clean (joined [] w items) := by
  induction items with
  | nil => rfl
  | cons v rest ih =>
    obtain ⟨hv, hrest⟩ := List.forall_mem_cons.mp h
    cases rest with
    | nil => exact hv
    | cons u rest =>
      rw [joined, List.nil_append]
      · exact hv.append (.cons (by decide) (ih hrest))
      · exact List.cons_ne_nil _ _

theorem clean_joinedFields {w : Json → Text} {fields : List (Text × Json)} (h : ∀ p ∈ fields, Clean (w p.2)) :
    Clean (joinedFields [] [] w fields) := by
  induction fields with
  | nil => rfl
  | cons p rest ih =>
    obtain ⟨key, v⟩ := p
    obtain ⟨hv, hrest⟩ := List.forall_mem_cons.mp h
    cases rest with
    | nil => exact (clean_writeEscaped key).append (.cons (by decide) hv)
    | cons q rest =>
      rw [joinedFields, List.nil_append, List.nil_append]
      · exact (clean_writeEscaped key).append (.cons (by decide) (hv.append (.cons (by decide) (ih hrest))))
      · exact List.cons_ne_nil _ _

theorem clean_number (n : Number) : Clean n.text := by
  refine clean_iff.mpr fun c hc => ?_
  have hchar := numChar_of_mem n hc
  simp only [numChar, Bool.or_eq_true, decide_eq_true_eq, Char.isDigit, Bool.and_eq_true] at hchar
  rcases hchar with ((((⟨hlow, -⟩ | rfl) | rfl) | rfl) | rfl) | rfl
  · exact le_trans (by decide) (UInt32.le_iff_toNat_le.mp hlow)
  iterate 5 decide

theorem legible_null : Legible display k .null := ⟨⟨.null, rfl, rfl, trivial, Nat.zero_le _⟩, show Clean "null".toList by decide⟩

theorem legible_bool (b : Bool) : Legible display k (.bool b) := by
  refine ⟨⟨.bool b, rfl, rfl, trivial, Nat.zero_le _⟩, ?_⟩
  cases b
  · exact show Clean "false".toList by decide
  · exact show Clean "true".toList by decide

theorem legible_str (s : Text) : Legible display k (.str s) := by
  obtain ⟨items, htext, hchars, hwhole⟩ := exists_items_of_text s
  refine ⟨⟨.str items, htext, ?_, hwhole, Nat.zero_le _⟩, clean_writeEscaped s⟩
  rw [meaning, hchars]
  rfl

theorem legible_int {n : ℤ} (h : n.natAbs < 10 ^ 15) : Legible display k (.num (some n)) := by
  refine ⟨⟨_, spells_num display h k⟩, ?_⟩
  rw [write, numText_int display h, ← ofInt_text]
  exact clean_number _

theorem legible_num (hshows : Shows display) {q : ℚ} (hq : Double.finite q = some q) :
    Legible display k (.num (some q)) := by
  by_cases hint : q.den = 1 ∧ |q| < 10 ^ 15
  · obtain ⟨hden, habs⟩ := hint
    have hcast : q = (q.num : ℚ) := (Rat.coe_int_num_of_den_eq_one hden).symm
    have hnat : q.num.natAbs < 10 ^ 15 := by
      rw [hcast, ← Int.cast_abs, Int.abs_eq_natAbs] at habs
      exact_mod_cast habs
    rw [hcast]
    exact legible_int hnat
  · obtain ⟨n, htext, hvalue⟩ := hshows q hq
    have hwrite : write display (.num (some q)) = n.text := by
      rw [write, numText, if_neg hint, htext]
    refine ⟨⟨.num n, ?_, ?_, trivial, Nat.zero_le _⟩, ?_⟩
    · rw [hwrite, Tree.text]
    · rw [meaning, hvalue]
      rfl
    · rw [hwrite]
      exact clean_number n

theorem legible_arr {items : List Json} (h : ∀ v ∈ items, Legible display k v) : Legible display (k + 1) (.arr items) := by
  have hclean : Clean (write display (.arr items)) := by
    rw [write, writeItems_eq]
    exact .cons (by decide) ((clean_joined fun v hv => (h v hv).clean).append (by decide))
  by_cases hne : items = []
  · subst hne
    exact ⟨⟨.emptyArr .none, rfl, rfl, trivial, Nat.succ_le_succ (Nat.zero_le _)⟩, hclean⟩
  · refine ⟨?_, hclean⟩
    have harr := exists_arr .none .none hne fun v hv => (h v hv).spells
    rw [write, writeItems_eq]
    simpa only [Space.none, List.append_nil] using harr

theorem legible_obj {fields : List (Text × Json)} (sorted : fields.Pairwise fun p q => p.1 < q.1)
    (h : ∀ p ∈ fields, Legible display k p.2) : Legible display (k + 1) (.obj fields) := by
  have hclean : Clean (write display (.obj fields)) := by
    rw [write, writeFields_eq]
    exact .cons (by decide) ((clean_joinedFields fun p hp => (h p hp).clean).append (by decide))
  by_cases hne : fields = []
  · subst hne
    exact ⟨⟨.emptyObj .none, rfl, rfl, trivial, Nat.succ_le_succ (Nat.zero_le _)⟩, hclean⟩
  · refine ⟨?_, hclean⟩
    have hobj := exists_obj .none .none .none hne sorted fun p hp => (h p hp).spells
    rw [write, writeFields_eq]
    simpa only [Space.none, List.append_nil] using hobj

/-- Members may come in any order, and more than once. -/
theorem legible_ofMembers {members : List (Text × Json)} (h : ∀ p ∈ members, Legible display k p.2) :
    Legible display (k + 1) (ofMembers members) := by
  suffices hall : ∀ members fields : List (Text × Json), SortedMap.Sorted fields →
      (∀ p ∈ members, Legible display k p.2) → (∀ p ∈ fields, Legible display k p.2) →
        Legible display (k + 1) (.obj (members.foldl (fun fields p => SortedMap.insert p.1 p.2 fields) fields)) from
    hall members [] List.Pairwise.nil h fun _ h => absurd h List.not_mem_nil
  clear h members
  intro members
  induction members with
  | nil => exact fun fields hsorted _ hfields => legible_obj hsorted hfields
  | cons p rest ih =>
    intro fields hsorted hmembers hfields
    obtain ⟨hp, hrest⟩ := List.forall_mem_cons.mp hmembers
    refine ih _ (SortedMap.sorted_insert hsorted) hrest fun q hq => ?_
    rcases SortedMap.mem_insert hq with rfl | hq
    · exact hp
    · exact hfields q hq

end Print

section Exact

/-- All digits of a number whose denominator is a power of two. -/
def dyadicText (q : ℚ) : Text :=
  let places := Nat.log2 q.den
  let digits := q.num.natAbs * 5 ^ places
  (if q < 0 then ['-'] else []) ++ (decimal (digits / 10 ^ places) ++
    if places = 0 then [] else '.' :: pad places (decimal (digits % 10 ^ places)))

def dyadicNumber (q : ℚ) : Number :=
  let places := Nat.log2 q.den
  let digits := q.num.natAbs * 5 ^ places
  { neg := decide (q < 0)
    whole := ⟨decimal (digits / 10 ^ places), (decimal_token _).1, fun _ hc => isDigit_of_mem_decimal hc⟩
    leading := decimal_leading _
    frac :=
      if places = 0 then none
      else some ⟨pad places (decimal (digits % 10 ^ places)), pad_ne_nil _ _, fun _ hc => isDigit_of_mem_pad hc⟩
    exp := none }

theorem dyadicNumber_text (q : ℚ) : (dyadicNumber q).text = dyadicText q := by
  have hfrac : (dyadicNumber q).text = (dyadicNumber q).wholeText ++ (Number.fracText (dyadicNumber q).frac ++ []) := rfl
  rw [hfrac, List.append_nil, Number.wholeText]
  unfold dyadicNumber dyadicText
  dsimp only
  by_cases hneg : q < 0 <;> by_cases hplaces : Nat.log2 q.den = 0 <;> simp [hneg, hplaces, Number.fracText]

/-- A double is a whole number of the smallest steps that there are. -/
theorem den_of_finite {q : ℚ} (h : Double.finite q = some q) : ∃ j, q.den = 2 ^ j := by
  have hq : Double.nearest q = q := by
    unfold Double.finite at h
    split_ifs at h
    exact Option.some.inj h
  have hlow : -1074 ≤ Double.scale q := le_max_right _ _
  obtain ⟨k, hk⟩ : ∃ k : ℕ, k = 1074 := ⟨_, rfl⟩
  obtain ⟨n, hn⟩ := Int.eq_ofNat_of_zero_le (show 0 ≤ Double.scale q + k by omega)
  have hdvd : q.den ∣ 2 ^ k := by
    have hsteps : q = Rat.divInt (Double.roundEven (q / 2 ^ Double.scale q) * 2 ^ n) ((2 ^ k : ℕ) : ℤ) := by
      rw [Rat.divInt_eq_div]
      nth_rewrite 1 [← hq]
      rw [Double.nearest, show Double.scale q = (n : ℤ) - k by omega, zpow_sub₀ (two_ne_zero' ℚ)]
      push_cast
      rw [zpow_natCast, zpow_natCast, mul_div_assoc]
    rw [hsteps]
    exact Int.natCast_dvd_natCast.mp (Rat.den_dvd _ _)
  obtain ⟨j, -, hj⟩ := (Nat.dvd_prime_pow Nat.prime_two).mp hdvd
  exact ⟨j, hj⟩

theorem dyadicNumber_value {q : ℚ} {j : ℕ} (h : q.den = 2 ^ j) : (dyadicNumber q).value = q := by
  have hplaces : Nat.log2 q.den = j := by rw [h, Nat.log2_two_pow]
  have hnum : |q| = q.num.natAbs / 2 ^ j := by
    have hden : ((2 : ℚ) ^ j) = q.den := by rw [h, Nat.cast_pow, Nat.cast_ofNat]
    rw [hden]
    nth_rewrite 1 [← Rat.num_div_den q]
    rw [abs_div, Nat.abs_cast, ← Int.cast_abs, Int.abs_eq_natAbs, Int.cast_natCast]
  have hwhole : (dyadicNumber q).whole.value = q.num.natAbs * 5 ^ j / 10 ^ j := by
    unfold dyadicNumber Digits.value
    rw [ofDigitChars_decimal, hplaces]
  have hfrac : Number.fracValue (dyadicNumber q).frac = (q.num.natAbs * 5 ^ j % 10 ^ j : ℕ) / 10 ^ j := by
    unfold dyadicNumber
    dsimp only
    split_ifs with hzero
    · rw [← hplaces, hzero, pow_zero, pow_zero, Nat.mod_one, Nat.cast_zero, zero_div]
      rfl
    · rw [Number.fracValue, Digits.value, ofDigitChars_pad, ofDigitChars_decimal,
        length_pad (Nat.mod_lt _ (by positivity)) (Nat.pos_of_ne_zero hzero), hplaces]
  have hsum : ((dyadicNumber q).whole.value : ℚ) + Number.fracValue (dyadicNumber q).frac = |q| := by
    rw [hwhole, hfrac, hnum]
    have hdiv : ((q.num.natAbs * 5 ^ j : ℕ) : ℚ) = (10 ^ j : ℕ) * (q.num.natAbs * 5 ^ j / 10 ^ j : ℕ)
        + (q.num.natAbs * 5 ^ j % 10 ^ j : ℕ) := by
      exact_mod_cast (Nat.div_add_mod _ _).symm
    have hten : (10 : ℚ) ^ j = 2 ^ j * 5 ^ j := by
      rw [← mul_pow]
      norm_num
    have hne : (10 : ℚ) ^ j ≠ 0 := by positivity
    have hfive : (5 : ℚ) ^ j ≠ 0 := by positivity
    push_cast at hdiv
    calc ((q.num.natAbs * 5 ^ j / 10 ^ j : ℕ) : ℚ) + (q.num.natAbs * 5 ^ j % 10 ^ j : ℕ) / 10 ^ j
        = (10 ^ j * (q.num.natAbs * 5 ^ j / 10 ^ j : ℕ) + (q.num.natAbs * 5 ^ j % 10 ^ j : ℕ)) / 10 ^ j := by
          rw [add_div, mul_div_cancel_left₀ _ hne]
      _ = q.num.natAbs * 5 ^ j / (2 ^ j * 5 ^ j) := by rw [← hdiv, hten]
      _ = q.num.natAbs / 2 ^ j := mul_div_mul_right _ _ hfive
  have hvalue : (dyadicNumber q).value = Double.signed (decide (q < 0))
      (((dyadicNumber q).whole.value + Number.fracValue (dyadicNumber q).frac) * 10 ^ (0 : ℤ)) := rfl
  rw [hvalue, hsum, zpow_zero, mul_one, Double.signed]
  by_cases hneg : q < 0
  · rw [if_pos (decide_eq_true hneg), abs_of_neg hneg, neg_neg]
  · rw [if_neg (by simpa using hneg), abs_of_nonneg (not_lt.mp hneg)]

/-- With all of its digits a double is read as itself. -/
theorem shows_dyadicText : Shows fun n => n.elim [] dyadicText := by
  intro q hq
  obtain ⟨j, hj⟩ := den_of_finite hq
  refine ⟨dyadicNumber q, dyadicNumber_text q, ?_⟩
  rw [dyadicNumber_value hj, hq]

end Exact

end Json

end Unearth
