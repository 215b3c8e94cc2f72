import Unearth.JsonParse
import Unearth.Lib.JsonGrammar

/-!
# The texts that the parser reads

The grammar says what a text denotes. The parser makes a character of each item of a string on
its own, so that it reads every text of the grammar as its value but for those in which two
codes make up a character together.
-/

namespace Unearth
open Lines Loop JsonGrammar Utf16 Json.Parser

namespace Json

/-- The object of members, of which the last one of a key counts. -/
def ofMembers (members : List (Text × Json)) : Json :=
  .obj (members.foldl (fun fields p => SortedMap.insert p.1 p.2 fields) [])

section Meaning

variable (chars : List Item → Option Text)

mutual

/-- What a text denotes, when the items of a string denote the text `chars`. -/
def meaning : Tree → Option Json
  | .null => some .null
  | .bool b => some (.bool b)
  | .num n => (Double.finite n.value).map fun q => .num (some q)
  | .str s => (chars s).map .str
  | .emptyArr _ => some (.arr [])
  | .arr items => (itemMeanings items).map .arr
  | .emptyObj _ => some (.obj [])
  | .obj members => (memberMeanings members).map ofMembers

def itemMeanings : Items → Option (List Json)
  | .last _ item _ => (meaning item).map fun v => [v]
  | .cons _ item _ rest => (meaning item).bind fun v => (itemMeanings rest).map fun vs => v :: vs

def memberMeanings : Members → Option (List (Text × Json))
  | .last _ key _ _ value _ => (chars key).bind fun k => (meaning value).map fun v => [(k, v)]
  | .cons _ key _ _ value _ rest =>
    (chars key).bind fun k => (meaning value).bind fun v => (memberMeanings rest).map fun ps => (k, v) :: ps

end

end Meaning

/-- The characters of a string of which each item is one. -/
def alones (s : List Item) : Option Text := s.mapM Item.alone

mutual

/-- A text without halves of characters denotes what its items denote one by one. -/
theorem meaning_of_whole : ∀ x : Tree, x.All Item.Whole → meaning alones x = meaning chars x
  | .null, _ => rfl
  | .bool _, _ => rfl
  | .num _, _ => rfl
  | .emptyArr _, _ => rfl
  | .emptyObj _, _ => rfl
  | .str s, h => by rw [meaning, meaning, chars_of_whole h, alones]
  | .arr items, h => by rw [meaning, meaning, itemMeanings_of_whole items h]
  | .obj members, h => by rw [meaning, meaning, memberMeanings_of_whole members h]

theorem itemMeanings_of_whole : ∀ x : Items, x.All Item.Whole → itemMeanings alones x = itemMeanings chars x
  | .last _ item _, h => by rw [itemMeanings, itemMeanings, meaning_of_whole item h]
  | .cons _ item _ rest, h => by
    rw [itemMeanings, itemMeanings, meaning_of_whole item h.1, itemMeanings_of_whole rest h.2]

theorem memberMeanings_of_whole : ∀ x : Members, x.All Item.Whole → memberMeanings alones x = memberMeanings chars x
  | .last _ key _ _ value _, h => by
    rw [memberMeanings, memberMeanings, chars_of_whole h.1, meaning_of_whole value h.2, alones]
  | .cons _ key _ _ value _ rest, h => by
    rw [memberMeanings, memberMeanings, chars_of_whole h.1, meaning_of_whole value h.2.1,
      memberMeanings_of_whole rest h.2.2, alones]

end

mutual

/-- With a half of a character among its items a text denotes nothing one by one. -/
theorem meaning_of_half : ∀ x : Tree, ¬ x.All Item.Whole → meaning alones x = none
  | .null, h => absurd trivial h
  | .bool _, h => absurd trivial h
  | .num _, h => absurd trivial h
  | .emptyArr _, h => absurd trivial h
  | .emptyObj _, h => absurd trivial h
  | .str s, h => by rw [meaning, alones, alone_of_not_whole h, Option.map_none]
  | .arr items, h => by rw [meaning, itemMeanings_of_half items h, Option.map_none]
  | .obj members, h => by rw [meaning, memberMeanings_of_half members h, Option.map_none]

theorem itemMeanings_of_half : ∀ x : Items, ¬ x.All Item.Whole → itemMeanings alones x = none
  | .last _ item _, h => by rw [itemMeanings, meaning_of_half item h, Option.map_none]
  | .cons _ item _ rest, h => by
    rw [itemMeanings]
    by_cases hitem : item.All Item.Whole
    · rw [itemMeanings_of_half rest fun hrest => h ⟨hitem, hrest⟩]
      exact Option.bind_fun_none _
    · rw [meaning_of_half item hitem, Option.bind_none]

theorem memberMeanings_of_half : ∀ x : Members, ¬ x.All Item.Whole → memberMeanings alones x = none
  | .last _ key _ _ value _, h => by
    rw [memberMeanings]
    by_cases hkey : ∀ i ∈ key, i.Whole
    · rw [meaning_of_half value fun hvalue => h ⟨hkey, hvalue⟩]
      exact Option.bind_fun_none _
    · rw [alones, alone_of_not_whole hkey, Option.bind_none]
  | .cons _ key _ _ value _ rest, h => by
    rw [memberMeanings]
    by_cases hkey : ∀ i ∈ key, i.Whole
    · by_cases hvalue : value.All Item.Whole
      · rw [memberMeanings_of_half rest fun hrest => h ⟨hkey, hvalue, hrest⟩]
        simp only [Option.map_none, Option.bind_fun_none]
      · rw [meaning_of_half value hvalue]
        exact Option.bind_fun_none _
    · rw [alones, alone_of_not_whole hkey, Option.bind_none]

end

/-- What is read and what is left, or an error where nothing is. -/
def Gives {α : Type} (p : Parsed α) (a : Option α) (rest : Text) : Prop :=
  match a with
  | some a => p = .ok (a, rest)
  | none => ∃ e, p = .error e

section Strings

variable {rest : Text}

theorem charOfCode_eq {u : ℕ} (h : u < 0x10000) : charOfCode u = unit u := by
  unfold charOfCode unit
  have hvalid : u.isValidChar ↔ ¬ (isHigh u || isLow u) = true := by
    simp only [Nat.isValidChar, isHigh, isLow, Bool.or_eq_true, Bool.and_eq_true, decide_eq_true_eq]
    omega
  by_cases hu : u.isValidChar
  · rw [if_pos hu, if_neg (hvalid.mp hu)]
  · rw [if_neg hu, if_pos (not_not.mp fun h => hu (hvalid.mpr h))]

theorem hexCode_four (a b c d : HexChar) :
    hexCode 4 0 (a.char :: b.char :: c.char :: d.char :: rest) = .ok (Item.codeValue a b c d, rest) := by
  simp only [hexCode, a.valid, b.valid, c.valid, d.valid, Item.codeValue, Nat.zero_mul, Nat.zero_add]

theorem escape_short (s : Short) : escape (s.letter :: rest) = .ok (s.char, rest) := by
  cases s <;> rfl

theorem escape_code (a b c d : HexChar) (rest : Text) :
    Gives (escape ('u' :: a.char :: b.char :: c.char :: d.char :: rest)) (unit (Item.codeValue a b c d)) rest := by
  have hescape : escape ('u' :: a.char :: b.char :: c.char :: d.char :: rest) =
      unicodeEscape (a.char :: b.char :: c.char :: d.char :: rest) := rfl
  rw [hescape, ← charOfCode_eq (Item.codeValue_lt a b c d)]
  unfold unicodeEscape
  rw [hexCode_four]
  dsimp only
  cases charOfCode (Item.codeValue a b c d) with
  | none => exact ⟨_, rfl⟩
  | some x => rfl

/-- An item of a string adds its character, or is refused. -/
theorem stringBody_item (i : Item) (out t : Text) :
    match i.alone with
    | some c => stringBody (out, i.text ++ t) = .next (out ++ [c], t)
    | none => ∃ e, stringBody (out, i.text ++ t) = .done (.error e) := by
  cases i with
  | char c printed quote backslash =>
    change stringBody (out, c :: t) = .next (out ++ [c], t)
    unfold stringBody
    dsimp only
    rw [if_neg quote, if_neg backslash]
  | short s =>
    change stringBody (out, '\\' :: s.letter :: t) = .next (out ++ [s.char], t)
    unfold stringBody
    dsimp only
    rw [if_neg (by decide), if_pos rfl, escape_short]
  | code a b c d =>
    have hescape := escape_code a b c d t
    change match unit (Item.codeValue a b c d) with
      | some x => stringBody (out, '\\' :: 'u' :: a.char :: b.char :: c.char :: d.char :: t) = .next (out ++ [x], t)
      | none => ∃ e, stringBody (out, '\\' :: 'u' :: a.char :: b.char :: c.char :: d.char :: t) = .done (.error e)
    unfold stringBody
    dsimp only
    rw [if_neg (by decide), if_pos rfl]
    cases hunit : unit (Item.codeValue a b c d) with
    | none =>
      rw [hunit] at hescape
      obtain ⟨e, he⟩ := hescape
      rw [he]
      exact ⟨e, rfl⟩
    | some x =>
      rw [hunit] at hescape
      dsimp only [Gives] at hescape ⊢
      rw [hescape]

theorem stringLoop_items (s : List Item) (out rest : Text) :
    Gives (stringLoop.eval (out, s.flatMap Item.text ++ '"' :: rest)) ((alones s).map (out ++ ·)) rest := by
  induction s generalizing out with
  | nil =>
    have hbody : stringLoop.body (out, '"' :: rest) = .done (.ok (out, rest)) := rfl
    change stringLoop.eval (out, '"' :: rest) = .ok (out ++ [], rest)
    rw [While.eval_done _ hbody, List.append_nil]
  | cons i s ih =>
    have hbody := stringBody_item i out (s.flatMap Item.text ++ '"' :: rest)
    rw [List.flatMap_cons, List.append_assoc, alones, List.mapM_cons]
    cases hi : i.alone with
    | none =>
      rw [hi] at hbody
      obtain ⟨e, he⟩ := hbody
      exact ⟨e, While.eval_done _ he⟩
    | some c =>
      rw [hi] at hbody
      rw [While.eval_next _ hbody]
      have hrest := ih (out ++ [c])
      unfold alones at hrest
      cases hs : s.mapM Item.alone with
      | none =>
        rw [hs] at hrest
        exact hrest
      | some cs =>
        rw [hs] at hrest
        change _ = Except.ok (out ++ c :: cs, rest)
        rw [List.append_cons out c cs]
        exact hrest

theorem string_quoted (s : List Item) (rest : Text) : Gives (string (quoted s ++ rest)) (alones s) rest := by
  have hloop := stringLoop_items s [] rest
  have htext : quoted s ++ rest = '"' :: (s.flatMap Item.text ++ '"' :: rest) := by
    rw [quoted, List.cons_append, List.append_assoc, List.singleton_append]
  have hmap : (alones s).map (([] : Text) ++ ·) = alones s := Option.map_id'
  rw [hmap] at hloop
  rw [htext]
  exact hloop

end Strings

section Spaces

variable {rest : Text}

theorem skipWs_space (space : Space) : skipWs (space.text ++ rest) = skipWs rest :=
  List.dropWhile_append_of_pos space.valid

theorem skipWs_cons {c : Char} (hc : isSpace c = false) : skipWs (c :: rest) = c :: rest :=
  List.dropWhile_cons_of_neg (by rw [Bool.not_eq_true]; exact hc)

theorem skipWs_skipWs (t : Text) : skipWs (skipWs t) = skipWs t := List.dropWhile_idempotent _ _

/-- What cannot go on with a number. -/
def Stops (rest : Text) : Prop := ∀ c ∈ rest.head?, numChar c = false

theorem stops_cons {c : Char} (hc : numChar c = false) : Stops (c :: rest) := by
  intro d hd
  cases hd
  exact hc

theorem numChar_of_isSpace {c : Char} (h : isSpace c = true) : numChar c = false := by
  simp only [isSpace, Bool.or_eq_true, decide_eq_true_eq] at h
  obtain ((rfl | rfl) | rfl) | rfl := h <;> rfl

theorem stops_space (space : Space) (h : Stops rest) : Stops (space.text ++ rest) := by
  intro c hc
  cases htext : space.text with
  | nil =>
    rw [htext] at hc
    exact h c hc
  | cons d t =>
    rw [htext] at hc
    cases hc
    exact numChar_of_isSpace (space.valid c (htext ▸ List.mem_cons_self))

end Spaces

section Scalars

variable {inner : Option (Reader Json)} {rest : Text}

theorem isDigit_numChar {c : Char} (h : c.isDigit = true) : numChar c = true := by
  simp [numChar, h]

/-- The characters of a number are those that numbers are taken from. -/
theorem numChar_of_mem (n : Number) {c : Char} (h : c ∈ n.text) : numChar c = true := by
  have hdigits : ∀ d : Digits, c ∈ d.text → numChar c = true := fun d hc => isDigit_numChar (d.valid c hc)
  unfold Number.text Number.wholeText at h
  rcases List.mem_append.mp h with h | h
  · cases hneg : n.neg with
    | false =>
      rw [hneg] at h
      exact hdigits n.whole h
    | true =>
      rw [hneg] at h
      rcases List.mem_cons.mp h with rfl | h
      · rfl
      · exact hdigits n.whole h
  · rcases List.mem_append.mp h with h | h
    · cases hfrac : n.frac with
      | none =>
        rw [hfrac] at h
        cases h
      | some d =>
        rw [hfrac] at h
        rcases List.mem_cons.mp h with rfl | h
        · rfl
        · exact hdigits d h
    · cases hexp : n.exp with
      | none =>
        rw [hexp] at h
        cases h
      | some e =>
        rw [hexp] at h
        rcases List.mem_cons.mp h with rfl | h
        · cases e.upper <;> rfl
        · rcases List.mem_append.mp h with h | h
          · cases hsign : e.sign with
            | none =>
              rw [hsign] at h
              cases h
            | some neg =>
              rw [hsign] at h
              cases neg <;> cases List.mem_singleton.mp h <;> rfl
          · exact hdigits e.digits h

theorem number_text (n : Number) (hrest : Stops rest) :
    Gives (number (n.text ++ rest)) ((Double.finite n.value).map fun q => .num (some q)) rest := by
  obtain ⟨htake, hdrop⟩ := span_of_stop (fun c hc => numChar_of_mem n hc) hrest
  unfold number
  dsimp only
  rw [htake, hdrop, Double.parseDouble, exactValue_text, Option.map_some]
  cases Double.finite n.value with
  | none => exact ⟨_, rfl⟩
  | some q => rfl

theorem valueIn_number (n : Number) (hrest : Stops rest) :
    Gives (valueIn inner (n.text ++ rest)) ((Double.finite n.value).map fun q => .num (some q)) rest := by
  obtain ⟨c, t, hcons, hc⟩ := n.exists_cons
  have hnumber := number_text n hrest
  rw [hcons, List.cons_append] at hnumber ⊢
  have hspace : isSpace c = false := by
    simp only [isSpace, Bool.or_eq_false_iff, decide_eq_false_iff_not]
    exact ⟨⟨⟨digit_ne hc (by decide), digit_ne hc (by decide)⟩, digit_ne hc (by decide)⟩, digit_ne hc (by decide)⟩
  unfold valueIn
  rw [skipWs_cons hspace]
  dsimp only
  rw [if_neg (digit_ne hc (by decide)), if_neg (digit_ne hc (by decide)), if_neg (digit_ne hc (by decide)),
    if_neg (not_or.mpr ⟨digit_ne hc (by decide), digit_ne hc (by decide)⟩), if_neg (digit_ne hc (by decide)), if_pos hc]
  exact hnumber

theorem valueIn_string (s : List Item) :
    Gives (valueIn inner (quoted s ++ rest)) ((alones s).map .str) rest := by
  have hstring := string_quoted s rest
  have hvalue : valueIn inner (quoted s ++ rest) = (string (quoted s ++ rest)).map fun p => (.str p.1, p.2) := rfl
  rw [hvalue]
  cases halone : alones s with
  | none =>
    rw [halone] at hstring
    obtain ⟨e, he⟩ := hstring
    rw [he]
    exact ⟨e, rfl⟩
  | some t =>
    rw [halone] at hstring
    dsimp only [Gives] at hstring
    rw [hstring]
    rfl

end Scalars

section Containers

variable {k : ℕ} {t t₁ t₂ t₃ rest : Text} {v : Json}

theorem exists_inner (k : ℕ) : ∃ inner, (value k).read = valueIn inner := by
  cases k with
  | zero => exact ⟨none, rfl⟩
  | succ k => exact ⟨some (value k), rfl⟩

theorem read_skipWs (k : ℕ) (t : Text) : (value k).read (skipWs t) = (value k).read t := by
  obtain ⟨inner, hread⟩ := exists_inner k
  rw [hread]
  unfold valueIn
  rw [skipWs_skipWs]

theorem read_space (k : ℕ) (space : Space) (t : Text) : (value k).read (space.text ++ t) = (value k).read t := by
  rw [← read_skipWs k (space.text ++ t), skipWs_space, read_skipWs]

theorem arrayLoop_skipWs (out : List Json) :
    (arrayLoop (value k)).eval (out, skipWs t) = (arrayLoop (value k)).eval (out, t) := by
  have hbody : (arrayLoop (value k)).body (out, skipWs t) = (arrayLoop (value k)).body (out, t) := by
    change arrayBody _ (out, skipWs t) = arrayBody _ (out, t)
    unfold arrayBody
    rw [read_skipWs]
  cases hb : (arrayLoop (value k)).body (out, t) with
  | done r => rw [While.eval_done _ hb, While.eval_done _ (hbody.trans hb)]
  | next s => rw [While.eval_next _ hb, While.eval_next _ (hbody.trans hb)]

theorem array_next (out : List Json) (hread : (value k).read t = .ok (v, t₁)) (hcomma : skipWs t₁ = ',' :: rest) :
    (arrayLoop (value k)).eval (out, t) = (arrayLoop (value k)).eval (out ++ [v], rest) := by
  have hbody : (arrayLoop (value k)).body (out, t) = .next (out ++ [v], skipWs rest) := by
    change arrayBody _ (out, t) = _
    unfold arrayBody
    simp only [hread, hcomma]
  rw [While.eval_next _ hbody, arrayLoop_skipWs]

theorem array_last (out : List Json) (hread : (value k).read t = .ok (v, t₁)) (hend : skipWs t₁ = ']' :: rest) :
    (arrayLoop (value k)).eval (out, t) = .ok (.arr (out ++ [v]), rest) := by
  refine While.eval_done _ ?_
  change arrayBody _ (out, t) = _
  unfold arrayBody
  simp only [hread, hend]

theorem array_error (out : List Json) {e : Text} (hread : (value k).read t = .error e) :
    (arrayLoop (value k)).eval (out, t) = .error e := by
  refine While.eval_done _ ?_
  change arrayBody _ (out, t) = _
  unfold arrayBody
  simp only [hread]

section Member

variable {key : Text} (out : List (Text × Json)) (hkey : string (skipWs t) = .ok (key, t₁))
  (hcolon : skipWs t₁ = ':' :: t₂)

include hkey hcolon

theorem object_next (hread : (value k).read t₂ = .ok (v, t₃)) (hcomma : skipWs t₃ = ',' :: rest) :
    (objectLoop (value k)).eval (out, t) = (objectLoop (value k)).eval (SortedMap.insert key v out, rest) := by
  refine While.eval_next _ ?_
  change objectBody _ (out, t) = _
  unfold objectBody
  simp only [hkey, hcolon, hread, hcomma]

theorem object_last (hread : (value k).read t₂ = .ok (v, t₃)) (hend : skipWs t₃ = '}' :: rest) :
    (objectLoop (value k)).eval (out, t) = .ok (.obj (SortedMap.insert key v out), rest) := by
  refine While.eval_done _ ?_
  change objectBody _ (out, t) = _
  unfold objectBody
  simp only [hkey, hcolon, hread, hend]

theorem object_error {e : Text} (hread : (value k).read t₂ = .error e) :
    (objectLoop (value k)).eval (out, t) = .error e := by
  refine While.eval_done _ ?_
  change objectBody _ (out, t) = _
  unfold objectBody
  simp only [hkey, hcolon, hread]

end Member

theorem object_keyError (out : List (Text × Json)) {e : Text} (hkey : string (skipWs t) = .error e) :
    (objectLoop (value k)).eval (out, t) = .error e := by
  refine While.eval_done _ ?_
  change objectBody _ (out, t) = _
  unfold objectBody
  simp only [hkey]

/-- A container that is not empty is read by its loop. -/
theorem array_of_item {c : Char} (hcons : skipWs t = c :: t₁) (hc : c ≠ ']') :
    array (value k) t = (arrayLoop (value k)).eval ([], t) := by
  unfold array
  rw [hcons]
  split
  · rename_i heq
    exact absurd (List.cons.inj heq).1 hc
  · rw [← hcons, arrayLoop_skipWs]

theorem object_of_member {c : Char} (hcons : skipWs t = c :: t₁) (hc : c ≠ '}') :
    object (value k) t = (objectLoop (value k)).eval ([], t) := by
  have hskip : (objectLoop (value k)).eval ([], skipWs t) = (objectLoop (value k)).eval ([], t) := by
    have hbody : (objectLoop (value k)).body ([], skipWs t) = (objectLoop (value k)).body ([], t) := by
      change objectBody _ ([], skipWs t) = objectBody _ ([], t)
      unfold objectBody
      rw [skipWs_skipWs]
    cases hb : (objectLoop (value k)).body ([], t) with
    | done r => rw [While.eval_done _ hb, While.eval_done _ (hbody.trans hb)]
    | next s => rw [While.eval_next _ hb, While.eval_next _ (hbody.trans hb)]
  unfold object
  rw [hcons]
  split
  · rename_i heq
    exact absurd (List.cons.inj heq).1 hc
  · rw [← hcons, hskip]

end Containers

section Trees

theorem Items.exists_cons (x : Items) (rest : Text) :
    ∃ c t, skipWs (x.text ++ rest) = c :: t ∧ c ≠ ']' := by
  have hfirst : ∀ (space : Space) (item : Tree) (t : Text),
      ∃ c t', skipWs (space.text ++ (item.text ++ t) ++ rest) = c :: t' ∧ c ≠ ']' := by
    intro space item t
    obtain ⟨c, t', hcons, hspace, hc, -⟩ := item.exists_cons
    refine ⟨c, t' ++ t ++ rest, ?_, hc⟩
    rw [List.append_assoc, skipWs_space, hcons, List.cons_append, List.cons_append, skipWs_cons hspace]
  cases x with
  | last before item after => exact hfirst before item after.text
  | cons before item after more => exact hfirst before item (after.text ++ ',' :: more.text)

theorem skipWs_quoted (space : Space) (s : List Item) (t : Text) :
    skipWs (space.text ++ (quoted s ++ t)) = quoted s ++ t := by
  rw [skipWs_space]
  exact skipWs_cons rfl

theorem Members.exists_cons (x : Members) (rest : Text) :
    ∃ c t, skipWs (x.text ++ rest) = c :: t ∧ c ≠ '}' := by
  have hfirst : ∀ (space : Space) (s : List Item) (t : Text),
      ∃ c t', skipWs (space.text ++ (quoted s ++ t) ++ rest) = c :: t' ∧ c ≠ '}' := by
    intro space s t
    refine ⟨'"', s.flatMap Item.text ++ ['"'] ++ t ++ rest, ?_, by decide⟩
    rw [List.append_assoc, skipWs_space]
    exact skipWs_cons rfl
  cases x with
  | last before key between ahead val after => exact hfirst before key _
  | cons before key between ahead val after more => exact hfirst before key _

theorem skipWs_spaces (space : Space) {c : Char} (hc : isSpace c = false) (t : Text) :
    skipWs (space.text ++ c :: t) = c :: t := by
  rw [skipWs_space, skipWs_cons hc]

mutual

/-- The parser makes of a text of the grammar what its items are one by one. -/
theorem read_tree : ∀ (x : Tree) {k : ℕ}, x.depth ≤ k → ∀ {rest : Text}, Stops rest →
    Gives ((value k).read (x.text ++ rest)) (meaning alones x) rest
  | .null, k, _, rest, _ => by
    cases k <;> rfl
  | .bool b, k, _, rest, _ => by
    cases k <;> cases b <;> rfl
  | .num n, k, _, rest, hrest => by
    obtain ⟨inner, hread⟩ := exists_inner k
    rw [hread, Tree.text, meaning]
    exact valueIn_number n hrest
  | .str s, k, _, rest, _ => by
    obtain ⟨inner, hread⟩ := exists_inner k
    rw [hread, Tree.text, meaning]
    exact valueIn_string s
  | .emptyArr space, k, hk, rest, _ => by
    obtain ⟨k, rfl⟩ : ∃ n, k = n + 1 := ⟨k - 1, by simp only [Tree.depth] at hk; omega⟩
    have hread : (value (k + 1)).read (Tree.text (.emptyArr space) ++ rest) = array (value k) (space.text ++ [']'] ++ rest) := rfl
    rw [hread, List.append_assoc, List.singleton_append]
    unfold array
    rw [skipWs_spaces space rfl]
    rfl
  | .arr items, k, hk, rest, _ => by
    obtain ⟨k, rfl⟩ : ∃ n, k = n + 1 := ⟨k - 1, by simp only [Tree.depth] at hk; omega⟩
    have hread : (value (k + 1)).read (Tree.text (.arr items) ++ rest) = array (value k) (items.text ++ [']'] ++ rest) := rfl
    obtain ⟨c, t, hcons, hc⟩ := Items.exists_cons items (']' :: rest)
    rw [hread, List.append_assoc, List.singleton_append, array_of_item hcons hc, meaning]
    exact read_items items (Nat.le_of_succ_le_succ hk) [] rest
  | .emptyObj space, k, hk, rest, _ => by
    obtain ⟨k, rfl⟩ : ∃ n, k = n + 1 := ⟨k - 1, by simp only [Tree.depth] at hk; omega⟩
    have hread : (value (k + 1)).read (Tree.text (.emptyObj space) ++ rest) = object (value k) (space.text ++ ['}'] ++ rest) := rfl
    rw [hread, List.append_assoc, List.singleton_append]
    unfold object
    rw [skipWs_spaces space rfl]
    rfl
  | .obj members, k, hk, rest, _ => by
    obtain ⟨k, rfl⟩ : ∃ n, k = n + 1 := ⟨k - 1, by simp only [Tree.depth] at hk; omega⟩
    have hread : (value (k + 1)).read (Tree.text (.obj members) ++ rest) = object (value k) (members.text ++ ['}'] ++ rest) := rfl
    obtain ⟨c, t, hcons, hc⟩ := Members.exists_cons members ('}' :: rest)
    rw [hread, List.append_assoc, List.singleton_append, object_of_member hcons hc, meaning]
    exact read_members members (Nat.le_of_succ_le_succ hk) [] rest

theorem read_items : ∀ (x : Items) {k : ℕ}, x.depth ≤ k → ∀ (out : List Json) (rest : Text),
    Gives ((arrayLoop (value k)).eval (out, x.text ++ ']' :: rest))
      ((itemMeanings alones x).map fun vs => .arr (out ++ vs)) rest
  | .last before item after, k, hk, out, rest => by
    have hstops : Stops (after.text ++ ']' :: rest) := stops_space after (stops_cons rfl)
    have hitem := read_tree item hk hstops
    have htext : Items.text (.last before item after) ++ ']' :: rest =
        before.text ++ (item.text ++ (after.text ++ ']' :: rest)) := by
      simp only [Items.text, List.append_assoc]
    rw [← read_space k before] at hitem
    rw [htext, itemMeanings]
    cases hmeaning : meaning alones item with
    | none =>
      rw [hmeaning] at hitem
      obtain ⟨e, he⟩ := hitem
      exact ⟨e, array_error out he⟩
    | some v =>
      rw [hmeaning] at hitem
      exact array_last out hitem (skipWs_spaces after rfl rest)
  | .cons before item after more, k, hk, out, rest => by
    have hstops : Stops (after.text ++ ',' :: (more.text ++ ']' :: rest)) := stops_space after (stops_cons rfl)
    have hitem := read_tree item ((le_max_left _ _).trans hk) hstops
    have htext : Items.text (.cons before item after more) ++ ']' :: rest =
        before.text ++ (item.text ++ (after.text ++ ',' :: (more.text ++ ']' :: rest))) := by
      simp only [Items.text, List.append_assoc, List.cons_append]
    rw [← read_space k before] at hitem
    rw [htext, itemMeanings]
    cases hmeaning : meaning alones item with
    | none =>
      rw [hmeaning] at hitem
      obtain ⟨e, he⟩ := hitem
      exact ⟨e, array_error out he⟩
    | some v =>
      rw [hmeaning] at hitem
      have hmore := read_items more ((le_max_right _ _).trans hk) (out ++ [v]) rest
      rw [array_next out hitem (skipWs_spaces after rfl _), Option.bind_some, Option.map_map]
      simp only [List.append_assoc, List.singleton_append] at hmore
      exact hmore

theorem read_members : ∀ (x : Members) {k : ℕ}, x.depth ≤ k → ∀ (out : List (Text × Json)) (rest : Text),
    Gives ((objectLoop (value k)).eval (out, x.text ++ '}' :: rest))
      ((memberMeanings alones x).map fun ps =>
        .obj (ps.foldl (fun fields p => SortedMap.insert p.1 p.2 fields) out)) rest
  | .last before key between ahead val after, k, hk, out, rest => by
    have hstops : Stops (after.text ++ '}' :: rest) := stops_space after (stops_cons rfl)
    have hval := read_tree val hk hstops
    have htext : Members.text (.last before key between ahead val after) ++ '}' :: rest =
        before.text ++ (quoted key ++ (between.text ++ ':' :: (ahead.text ++ (val.text ++
          (after.text ++ '}' :: rest))))) := by
      simp only [Members.text, List.append_assoc, List.cons_append]
    have hkey := string_quoted key (between.text ++ ':' :: (ahead.text ++ (val.text ++
      (after.text ++ '}' :: rest))))
    rw [← skipWs_quoted before key] at hkey
    rw [← read_space k ahead] at hval
    rw [htext, memberMeanings]
    cases halone : alones key with
    | none =>
      rw [halone] at hkey
      obtain ⟨e, he⟩ := hkey
      exact ⟨e, object_keyError out he⟩
    | some name =>
      rw [halone] at hkey
      rw [Option.bind_some]
      cases hmeaning : meaning alones val with
      | none =>
        rw [hmeaning] at hval
        obtain ⟨e, he⟩ := hval
        exact ⟨e, object_error out hkey (skipWs_spaces between rfl _) he⟩
      | some v =>
        rw [hmeaning] at hval
        exact object_last out hkey (skipWs_spaces between rfl _) hval (skipWs_spaces after rfl rest)
  | .cons before key between ahead val after more, k, hk, out, rest => by
    have hstops : Stops (after.text ++ ',' :: (more.text ++ '}' :: rest)) := stops_space after (stops_cons rfl)
    have hval := read_tree val ((le_max_left _ _).trans hk) hstops
    have htext : Members.text (.cons before key between ahead val after more) ++ '}' :: rest =
        before.text ++ (quoted key ++ (between.text ++ ':' :: (ahead.text ++ (val.text ++
          (after.text ++ ',' :: (more.text ++ '}' :: rest)))))) := by
      simp only [Members.text, List.append_assoc, List.cons_append]
    have hkey := string_quoted key (between.text ++ ':' :: (ahead.text ++ (val.text ++
      (after.text ++ ',' :: (more.text ++ '}' :: rest)))))
    rw [← skipWs_quoted before key] at hkey
    rw [← read_space k ahead] at hval
    rw [htext, memberMeanings]
    cases halone : alones key with
    | none =>
      rw [halone] at hkey
      obtain ⟨e, he⟩ := hkey
      exact ⟨e, object_keyError out he⟩
    | some name =>
      rw [halone] at hkey
      rw [Option.bind_some]
      cases hmeaning : meaning alones val with
      | none =>
        rw [hmeaning] at hval
        obtain ⟨e, he⟩ := hval
        exact ⟨e, object_error out hkey (skipWs_spaces between rfl _) he⟩
      | some v =>
        rw [hmeaning] at hval
        have hmore := read_members more ((le_max_right _ _).trans hk) (SortedMap.insert name v out) rest
        rw [object_next out hkey (skipWs_spaces between rfl _) hval (skipWs_spaces after rfl _), Option.bind_some,
          Option.map_map]
        exact hmore

end

end Trees

/-- A document is read as what its items are one by one. -/
theorem parse_document (x : Document) (hdepth : x.tree.depth ≤ MAX_DEPTH) :
    match meaning alones x.tree with
    | some v => parse x.text = .ok v
    | none => ∃ e, parse x.text = .error e := by
  have hstops : Stops x.after.text := by
    intro c hc
    exact numChar_of_isSpace (x.after.valid c (List.mem_of_mem_head? hc))
  have hread := read_tree x.tree hdepth hstops
  have hskip : (value MAX_DEPTH).read (skipWs x.text) = (value MAX_DEPTH).read (x.tree.text ++ x.after.text) := by
    rw [read_skipWs, Document.text, read_space]
  have hafter : skipWs x.after.text = [] := List.dropWhile_eq_nil_iff.mpr x.after.valid
  unfold parse
  rw [hskip]
  cases hmeaning : meaning alones x.tree with
  | none =>
    rw [hmeaning] at hread
    obtain ⟨e, he⟩ := hread
    rw [he]
    exact ⟨e, rfl⟩
  | some v =>
    rw [hmeaning] at hread
    dsimp only [Gives] at hread
    rw [hread]
    exact if_pos hafter

/-- A text of the grammar that denotes a value is read as that value, exactly when no code in its
strings is the half of a character. -/
theorem parse_ok_iff (x : Document) {v : Json} (hdepth : x.tree.depth ≤ MAX_DEPTH)
    (hv : meaning chars x.tree = some v) : parse x.text = .ok v ↔ x.tree.All Item.Whole := by
  have hparse := parse_document x hdepth
  by_cases hwhole : x.tree.All Item.Whole
  · rw [meaning_of_whole x.tree hwhole, hv] at hparse
    exact iff_of_true hparse hwhole
  · rw [meaning_of_half x.tree hwhole] at hparse
    obtain ⟨e, he⟩ := hparse
    refine iff_of_false (fun hok => ?_) hwhole
    rw [he] at hok
    cases hok

section Pairs

/-- A text with spaces, a code in a key, and a number and an escape in an array. -/
def spacedText : Document :=
  ⟨.blank, .obj (.last .blank [.code (.of 0x0) (.of 0x0) (.of 0x4) (.of 0x1)] .blank .none
    (.arr (.cons .none (.num (.ofInt (-15))) .blank (.last .blank (.str [.short .tab]) .none))) .blank), .none⟩

theorem spaced_meaning : meaning chars spacedText.tree =
    some (.obj [(['A'], .arr [.num (some ((-15 : ℤ) : ℚ)), .str ['\t']])]) := by
  have hkey : chars [.code (.of 0x0) (.of 0x0) (.of 0x4) (.of 0x1)] = some ['A'] := by decide +kernel
  have htab : chars [.short .tab] = some ['\t'] := by decide +kernel
  have hnumber : Double.finite (Number.ofInt (-15)).value = some ((-15 : ℤ) : ℚ) := by
    rw [Number.ofInt_value, Double.finite_intCast (by decide)]
  rw [spacedText, meaning, memberMeanings, hkey, meaning, itemMeanings, itemMeanings, meaning, hnumber, meaning, htab]
  rfl

theorem spaced_accepted : parse spacedText.text =
    .ok (.obj [(['A'], .arr [.num (some ((-15 : ℤ) : ℚ)), .str ['\t']])]) := by
  have hdepth : spacedText.tree.depth ≤ MAX_DEPTH := by decide
  refine (parse_ok_iff spacedText hdepth spaced_meaning).mpr ⟨?_, trivial, ?_⟩
  · exact List.forall_mem_singleton.mpr (by unfold Item.Whole; decide)
  · exact List.forall_mem_singleton.mpr trivial

/-- A character beyond the first 65,536, given by its two codes. -/
def pairText : Document :=
  ⟨.none, .str [.code (.of 0xd) (.of 0x8) (.of 0x3) (.of 0xd), .code (.of 0xd) (.of 0xe) (.of 0x0) (.of 0x0)], .none⟩

theorem pair_refused : pairText.text = "\"\\ud83d\\ude00\"".toList ∧
    meaning chars pairText.tree = some (.str "😀".toList) ∧
    parse pairText.text = .error "invalid unicode code point".toList ∧
    ¬ ∀ (x : Document) (v : Json), x.tree.depth ≤ MAX_DEPTH → meaning chars x.tree = some v → parse x.text = .ok v := by
  have htext : pairText.text = "\"\\ud83d\\ude00\"".toList := by decide +kernel
  have hmeaning : meaning chars pairText.tree = some (.str "😀".toList) := by
    have hchars : chars [.code (.of 0xd) (.of 0x8) (.of 0x3) (.of 0xd), .code (.of 0xd) (.of 0xe) (.of 0x0) (.of 0x0)] =
      some "😀".toList := by decide +kernel
    rw [pairText, meaning, hchars]
    rfl
  have hparse : parse pairText.text = .error "invalid unicode code point".toList := rfl
  refine ⟨htext, hmeaning, hparse, fun h => ?_⟩
  rw [h pairText _ (by decide) hmeaning] at hparse
  cases hparse

end Pairs

end Json

end Unearth
