import Unearth.Json
import Unearth.Lib.Double
import Unearth.Lib.Hex
import Unearth.Lib.Loop
import Unearth.Lib.SortedMap

/-!
# The parser of JSON texts

A value is read off the front of a text. What has been read is always something, so that the
loops over the items and members come to an end. A container whose depth is too large is
refused; of members with the same key the last one stays.
-/

namespace Unearth
open Lines Loop Hex

/-- What is read off the front of a text, and the rest, or what is wrong with it. -/
abbrev Parsed (α : Type) := Except Text (α × Text)

/-- What is read takes up at least one character. -/
def Consumes {α : Type} (p : Text → Parsed α) : Prop :=
  ∀ {t a rest}, p t = .ok (a, rest) → rest.length < t.length

structure Reader (α : Type) where
  read : Text → Parsed α
  consumes : Consumes read

namespace Json

namespace Parser

def skipWs (t : Text) : Text := t.dropWhile fun c => c = ' ' || c = '\t' || c = '\n' || c = '\r'

theorem length_skipWs (t : Text) : (skipWs t).length ≤ t.length := List.length_dropWhile_le _ _

def expect (word t : Text) : Except Text Text :=
  if word.isPrefixOf t then .ok (t.drop word.length) else .error ("expected '".toList ++ word ++ ['\''])

def null (t : Text) : Parsed Json := (expect "null".toList t).map fun t => (.null, t)

def boolean (t : Text) : Parsed Json :=
  if t.head? = some 't' then (expect "true".toList t).map fun t => (.bool true, t)
  else (expect "false".toList t).map fun t => (.bool false, t)

/-- The characters that a number is taken from; the sign in front is one of them. -/
def numChar (c : Char) : Bool := c.isDigit || c = '.' || c = 'e' || c = 'E' || c = '+' || c = '-'

/-- The words for infinities and for no number have letters that no number is taken from. -/
def number (t : Text) : Parsed Json :=
  let s := t.takeWhile numChar
  match Double.parseDouble s with
  | none => .error ("invalid number '".toList ++ s ++ ['\''])
  | some none => .error ("number out of range '".toList ++ s ++ ['\''])
  | some (some q) => .ok (.num (some q), t.dropWhile numChar)

/-- A code is a character unless it is one half of a pair. -/
def charOfCode (code : ℕ) : Option Char := if code.isValidChar then some (Char.ofNat code) else none

/-- The value of hexadecimal digits, of which so many are still to come. -/
def hexCode : ℕ → ℕ → Text → Parsed ℕ
  | 0, code, t => .ok (code, t)
  | _ + 1, _, [] => .error "truncated \\u escape".toList
  | left + 1, code, c :: t =>
    match hexDigit c with
    | none => .error "invalid \\u escape".toList
    | some d => hexCode left (code * 16 + d) t

def unicodeEscape (t : Text) : Parsed Char :=
  match hexCode 4 0 t with
  | .error e => .error e
  | .ok (code, t) =>
    match charOfCode code with
    | none => .error "invalid unicode code point".toList
    | some c => .ok (c, t)

def simpleEscape (c : Char) : Option Char :=
  if c = '"' then some '"'
  else if c = '\\' then some '\\'
  else if c = '/' then some '/'
  else if c = 'n' then some '\n'
  else if c = 'r' then some '\r'
  else if c = 't' then some '\t'
  else if c = 'b' then some '\x08'
  else if c = 'f' then some '\x0c'
  else none

/-- What follows a backslash. -/
def escape : Text → Parsed Char
  | [] => .error "invalid escape".toList
  | c :: t =>
    match simpleEscape c with
    | some d => .ok (d, t)
    | none => if c = 'u' then unicodeEscape t else .error "invalid escape".toList

theorem length_hexCode {left code n : ℕ} {t rest : Text} (h : hexCode left code t = .ok (n, rest)) :
    rest.length ≤ t.length := by
  induction left generalizing code t with
  | zero =>
    cases h
    exact le_rfl
  | succ left ih =>
    cases t with
    | nil => cases h
    | cons c t =>
      unfold hexCode at h
      cases hd : hexDigit c with
      | none =>
        rw [hd] at h
        cases h
      | some d =>
        rw [hd] at h
        exact (ih h).trans (Nat.le_succ _)

theorem length_unicodeEscape {t rest : Text} {c : Char} (h : unicodeEscape t = .ok (c, rest)) :
    rest.length ≤ t.length := by
  unfold unicodeEscape at h
  cases hcode : hexCode 4 0 t with
  | error e =>
    rw [hcode] at h
    cases h
  | ok r =>
    obtain ⟨code, t'⟩ := r
    rw [hcode] at h
    dsimp only at h
    cases hchar : charOfCode code with
    | none =>
      rw [hchar] at h
      cases h
    | some d =>
      rw [hchar] at h
      cases h
      exact length_hexCode hcode

theorem escape_consumes : Consumes escape := by
  intro t c rest h
  cases t with
  | nil => cases h
  | cons e t =>
    unfold escape at h
    dsimp only at h
    cases hsimple : simpleEscape e with
    | some d =>
      rw [hsimple] at h
      cases h
      exact Nat.lt_succ_self _
    | none =>
      rw [hsimple] at h
      dsimp only at h
      split_ifs at h
      exact Nat.lt_succ_of_le (length_unicodeEscape h)

/-- One character of a string, or its end. -/
def stringBody (s : Text × Text) : Ctl (Text × Text) (Parsed Text) :=
  match s.2 with
  | [] => .done (.error "unterminated string".toList)
  | c :: t =>
    if c = '"' then .done (.ok (s.1, t))
    else if c = '\\' then
      match escape t with
      | .error e => .done (.error e)
      | .ok (d, t) => .next (s.1 ++ [d], t)
    else .next (s.1 ++ [c], t)

def stringLoop : While (Text × Text) (Parsed Text) where
  body := stringBody
  measure s := s.2.length
  decreases := by
    rintro ⟨out, t⟩ ⟨out', t'⟩ h
    cases t with
    | nil => cases h
    | cons c t =>
      unfold stringBody at h
      dsimp only at h
      split_ifs at h
      · cases he : escape t with
        | error e =>
          rw [he] at h
          cases h
        | ok r =>
          obtain ⟨d, rest⟩ := r
          rw [he] at h
          cases h
          exact (escape_consumes he).trans (Nat.lt_succ_self _)
      · cases h
        exact Nat.lt_succ_self _

def string : Text → Parsed Text
  | [] => .error "expected string".toList
  | c :: t => if c = '"' then stringLoop.eval ([], t) else .error "expected string".toList

/-- A loop that shortens what is left, and ends with no more than that, leaves no more than it has
begun with. -/
theorem length_eval {α β : Type} {w : While (α × Text) (Parsed β)} (hmeasure : ∀ s, w.measure s = s.2.length)
    (hdone : ∀ s a rest, w.body s = .done (.ok (a, rest)) → rest.length ≤ s.2.length) {s : α × Text} {a : β}
    {rest : Text} (h : w.eval s = .ok (a, rest)) : rest.length ≤ s.2.length := by
  induction s using w.induct with
  | step s ih =>
    cases hb : w.body s with
    | next s' =>
      rw [While.eval_next _ hb] at h
      have hlt := w.decreases _ _ hb
      rw [hmeasure, hmeasure] at hlt
      exact (ih s' hb h).trans hlt.le
    | done r =>
      rw [While.eval_done _ hb] at h
      exact hdone s a rest (h ▸ hb)

theorem length_stringLoop {s : Text × Text} {a rest : Text} (h : stringLoop.eval s = .ok (a, rest)) :
    rest.length ≤ s.2.length := by
  refine length_eval (fun _ => rfl) (fun s a rest hb => ?_) h
  obtain ⟨out, t⟩ := s
  change stringBody (out, t) = _ at hb
  cases t with
  | nil => cases hb
  | cons c t =>
    unfold stringBody at hb
    dsimp only at hb
    split_ifs at hb
    · cases hb
      exact Nat.le_succ _
    · split at hb <;> cases hb

theorem string_consumes : Consumes string := by
  intro t s rest h
  cases t with
  | nil => cases h
  | cons c t =>
    unfold string at h
    dsimp only at h
    split_ifs at h
    exact Nat.lt_succ_of_le (length_stringLoop h)

section Containers

variable (item : Reader Json)

def arrayBody (s : List Json × Text) : Ctl (List Json × Text) (Parsed Json) :=
  match item.read s.2 with
  | .error e => .done (.error e)
  | .ok (v, t) =>
    match skipWs t with
    | ',' :: t => .next (s.1 ++ [v], skipWs t)
    | ']' :: t => .done (.ok (.arr (s.1 ++ [v]), t))
    | _ => .done (.error "expected ',' or ']'".toList)

def arrayLoop : While (List Json × Text) (Parsed Json) where
  body := arrayBody item
  measure s := s.2.length
  decreases := by
    rintro ⟨out, t⟩ ⟨out', t'⟩ h
    unfold arrayBody at h
    dsimp only at h
    split at h
    · cases h
    · rename_i v rest hread
      have hlt := item.consumes hread
      have hskip := length_skipWs rest
      split at h
      · rename_i next hnext
        cases h
        rw [hnext, List.length_cons] at hskip
        have hskip' := length_skipWs next
        dsimp only
        omega
      · cases h
      · cases h

/-- An array behind its opening bracket. -/
def array (t : Text) : Parsed Json :=
  match skipWs t with
  | ']' :: t => .ok (.arr [], t)
  | t => (arrayLoop item).eval ([], t)

/-- One member and the comma behind it, or the end of the object. -/
def objectBody (s : List (Text × Json) × Text) : Ctl (List (Text × Json) × Text) (Parsed Json) :=
  match string (skipWs s.2) with
  | .error e => .done (.error e)
  | .ok (key, t) =>
    match skipWs t with
    | ':' :: t =>
      match item.read t with
      | .error e => .done (.error e)
      | .ok (val, t) =>
        let out := SortedMap.insert key val s.1
        match skipWs t with
        | ',' :: t => .next (out, t)
        | '}' :: t => .done (.ok (.obj out, t))
        | _ => .done (.error "expected ',' or '\x7d'".toList)
    | _ => .done (.error "expected ':' after object key".toList)

def objectLoop : While (List (Text × Json) × Text) (Parsed Json) where
  body := objectBody item
  measure s := s.2.length
  decreases := by
    rintro ⟨out, t⟩ ⟨out', t'⟩ h
    unfold objectBody at h
    dsimp only at h
    have hskip := length_skipWs t
    split at h
    · cases h
    · rename_i key behind hkey
      have hlt := string_consumes hkey
      have hskip₁ := length_skipWs behind
      split at h
      · rename_i value hcolon
        rw [hcolon, List.length_cons] at hskip₁
        split at h
        · cases h
        · rename_i val rest hread
          have hlt₁ := item.consumes hread
          have hskip₂ := length_skipWs rest
          split at h
          · rename_i next hnext
            cases h
            rw [hnext, List.length_cons] at hskip₂
            dsimp only
            omega
          · cases h
          · cases h
      · cases h

/-- An object behind its opening brace. -/
def object (t : Text) : Parsed Json :=
  match skipWs t with
  | '}' :: t => .ok (.obj [], t)
  | t => (objectLoop item).eval ([], t)

end Containers

def MAX_DEPTH : ℕ := 128

def tooDeep : Text := "nesting deeper than 128 levels".toList

/-- A value; the reader of what it contains is missing where it can contain nothing more. -/
def valueIn (inner : Option (Reader Json)) (t : Text) : Parsed Json :=
  match skipWs t with
  | [] => .error "unexpected end of input".toList
  | c :: t =>
    if c = '{' then
      match inner with
      | none => .error tooDeep
      | some item => object item t
    else if c = '[' then
      match inner with
      | none => .error tooDeep
      | some item => array item t
    else if c = '"' then (string (c :: t)).map fun (s, t) => (.str s, t)
    else if c = 't' ∨ c = 'f' then boolean (c :: t)
    else if c = 'n' then null (c :: t)
    else if c = '-' ∨ c.isDigit then number (c :: t)
    else .error ("unexpected character '".toList ++ [c, '\''])

section Consumed

variable {item : Reader Json} {t rest : Text} {v : Json}

theorem length_arrayLoop {s : List Json × Text} (h : (arrayLoop item).eval s = .ok (v, rest)) :
    rest.length ≤ s.2.length := by
  refine length_eval (fun _ => rfl) (fun s v rest hb => ?_) h
  change arrayBody item s = _ at hb
  unfold arrayBody at hb
  split at hb
  · cases hb
  · rename_i w behind hread
    have hlt := item.consumes hread
    have hskip := length_skipWs behind
    split at hb
    · cases hb
    · rename_i next hnext
      cases hb
      rw [hnext, List.length_cons] at hskip
      omega
    · cases hb

theorem length_objectLoop {s : List (Text × Json) × Text} (h : (objectLoop item).eval s = .ok (v, rest)) :
    rest.length ≤ s.2.length := by
  refine length_eval (fun _ => rfl) (fun s v rest hb => ?_) h
  change objectBody item s = _ at hb
  unfold objectBody at hb
  have hskip := length_skipWs s.2
  split at hb
  · cases hb
  · rename_i key behind hkey
    have hlt := string_consumes hkey
    have hskip₁ := length_skipWs behind
    split at hb
    · rename_i value hcolon
      rw [hcolon, List.length_cons] at hskip₁
      split at hb
      · cases hb
      · rename_i val after hread
        have hlt₁ := item.consumes hread
        have hskip₂ := length_skipWs after
        split at hb
        · cases hb
        · rename_i next hnext
          cases hb
          rw [hnext, List.length_cons] at hskip₂
          omega
        · cases hb
    · cases hb

theorem length_array (h : array item t = .ok (v, rest)) : rest.length ≤ t.length := by
  have hskip := length_skipWs t
  unfold array at h
  split at h
  · rename_i next hnext
    cases h
    rw [hnext, List.length_cons] at hskip
    omega
  · exact (length_arrayLoop h).trans hskip

theorem length_object (h : object item t = .ok (v, rest)) : rest.length ≤ t.length := by
  have hskip := length_skipWs t
  unfold object at h
  split at h
  · rename_i next hnext
    cases h
    rw [hnext, List.length_cons] at hskip
    omega
  · exact (length_objectLoop h).trans hskip

theorem expect_consumes {word : Text} (hword : 0 < word.length) (h : expect word t = .ok rest) :
    rest.length < t.length := by
  unfold expect at h
  split_ifs at h with hfront
  cases h
  have hle := (List.isPrefixOf_iff_prefix.mp hfront).length_le
  rw [List.length_drop]
  omega

/-- A reader that checks a word first has read that word. -/
theorem consumes_of_expect {word : Text} (hword : 0 < word.length) {w : Json}
    (h : (expect word t).map (fun t => (w, t)) = .ok (v, rest)) : rest.length < t.length := by
  cases he : expect word t with
  | error e =>
    rw [he] at h
    cases h
  | ok after =>
    rw [he] at h
    cases h
    exact expect_consumes hword he

theorem number_consumes {c : Char} (hc : numChar c = true) (h : number (c :: t) = .ok (v, rest)) :
    rest.length < (c :: t).length := by
  unfold number at h
  dsimp only at h
  split at h
  · cases h
  · cases h
  · cases h
    rw [List.dropWhile_cons_of_pos hc]
    exact Nat.lt_succ_of_le (List.length_dropWhile_le _ _)

theorem valueIn_consumes (inner : Option (Reader Json)) : Consumes (valueIn inner) := by
  intro t v rest h
  have hskip := length_skipWs t
  unfold valueIn at h
  cases hcons : skipWs t with
  | nil =>
    rw [hcons] at h
    cases h
  | cons c t' =>
    rw [hcons] at h hskip
    rw [List.length_cons] at hskip
    refine lt_of_lt_of_le ?_ hskip
    dsimp only at h
    split_ifs at h with hobj harr hquote hbool hnull hnumber
    · cases inner with
      | none => cases h
      | some item => exact Nat.lt_succ_of_le (length_object h)
    · cases inner with
      | none => cases h
      | some item => exact Nat.lt_succ_of_le (length_array h)
    · cases hs : string (c :: t') with
      | error e =>
        rw [hs] at h
        cases h
      | ok r =>
        obtain ⟨s, after⟩ := r
        rw [hs] at h
        cases h
        exact string_consumes hs
    · unfold boolean at h
      split_ifs at h
      · exact consumes_of_expect (by decide) h
      · exact consumes_of_expect (by decide) h
    · exact consumes_of_expect (by decide) h
    · refine number_consumes ?_ h
      unfold numChar
      rcases hnumber with rfl | hdigit
      · rfl
      · rw [hdigit]
        rfl

end Consumed

/-- A value whose containers are nested in at most so many levels. -/
def value : ℕ → Reader Json
  | 0 => ⟨valueIn none, valueIn_consumes none⟩
  | levels + 1 => ⟨valueIn (some (value levels)), valueIn_consumes (some (value levels))⟩

end Parser

def parse (input : Text) : Except Text Json :=
  match (Parser.value Parser.MAX_DEPTH).read (Parser.skipWs input) with
  | .error e => .error e
  | .ok (v, t) => if Parser.skipWs t = [] then .ok v else .error "trailing characters after JSON value".toList

end Json

end Unearth
