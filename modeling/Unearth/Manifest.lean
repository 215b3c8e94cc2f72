import Unearth.Report

/-!
# Reading a report back

The rows of a report are told apart line by line. In the first format the columns are found by
the header; in the second a value is found by looking for its key in quotes, wherever that
stands in the line.
-/

namespace Unearth.Manifest
open Lines Report Decimal Hex

structure Entry where
  path : Text
  sha256 : Option Text
  deriving DecidableEq

def nonempty (t : Text) : Option Text := if t = [] then none else some t

/-- The fields of a line, from a field of which some characters are read, inside or outside
of quotes. -/
def splitFrom : Bool → Text → Text → List Text
  | _, field, [] => [field]
  | true, field, '"' :: '"' :: t => splitFrom true (field ++ ['"']) t
  | true, field, '"' :: t => splitFrom false field t
  | true, field, c :: t => splitFrom true (field ++ [c]) t
  | false, field, c :: t =>
    if c = '"' then splitFrom true field t
    else if c = ',' then field :: splitFrom false [] t
    else splitFrom false (field ++ [c]) t

def splitCsvLine (line : Text) : List Text := splitFrom false [] line

def parseCsv (text : Text) : Except Text (List Entry) :=
  match (lines text).filter fun l => trim l ≠ [] with
  | [] => .error "manifest is empty".toList
  | header :: rows =>
    let cols := splitCsvLine header
    match cols.findIdx? (fun c => c = "name".toList ∨ c = "path".toList) with
    | none => .error "manifest has no 'name' or 'path' column".toList
    | some pathIdx =>
      match cols.findIdx? (· = "sha256".toList) with
      | none => .error "manifest has no 'sha256' column".toList
      | some shaIdx => .ok <| rows.filterMap fun line =>
          let fields := splitCsvLine line
          fields[pathIdx]?.map fun path => ⟨path, fields[shaIdx]?.bind nonempty⟩

/-- What follows the first occurrence of a pattern. -/
def afterFirst (pat : Text) : Text → Option Text
  | [] => if pat = [] then some [] else none
  | c :: t => if pat.isPrefixOf (c :: t) then some ((c :: t).drop pat.length) else afterFirst pat t

/-- The text up to the next quote, where a backslash stands before each character that is taken as
it is. -/
def unescape : Bool → Text → Option Text
  | _, [] => none
  | true, c :: t => (unescape false t).map (c :: ·)
  | false, c :: t =>
    if c = '\\' then unescape true t
    else if c = '"' then some []
    else (unescape false t).map (c :: ·)

/-- The text behind the next colon, if a text stands there. -/
def strValue (rest : Text) : Option Text := do
  let (_, after) ← splitOnce ':' rest
  match trimStart after with
  | [] => none
  | c :: t => if c = '"' then unescape false t else none

def jsonStrField (line : Text) (key : String) : Option Text :=
  (afterFirst (quoted key.toList) line).bind strValue

def trimEndCommas (t : Text) : Text := (t.reverse.dropWhile (· = ',')).reverse

/-- The entry of a line. -/
def jsonEntry (line : Text) : Option Entry :=
  let line := trimEndCommas (trim line)
  if line.head? ≠ some '{' then none
  else ((jsonStrField line "name").or (jsonStrField line "path")).map fun path =>
    ⟨path, (jsonStrField line "sha256").bind nonempty⟩

def parseJson (text : Text) : Except Text (List Entry) :=
  match (lines text).filterMap jsonEntry with
  | [] => .error "no entries found in JSON manifest".toList
  | entries => .ok entries

def parse (text : Text) (isJson : Bool) : Except Text (List Entry) :=
  if isJson then parseJson text else parseCsv text

section Csv

theorem splitFrom_plain {f : Text} (hcomma : ',' ∉ f) (hquote : '"' ∉ f) (acc t : Text) :
    splitFrom false acc (f ++ t) = splitFrom false (acc ++ f) t := by
  induction f generalizing acc with
  | nil => simp
  | cons c f ih =>
    simp only [List.mem_cons, not_or] at hcomma hquote
    rw [List.cons_append, splitFrom, if_neg (Ne.symm hquote.1), if_neg (Ne.symm hcomma.1),
      ih hcomma.2 hquote.2, List.append_assoc, List.singleton_append]

theorem splitFrom_inside {c : Char} (hc : c ≠ '"') (acc t : Text) :
    splitFrom true acc (c :: t) = splitFrom true (acc ++ [c]) t := by
  rw [splitFrom]
  · exact fun t h _ => hc h
  · exact hc

/-- The inside of a quoted cell, up to the quote that ends it. -/
theorem splitFrom_replace (s : Text) (acc : Text) {t : Text} (ht : t.head? ≠ some '"') :
    splitFrom true acc (replace '"' ['"', '"'] s ++ '"' :: t) = splitFrom false (acc ++ s) t := by
  induction s generalizing acc with
  | nil =>
    cases t with
    | nil => simp [replace, splitFrom]
    | cons d t =>
      have hd : d ≠ '"' := fun h => ht (by rw [h]; rfl)
      rw [replace, List.flatMap_nil, List.nil_append, splitFrom, List.append_nil]
      intro u h
      exact hd (List.cons.inj h).1
  | cons c s ih =>
    rw [replace, List.flatMap_cons, ← replace]
    by_cases hc : c = '"'
    · subst hc
      rw [if_pos rfl, List.append_assoc, List.cons_append, List.cons_append, List.nil_append,
        splitFrom, ih]
      simp
    · rw [if_neg hc, List.append_assoc, List.singleton_append, splitFrom_inside hc, ih]
      simp

/-- What is printed for a cell and what the cell says. -/
inductive Prints : Text → Text → Prop
  | plain {f : Text} (comma : ',' ∉ f) (quote : '"' ∉ f) : Prints f f
  | escaped (s : Text) : Prints (csvEscape s) s

theorem Prints.split {f s : Text} (h : Prints f s) {t : Text} (ht : t.head? ≠ some '"') :
    splitFrom false [] (f ++ t) = splitFrom false s t := by
  cases h with
  | plain comma quote => rw [splitFrom_plain comma quote, List.nil_append]
  | escaped =>
    unfold csvEscape
    split_ifs with hany
    · rw [List.cons_append, splitFrom, if_pos rfl, List.append_assoc, List.singleton_append,
        splitFrom_replace s [] ht, List.nil_append]
    · simp only [not_or] at hany
      rw [splitFrom_plain hany.1 hany.2.1, List.nil_append]

/-- The cells of a line are read back. -/
theorem splitCsvLine_csvLine {cells values : List Text} (h : List.Forall₂ Prints cells values)
    (hne : cells ≠ []) : splitCsvLine (csvLine cells) = values := by
  unfold splitCsvLine
  induction h with
  | nil => exact absurd rfl hne
  | @cons f s cells values hf hrest ih =>
    cases hrest with
    | nil =>
      have hsplit := @Prints.split f s hf [] (by decide)
      rw [List.append_nil] at hsplit
      rw [csvLine, hsplit, splitFrom]
    | cons hg hrest' =>
      rw [csvLine, hf.split (by simp), splitFrom, if_neg (by decide), if_pos rfl,
        ih (List.cons_ne_nil _ _)]

theorem oneLine_of_forall {t : Text} (h : ∀ c ∈ t, c ≠ '\n' ∧ c ≠ '\r') : OneLine t :=
  ⟨fun hm => (h _ hm).1 rfl, fun hm => (h _ hm).2 rfl⟩

theorem oneLine_replace {c : Char} {new t : Text} (hnew : OneLine new) (ht : OneLine t) :
    OneLine (replace c new t) := by
  refine oneLine_of_forall fun d hd => ?_
  obtain ⟨e, he, hd⟩ := List.mem_flatMap.mp hd
  split_ifs at hd
  · exact ⟨fun h => hnew.1 (h ▸ hd), fun h => hnew.2 (h ▸ hd)⟩
  · obtain rfl := List.mem_singleton.mp hd
    exact ⟨fun h => ht.1 (h ▸ he), fun h => ht.2 (h ▸ he)⟩

theorem oneLine_concat {a b : Text} (ha : OneLine a) (hb : OneLine b) : OneLine (a ++ b) :=
  ⟨fun h => (List.mem_append.mp h).elim ha.1 hb.1, fun h => (List.mem_append.mp h).elim ha.2 hb.2⟩

theorem oneLine_csvEscape {s : Text} (h : OneLine s) : OneLine (csvEscape s) := by
  unfold csvEscape
  split_ifs
  · exact @oneLine_concat ['"'] _ (by decide)
      (oneLine_concat (oneLine_replace (by decide) h) (by decide))
  · exact h

theorem oneLine_csvLine {cells : List Text} (h : ∀ c ∈ cells, OneLine c) : OneLine (csvLine cells) := by
  induction cells with
  | nil => decide
  | cons cell rest ih =>
    obtain ⟨hcell, hrest⟩ := List.forall_mem_cons.mp h
    cases rest with
    | nil => exact hcell
    | cons next rest => exact oneLine_concat hcell (@oneLine_concat [','] _ (by decide) (ih hrest))

theorem trim_ne_nil {t : Text} {c : Char} (hc : c ∈ t) (hspace : isWhitespace c = false) :
    trim t ≠ [] := by
  have hstart : trimStart t ≠ [] := by
    intro h
    have hall := List.dropWhile_eq_nil_iff.mp h c hc
    rw [hspace] at hall
    cases hall
  intro h
  rw [trim, trimEnd, List.reverse_eq_nil_iff, List.dropWhile_eq_nil_iff] at h
  obtain ⟨d, rest, hd⟩ := List.exists_cons_of_ne_nil hstart
  have hall := h d (by rw [hd]; simp)
  have hfirst := List.head?_dropWhile_not isWhitespace t
  rw [show t.dropWhile isWhitespace = d :: rest from hd] at hfirst
  simp only [List.head?_cons] at hfirst
  rw [hall] at hfirst
  cases hfirst

theorem comma_mem_csvLine {a b : Text} {rest : List Text} : ',' ∈ csvLine (a :: b :: rest) := by
  rw [csvLine]
  exact List.mem_append_right _ List.mem_cons_self

end Csv

section Keys

variable {key : Text}

/-- A key that is looked for: it has none of the characters that end or change a text. -/
structure Key (key : Text) : Prop where
  quote : '"' ∉ key
  backslash : '\\' ∉ key
  colon : ':' ∉ key
  comma : ',' ∉ key

theorem afterFirst_skip {a : Text} (ha : '"' ∉ a) (t : Text) :
    afterFirst (quoted key) (a ++ t) = afterFirst (quoted key) t := by
  induction a with
  | nil => rfl
  | cons c a ih =>
    simp only [List.mem_cons, not_or] at ha
    rw [List.cons_append, afterFirst, if_neg, ih ha.2]
    simp only [quoted, List.isPrefixOf_cons_cons, Bool.and_eq_true, beq_iff_eq, not_and]
    exact fun h => absurd h ha.1

/-- At a quote, the key is there if it is what stands before the next one. -/
theorem afterFirst_quote (hkey : '"' ∉ key) {p : Text} (hp : '"' ∉ p) (t : Text) :
    afterFirst (quoted key) ('"' :: (p ++ '"' :: t)) =
      if p = key then some t else afterFirst (quoted key) ('"' :: t) := by
  have hstart : (quoted key).isPrefixOf ('"' :: (p ++ '"' :: t)) = true ↔ p = key := by
    rw [List.isPrefixOf_iff_prefix, quoted, List.cons_prefix_cons]
    constructor
    · rintro ⟨-, u, hu⟩
      rw [List.append_assoc, List.singleton_append] at hu
      have hsplit := splitOnce_append hkey u
      rw [hu, splitOnce_append hp] at hsplit
      exact (Prod.mk.inj (Option.some.inj hsplit)).1
    · rintro rfl
      exact ⟨rfl, t, by simp⟩
  rw [afterFirst]
  split_ifs with h₁ h₂ h₂
  · subst h₂
    rw [quoted, List.length_cons, List.drop_succ_cons]
    simp
  · exact absurd (hstart.mp h₁) h₂
  · exact absurd (hstart.mpr h₂) h₁
  · exact afterFirst_skip hp _

theorem afterFirst_last {p : Text} (hp : '"' ∉ p) : afterFirst (quoted key) ('"' :: p) = none := by
  have hnone : afterFirst (quoted key) p = none := by
    have hskip := @afterFirst_skip key p hp []
    rw [List.append_nil] at hskip
    rw [hskip]
    simp [afterFirst, quoted]
  rw [afterFirst, if_neg, hnone]
  intro h
  obtain ⟨u, hu⟩ := List.isPrefixOf_iff_prefix.mp h
  rw [quoted, List.cons_append, List.cons_inj_right, List.append_assoc] at hu
  exact hp (by rw [← hu]; simp)

/-- The text behind the last quote of a name. -/
def afterQuotes : Text → Text
  | [] => []
  | c :: t => if '"' ∈ t then afterQuotes t else if c = '"' then t else c :: t

theorem afterQuotes_append (a t : Text) : afterQuotes (a ++ '"' :: t) = afterQuotes ('"' :: t) := by
  induction a with
  | nil => rfl
  | cons c a ih => rw [List.cons_append, afterQuotes, if_pos (by simp), ih]

theorem afterQuotes_of_not_mem {t : Text} (h : '"' ∉ t) : afterQuotes t = t := by
  cases t with
  | nil => rfl
  | cons c t =>
    simp only [List.mem_cons, not_or] at h
    rw [afterQuotes, if_neg h.2, if_neg (Ne.symm h.1)]

theorem afterQuotes_quote (t : Text) : afterQuotes ('"' :: t) = afterQuotes t := by
  rw [afterQuotes]
  by_cases h : '"' ∈ t
  · rw [if_pos h]
  · rw [if_neg h, if_pos rfl, afterQuotes_of_not_mem h]

theorem jsonEscape_cons (c : Char) (t : Text) : jsonEscape (c :: t) =
    (if c = '\\' then ['\\', '\\'] else if c = '"' then ['\\', '"'] else [c]) ++ jsonEscape t := by
  unfold jsonEscape replace
  rw [List.flatMap_cons]
  split_ifs with h₁ h₂
  · simp
  · subst h₂
    simp
  · simp [h₂]

theorem jsonEscape_append (a b : Text) : jsonEscape (a ++ b) = jsonEscape a ++ jsonEscape b := by
  unfold jsonEscape replace
  rw [List.flatMap_append, List.flatMap_append]

theorem jsonEscape_plain {t : Text} (hquote : '"' ∉ t) (hbackslash : '\\' ∉ t) : jsonEscape t = t := by
  induction t with
  | nil => rfl
  | cons c t ih =>
    simp only [List.mem_cons, not_or] at hquote hbackslash
    rw [jsonEscape_cons, if_neg (Ne.symm hbackslash.1), if_neg (Ne.symm hquote.1),
      ih hquote.2 hbackslash.2]
    rfl

theorem backslash_mem_jsonEscape {t : Text} (h : '\\' ∈ t) : '\\' ∈ jsonEscape t := by
  obtain ⟨a, b, rfl⟩ := List.append_of_mem h
  rw [jsonEscape_append, jsonEscape_cons, if_pos rfl]
  simp

theorem quote_mem_jsonEscape {t : Text} : '"' ∈ jsonEscape t ↔ '"' ∈ t := by
  induction t with
  | nil => rfl
  | cons c t ih =>
    rw [jsonEscape_cons, List.mem_append, ih, List.mem_cons]
    split_ifs with h₁ h₂
    · subst h₁
      simp
    · simp [h₂]
    · simp [eq_comm]

/-- A name that ends in the key, behind its last quote, is mistaken for it. -/
theorem afterFirst_escaped (hkey : Key key) (s t : Text) :
    afterFirst (quoted key) ('"' :: (jsonEscape s ++ '"' :: t)) =
      if afterQuotes s = key then some t else afterFirst (quoted key) ('"' :: t) := by
  induction hlen : s.length using Nat.strong_induction_on generalizing s with
  | _ n ih =>
    by_cases hs : '"' ∈ s
    · obtain ⟨a, b, rfl, ha⟩ := List.eq_append_cons_of_mem hs
      have hescape : jsonEscape (a ++ '"' :: b) = jsonEscape a ++ ['\\'] ++ '"' :: jsonEscape b := by
        rw [jsonEscape_append, jsonEscape_cons, if_neg (by decide), if_pos rfl]
        simp
      have hp : '"' ∉ jsonEscape a ++ ['\\'] := by
        simp only [List.mem_append, quote_mem_jsonEscape, List.mem_singleton, not_or]
        exact ⟨ha, by decide⟩
      have hne : jsonEscape a ++ ['\\'] ≠ key := fun h => hkey.backslash (h ▸ by simp)
      rw [hescape, List.append_assoc, List.cons_append, afterFirst_quote hkey.quote hp, if_neg hne,
        ih b.length (by rw [← hlen]; simp; omega) b rfl, afterQuotes_append, afterQuotes_quote]
    · have hquote : '"' ∉ jsonEscape s := fun h => hs (quote_mem_jsonEscape.mp h)
      rw [afterFirst_quote hkey.quote hquote, afterQuotes_of_not_mem hs]
      by_cases hback : '\\' ∈ s
      · have hescaped : jsonEscape s ≠ key := fun h =>
          hkey.backslash (h ▸ backslash_mem_jsonEscape hback)
        have hplain : s ≠ key := fun h => hkey.backslash (h ▸ hback)
        rw [if_neg hescaped, if_neg hplain]
      · rw [jsonEscape_plain hs hback]

theorem unescape_jsonEscape (s t : Text) : unescape false (jsonEscape s ++ '"' :: t) = some s := by
  induction s with
  | nil => rfl
  | cons c s ih =>
    rw [jsonEscape_cons, List.append_assoc]
    split_ifs with h₁ h₂
    · subst h₁
      simp [unescape, ih]
    · subst h₂
      simp [unescape, ih]
    · simp [unescape, h₁, h₂, ih]

end Keys

section Rows

/-- What a value says to a reader who looks for a text. -/
def told : Value → Option Text
  | .name t => some t
  | .word t => some t
  | .number _ => none

/-- A value that is mistaken for a key. -/
def Hides (key : Text) : Value → Prop
  | .name t => afterQuotes t = key
  | .word t => t = key
  | .number _ => False

instance (key : Text) : DecidablePred (Hides key)
  | .name t => inferInstanceAs (Decidable (afterQuotes t = key))
  | .word t => inferInstanceAs (Decidable (t = key))
  | .number _ => inferInstanceAs (Decidable False)

/-- What is found for a key: its value, or the value after one that is mistaken for the key. -/
def valueOf (key : Text) : List JsonField → Option Text
  | [] => none
  | f :: rest =>
    if f.key = key then told f.value
    else if Hides key f.value then rest.head?.bind fun g => told g.value
    else valueOf key rest

theorem valueOf_nil (key : Text) : valueOf key [] = none := rfl

theorem valueOf_name (key k t : Text) (rest : List JsonField) : valueOf key (⟨k, .name t⟩ :: rest) =
    if k = key then some t
    else if afterQuotes t = key then rest.head?.bind fun g => told g.value else valueOf key rest := rfl

theorem valueOf_word (key k t : Text) (rest : List JsonField) : valueOf key (⟨k, .word t⟩ :: rest) =
    if k = key then some t
    else if t = key then rest.head?.bind fun g => told g.value else valueOf key rest := rfl

theorem valueOf_number (key k t : Text) (rest : List JsonField) : valueOf key (⟨k, .number t⟩ :: rest) =
    if k = key then none else valueOf key rest := by
  rw [valueOf]
  split_ifs with h hhides
  · rfl
  · exact hhides.elim
  · rfl

/-- A value whose end can be told. -/
inductive Legible : Value → Prop
  | name {t : Text} (oneLine : OneLine t) : Legible (.name t)
  | word {t : Text} (oneLine : OneLine t) (quote : '"' ∉ t) (backslash : '\\' ∉ t) : Legible (.word t)
  | number {t : Text} (oneLine : OneLine t) (quote : '"' ∉ t) : Legible (.number t)

/-- A field of a report. -/
structure Readable (f : JsonField) : Prop where
  key : Key f.key
  key_line : OneLine f.key
  value : Legible f.value

theorem print_word {t : Text} (hquote : '"' ∉ t) (hbackslash : '\\' ∉ t) :
    (Value.word t).print = (Value.name t).print := by
  rw [Value.print, Value.print, jsonEscape_plain hquote hbackslash]

theorem strValue_name (s u : Text) : strValue (':' :: ' ' :: ((Value.name s).print ++ u)) = some s := by
  have htrim : trimStart (' ' :: '"' :: (jsonEscape s ++ '"' :: u)) =
      '"' :: (jsonEscape s ++ '"' :: u) := rfl
  simp only [strValue, splitOnce, if_pos, Value.print, quoted, List.cons_append, List.append_assoc,
    List.nil_append]
  simp only [Option.bind_eq_bind, Option.bind_some, htrim, if_true, unescape_jsonEscape]

theorem trimStart_number {t : Text} (ht : '"' ∉ t) (rest : List JsonField) :
    (trimStart (t ++ printRest rest)).head? ≠ some '"' := by
  induction t with
  | nil =>
    cases rest with
    | nil => decide
    | cons f rest =>
      rw [List.nil_append, printRest, trimStart, List.dropWhile_cons_of_neg (by decide)]
      exact fun h => absurd (Option.some.inj h) (by decide)
  | cons c t ih =>
    simp only [List.mem_cons, not_or] at ht
    rw [List.cons_append, trimStart, List.dropWhile_cons]
    split_ifs
    · exact ih ht.2
    · exact fun h => ht.1 (Option.some.inj h).symm

theorem strValue_number {t : Text} (ht : '"' ∉ t) (rest : List JsonField) :
    strValue (':' :: ' ' :: ((Value.number t).print ++ printRest rest)) = none := by
  have htrim : trimStart (' ' :: (t ++ printRest rest)) = trimStart (t ++ printRest rest) := rfl
  have hhead := trimStart_number ht rest
  simp only [strValue, splitOnce, if_pos, Value.print, Option.bind_eq_bind, Option.bind_some, htrim]
  cases h : trimStart (t ++ printRest rest) with
  | nil => rfl
  | cons c u =>
    rw [h] at hhead
    exact if_neg fun hc => hhead (by rw [hc]; rfl)

theorem strValue_field {v : Value} (hv : Legible v) (rest : List JsonField) :
    strValue (':' :: ' ' :: (v.print ++ printRest rest)) = told v := by
  cases hv with
  | name => exact strValue_name _ _
  | word _ quote backslash =>
    rw [print_word quote backslash]
    exact strValue_name _ _
  | number _ quote => exact strValue_number quote rest

/-- Behind a value, the next one is found by the colon after its key. -/
theorem strValue_rest {rest : List JsonField} (h : ∀ f ∈ rest, Readable f) :
    strValue (printRest rest) = rest.head?.bind fun f => told f.value := by
  cases rest with
  | nil => rfl
  | cons f rest =>
    have hf := h f List.mem_cons_self
    have hprint : printRest (f :: rest) = (',' :: ' ' :: quoted f.key) ++
        ':' :: (' ' :: (f.value.print ++ printRest rest)) := by
      simp [printRest, JsonField.print]
    have hcolon : ':' ∉ ',' :: ' ' :: quoted f.key := by
      simpa [quoted] using hf.key.colon
    have hvalue := strValue_field hf.value rest
    rw [hprint, List.head?_cons, Option.bind_some, ← hvalue]
    simp only [strValue, splitOnce_append hcolon, splitOnce, if_pos]
    rfl

/-- From the end of a value the search goes on with the next field. -/
theorem afterFirst_next {key : Text} (hkey : Key key) {p : Text} (hp : '"' ∉ p) (rest : List JsonField) :
    afterFirst (quoted key) ('"' :: (p ++ printRest rest)) =
      rest.head?.bind fun g => afterFirst (quoted key) (g.print ++ printRest rest.tail) := by
  cases rest with
  | nil =>
    refine afterFirst_last ?_
    simpa [printRest] using hp
  | cons g rest =>
    have hprint : p ++ printRest (g :: rest) = (p ++ [',', ' ']) ++
        '"' :: (g.key ++ '"' :: ':' :: ' ' :: (g.value.print ++ printRest rest)) := by
      simp [printRest, JsonField.print, quoted]
    have hfield : '"' :: (g.key ++ '"' :: ':' :: ' ' :: (g.value.print ++ printRest rest)) =
        g.print ++ printRest rest := by
      simp [JsonField.print, quoted]
    have hquote : '"' ∉ p ++ [',', ' '] := by
      simpa using hp
    have hne : p ++ [',', ' '] ≠ key := fun h => hkey.comma (h ▸ by simp)
    rw [hprint, afterFirst_quote hkey.quote hquote, if_neg hne, hfield]
    rfl

/-- Behind its own key, the value of a field is passed over or mistaken for the key. -/
theorem afterFirst_value {key : Text} (hkey : Key key) {v : Value} (hv : Legible v)
    (rest : List JsonField) :
    afterFirst (quoted key) ('"' :: ':' :: ' ' :: (v.print ++ printRest rest)) =
      if Hides key v then some (printRest rest)
      else rest.head?.bind fun g => afterFirst (quoted key) (g.print ++ printRest rest.tail) := by
  have hname : ∀ s, afterFirst (quoted key) ('"' :: ':' :: ' ' :: ((Value.name s).print ++ printRest rest)) =
      if afterQuotes s = key then some (printRest rest)
      else rest.head?.bind fun g => afterFirst (quoted key) (g.print ++ printRest rest.tail) := by
    intro s
    have hprint : '"' :: ':' :: ' ' :: ((Value.name s).print ++ printRest rest) =
        '"' :: ([':', ' '] ++ '"' :: (jsonEscape s ++ '"' :: printRest rest)) := by
      simp [Value.print, quoted]
    have hne : [':', ' '] ≠ key := fun h => hkey.colon (h ▸ List.mem_cons_self)
    rw [hprint, afterFirst_quote hkey.quote (by decide), if_neg hne, afterFirst_escaped hkey]
    split_ifs
    · rfl
    · exact afterFirst_next hkey List.not_mem_nil rest
  cases hv with
  | name => exact hname _
  | @word t _ quote backslash =>
    rw [print_word quote backslash, hname, afterQuotes_of_not_mem quote]
    rfl
  | @number t _ quote =>
    have hp : '"' ∉ ':' :: ' ' :: t := by
      simpa using quote
    exact (afterFirst_next hkey hp rest).trans (if_neg id).symm

theorem afterFirst_head {key : Text} (hkey : Key key) {f : JsonField} {rest : List JsonField}
    (hf : Readable f) (hrest : ∀ g ∈ rest, Readable g) :
    (afterFirst (quoted key) (f.print ++ printRest rest)).bind strValue =
      if f.key = key then told f.value
      else if Hides key f.value then rest.head?.bind fun g => told g.value
      else rest.head?.bind fun g =>
        (afterFirst (quoted key) (g.print ++ printRest rest.tail)).bind strValue := by
  have hprint : f.print ++ printRest rest =
      '"' :: (f.key ++ '"' :: ':' :: ' ' :: (f.value.print ++ printRest rest)) := by
    simp [JsonField.print, quoted]
  rw [hprint, afterFirst_quote hkey.quote hf.key.quote]
  split_ifs with hfound hhides
  · exact strValue_field hf.value _
  · rw [afterFirst_value hkey hf.value, if_pos hhides]
    exact strValue_rest hrest
  · rw [afterFirst_value hkey hf.value, if_neg hhides, Option.bind_assoc]

/-- A key is looked for in the fields one after the other. -/
theorem afterFirst_fields {key : Text} (hkey : Key key) {f : JsonField} {rest : List JsonField}
    (h : ∀ g ∈ f :: rest, Readable g) :
    (afterFirst (quoted key) (f.print ++ printRest rest)).bind strValue = valueOf key (f :: rest) := by
  induction rest generalizing f with
  | nil =>
    rw [afterFirst_head hkey (h f List.mem_cons_self) (List.forall_mem_nil _)]
    rfl
  | cons g rest ih =>
    obtain ⟨hf, hrest⟩ := List.forall_mem_cons.mp h
    rw [afterFirst_head hkey hf hrest, valueOf]
    simp only [List.head?_cons, Option.bind_some, List.tail_cons, ih hrest]

/-- The text of a key in a line of a report is that of its field, or that of the field after a value
that is mistaken for the key. -/
theorem jsonStrField_object {key : String} (hkey : Key key.toList) {fields : List JsonField}
    (h : ∀ f ∈ fields, Readable f) : jsonStrField (printObject fields) key = valueOf key.toList fields := by
  unfold jsonStrField
  cases fields with
  | nil =>
    have hnone := @afterFirst_skip key.toList ['{', '}'] (by decide) []
    rw [printObject, ← List.append_nil ['{', '}'], hnone]
    rfl
  | cons f rest =>
    rw [printObject, ← List.singleton_append, afterFirst_skip (by decide), afterFirst_fields hkey h]

/-- The entry that an object stands for. -/
def objectEntry (fields : List JsonField) : Option Entry :=
  ((valueOf "name".toList fields).or (valueOf "path".toList fields)).map fun path =>
    ⟨path, (valueOf "sha256".toList fields).bind nonempty⟩

theorem printRest_last (rest : List JsonField) : ∃ t, printRest rest = t ++ ['}'] := by
  induction rest with
  | nil => exact ⟨[], rfl⟩
  | cons f rest ih =>
    obtain ⟨t, ht⟩ := ih
    exact ⟨',' :: ' ' :: (f.print ++ t), by rw [printRest, ht]; simp⟩

theorem printObject_ends (fields : List JsonField) : ∃ t, printObject fields = '{' :: (t ++ ['}']) := by
  cases fields with
  | nil => exact ⟨[], rfl⟩
  | cons f rest =>
    obtain ⟨t, ht⟩ := printRest_last rest
    exact ⟨f.print ++ t, by rw [printObject, ht, List.append_assoc]⟩

theorem trim_indented (u : Text) {c : Char} (hc : isWhitespace c = false) :
    trim (' ' :: ' ' :: '{' :: (u ++ [c])) = '{' :: (u ++ [c]) := by
  have hstart : trimStart (' ' :: ' ' :: '{' :: (u ++ [c])) = ('{' :: u) ++ [c] := rfl
  rw [trim, hstart]
  exact trimEnd_of_last hc

/-- Blanks before an object and a comma behind it are dropped. -/
theorem trimmed_object (fields : List JsonField) :
    trimEndCommas (trim (' ' :: ' ' :: printObject fields)) = printObject fields ∧
      trimEndCommas (trim (' ' :: ' ' :: printObject fields ++ [','])) = printObject fields := by
  obtain ⟨t, ht⟩ := printObject_ends fields
  have hcomma : ' ' :: ' ' :: printObject fields ++ [','] =
      ' ' :: ' ' :: '{' :: ((t ++ ['}']) ++ [',']) := by
    rw [ht]
    rfl
  rw [hcomma, trim_indented _ (by decide), ht, trim_indented _ (by decide)]
  constructor <;> simp [trimEndCommas]

theorem jsonEntry_of_trimmed {line : Text} {fields : List JsonField}
    (hline : trimEndCommas (trim line) = printObject fields) (h : ∀ f ∈ fields, Readable f) :
    jsonEntry line = objectEntry fields := by
  obtain ⟨t, ht⟩ := printObject_ends fields
  have hhead : (printObject fields).head? = some '{' := by
    rw [ht]
    rfl
  unfold jsonEntry
  dsimp only
  rw [hline, if_neg (not_not.mpr hhead), jsonStrField_object (by constructor <;> decide) h,
    jsonStrField_object (by constructor <;> decide) h,
    jsonStrField_object (by constructor <;> decide) h]
  rfl

/-- The lines of the objects, the last one of which has no comma behind it. -/
theorem jsonEntry_rows {rows : List (List JsonField)} (h : ∀ r ∈ rows, ∀ f ∈ r, Readable f) :
    (withCommas (rows.map fun r => ' ' :: ' ' :: printObject r)).filterMap jsonEntry =
      rows.filterMap objectEntry := by
  induction rows with
  | nil => rfl
  | cons r rest ih =>
    obtain ⟨hr, hrest⟩ := List.forall_mem_cons.mp h
    obtain ⟨hlast, hcomma⟩ := trimmed_object r
    cases rest with
    | nil =>
      rw [List.map_singleton, withCommas, List.filterMap_cons, List.filterMap_cons,
        jsonEntry_of_trimmed hlast hr, List.filterMap_nil, List.filterMap_nil]
    | cons m rest =>
      rw [List.map_cons, List.map_cons, withCommas, List.filterMap_cons, List.filterMap_cons,
        jsonEntry_of_trimmed hcomma hr, ← ih hrest]
      rfl

theorem oneLine_print {v : Value} (hv : Legible v) : OneLine v.print := by
  cases hv with
  | name h =>
    have hescape := @oneLine_replace '"' ['\\', '"'] _ (by decide)
      (@oneLine_replace '\\' ['\\', '\\'] _ (by decide) h)
    exact @oneLine_concat ['"'] _ (by decide) (oneLine_concat hescape (by decide))
  | word h => exact @oneLine_concat ['"'] _ (by decide) (oneLine_concat h (by decide))
  | number h => exact h

theorem oneLine_field {f : JsonField} (hf : Readable f) : OneLine f.print := by
  have hkey : OneLine (quoted f.key) :=
    @oneLine_concat ['"'] _ (by decide) (oneLine_concat hf.key_line (by decide))
  exact oneLine_concat hkey (@oneLine_concat [':', ' '] _ (by decide) (oneLine_print hf.value))

theorem oneLine_rest {rest : List JsonField} (h : ∀ f ∈ rest, Readable f) : OneLine (printRest rest) := by
  induction rest with
  | nil => decide
  | cons f rest ih =>
    obtain ⟨hf, hrest⟩ := List.forall_mem_cons.mp h
    exact @oneLine_concat [',', ' '] _ (by decide) (oneLine_concat (oneLine_field hf) (ih hrest))

theorem oneLine_object {fields : List JsonField} (h : ∀ f ∈ fields, Readable f) :
    OneLine (printObject fields) := by
  cases fields with
  | nil => decide
  | cons f rest =>
    obtain ⟨hf, hrest⟩ := List.forall_mem_cons.mp h
    exact @oneLine_concat ['{'] _ (by decide) (oneLine_concat (oneLine_field hf) (oneLine_rest hrest))

theorem oneLine_withCommas {ls : List Text} (h : ∀ l ∈ ls, OneLine l) : ∀ l ∈ withCommas ls, OneLine l := by
  induction ls with
  | nil => exact h
  | cons l rest ih =>
    obtain ⟨hl, hrest⟩ := List.forall_mem_cons.mp h
    cases rest with
    | nil => exact h
    | cons m rest => exact List.forall_mem_cons.mpr ⟨oneLine_concat hl (by decide), ih hrest⟩

/-- A report of objects is read as the entries of its rows; without an entry it is refused. -/
theorem parse_jsonReport {rows : List (List JsonField)} (h : ∀ r ∈ rows, ∀ f ∈ r, Readable f) :
    parse (jsonReport rows) true =
      if rows.filterMap objectEntry = [] then .error "no entries found in JSON manifest".toList
      else .ok (rows.filterMap objectEntry) := by
  have hlines : ∀ l ∈ ['['] :: withCommas (rows.map fun r => ' ' :: ' ' :: printObject r) ++ [[']']],
      OneLine l := by
    intro l hl
    simp only [List.cons_append, List.mem_cons, List.mem_append, List.not_mem_nil, or_false] at hl
    rcases hl with rfl | hl | rfl
    · decide
    · refine oneLine_withCommas (fun l hl => ?_) l hl
      obtain ⟨r, hr, rfl⟩ := List.mem_map.mp hl
      exact @oneLine_concat [' ', ' '] _ (by decide) (oneLine_object (h r hr))
    · decide
  have hentries : (lines (jsonReport rows)).filterMap jsonEntry = rows.filterMap objectEntry := by
    have hopen : jsonEntry ['['] = none := by decide
    have hclose : jsonEntry [']'] = none := by decide
    rw [jsonReport, lines_unlines hlines, List.filterMap_append, List.filterMap_cons, hopen,
      jsonEntry_rows h, List.filterMap_cons, hclose]
    simp
  rw [parse, if_pos rfl, parseJson, hentries]
  cases rows.filterMap objectEntry with
  | nil => rfl
  | cons e entries => exact (if_neg (List.cons_ne_nil _ _)).symm

end Rows

end Unearth.Manifest
