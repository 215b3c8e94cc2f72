import Mathlib

/-!
# Line-based text

Texts are lists of characters. The functions follow the Rust standard library's
`lines`, `trim`, `split_whitespace`, `splitn` and `rsplit_once` on `str`, and each
comes with the lemmas that evaluate it on text built from lines and tokens.
-/

namespace Unearth.Lines

abbrev Text := List Char

/-- The Unicode `White_Space` property. -/
def isWhitespace (c : Char) : Bool :=
  let n := c.toNat
  (9 ≤ n && n ≤ 13) || n == 0x20 || n == 0x85 || n == 0xA0 || n == 0x1680 ||
    (0x2000 ≤ n && n ≤ 0x200A) || n == 0x2028 || n == 0x2029 || n == 0x202F || n == 0x205F ||
    n == 0x3000

def trimStart (t : Text) : Text := t.dropWhile isWhitespace
def trimEnd (t : Text) : Text := (t.reverse.dropWhile isWhitespace).reverse
def trim (t : Text) : Text := trimEnd (trimStart t)

/-- Put a character in front of the first piece, starting one if there is none. -/
def consFirst (c : Char) : List Text → List Text
  | [] => [[c]]
  | p :: ps => (c :: p) :: ps

/-- A line ends at a line feed, with or without a carriage return before it. -/
def lines : Text → List Text
  | [] => []
  | c :: t =>
    if c = '\n' then [] :: lines t
    else if c = '\r' ∧ t.head? = some '\n' then lines t
    else consFirst c (lines t)

def splitWhitespace : Text → List Text
  | [] => []
  | c :: t =>
    if isWhitespace c then splitWhitespace t
    else if t.head?.all isWhitespace then [c] :: splitWhitespace t
    else consFirst c (splitWhitespace t)

def splitOnce (sep : Char) : Text → Option (Text × Text)
  | [] => none
  | c :: t =>
    if c = sep then some ([], t)
    else (splitOnce sep t).map fun p => (c :: p.1, p.2)

def splitn (sep : Char) : ℕ → Text → List Text
  | 0, _ => []
  | 1, t => [t]
  | n + 2, t =>
    match splitOnce sep t with
    | none => [t]
    | some (a, b) => a :: splitn sep (n + 1) b

def rsplitOnce (sep : Char) (t : Text) : Option (Text × Text) :=
  (splitOnce sep t.reverse).map fun p => (p.2.reverse, p.1.reverse)

def unlines (ls : List Text) : Text := ls.flatMap fun l => l ++ ['\n']

example : (lines ['a', ' ', 'b', '\r', '\n', 'c']).map splitWhitespace = [[['a'], ['b']], [['c']]] ∧
    splitn '=' 2 ['a', '=', 'b', '=', 'c'] = [['a'], ['b', '=', 'c']] := by
  simp [lines, splitWhitespace, splitn, splitOnce, consFirst, isWhitespace]

theorem lines_append {l : Text} (hn : '\n' ∉ l) (hr : '\r' ∉ l) (t : Text) :
    lines (l ++ '\n' :: t) = l :: lines t := by
  induction l with
  | nil => simp [lines]
  | cons c l ih =>
    simp only [List.mem_cons, not_or] at hn hr
    rw [List.cons_append, lines, if_neg (Ne.symm hn.1), if_neg (fun h => hr.1 h.1.symm),
      ih hn.2 hr.2]
    rfl

theorem lines_of_not_mem {l : Text} (hl : l ≠ []) (hn : '\n' ∉ l) : lines l = [l] := by
  induction l with
  | nil => exact absurd rfl hl
  | cons c l ih =>
    simp only [List.mem_cons, not_or] at hn
    have hhead : l.head? ≠ some '\n' := fun h => hn.2 (List.mem_of_mem_head? h)
    rw [lines, if_neg (Ne.symm hn.1), if_neg (fun h => hhead h.2)]
    cases l with
    | nil => rfl
    | cons d l => rw [ih (List.cons_ne_nil _ _) hn.2]; rfl

@[simp] theorem unlines_nil : unlines [] = [] := rfl

@[simp]
theorem unlines_cons (l : Text) (ls : List Text) : unlines (l :: ls) = l ++ '\n' :: unlines ls := by
  simp [unlines]

@[simp]
theorem unlines_append (ls ms : List Text) : unlines (ls ++ ms) = unlines ls ++ unlines ms := by
  simp [unlines]

/-- A text that can stand on a line of its own. -/
def OneLine (l : Text) : Prop := '\n' ∉ l ∧ '\r' ∉ l

instance (l : Text) : Decidable (OneLine l) := inferInstanceAs (Decidable (_ ∧ _))

theorem oneLine_append {a b : Text} (ha : OneLine a) (hb : OneLine b) : OneLine (a ++ ' ' :: b) := by
  simp only [OneLine, List.mem_append, List.mem_cons, not_or]
  exact ⟨⟨ha.1, by decide, hb.1⟩, ⟨ha.2, by decide, hb.2⟩⟩

theorem lines_unlines_append {ls : List Text} (h : ∀ l ∈ ls, OneLine l) (t : Text) :
    lines (unlines ls ++ t) = ls ++ lines t := by
  induction ls with
  | nil => rfl
  | cons l ls ih =>
    have hl := h l List.mem_cons_self
    rw [unlines_cons, List.append_assoc, List.cons_append, lines_append hl.1 hl.2,
      ih fun m hm => h m (List.mem_cons_of_mem _ hm)]
    rfl

theorem lines_unlines {ls : List Text} (h : ∀ l ∈ ls, OneLine l) : lines (unlines ls) = ls := by
  simpa [lines] using lines_unlines_append h []

/-- A prefix of a text made of lines is some of the lines and a prefix of the next one. -/
theorem take_unlines (ls : List Text) (k : ℕ) (hk : k < (unlines ls).length) :
    ∃ ms l ns j, ls = ms ++ l :: ns ∧ j ≤ l.length ∧ k = (unlines ms).length + j ∧
      (unlines ls).take k = unlines ms ++ l.take j := by
  induction ls generalizing k with
  | nil => simp at hk
  | cons l ls ih =>
    by_cases hl : k ≤ l.length
    · refine ⟨[], l, ls, k, rfl, hl, by simp, ?_⟩
      rw [unlines_cons, List.take_append_of_le_length hl, unlines_nil, List.nil_append]
    · have hlen : (unlines (l :: ls)).length = l.length + 1 + (unlines ls).length := by
        simp only [unlines_cons, List.length_append, List.length_cons]
        omega
      obtain ⟨ms, m, ns, j, hls, hj, hkj, ht⟩ := ih (k - (l.length + 1)) (by omega)
      refine ⟨l :: ms, m, ns, j, by rw [hls]; rfl, hj, ?_, ?_⟩
      · simp only [unlines_cons, List.length_append, List.length_cons]
        omega
      · have hcons : l ++ '\n' :: unlines ls = (l ++ ['\n']) ++ unlines ls := by simp
        rw [unlines_cons, hcons, List.take_append, List.take_of_length_le (by simp; omega)]
        rw [show k - (l ++ ['\n']).length = k - (l.length + 1) by simp, ht]
        simp

/-- A text without whitespace; not empty, so that a split keeps it. -/
def Token (l : Text) : Prop := l ≠ [] ∧ ∀ c ∈ l, isWhitespace c = false

-- The letters of the text are looked at, not all letters there are.
instance (l : Text) : Decidable (Token l) :=
  haveI : Decidable (∀ c ∈ l, isWhitespace c = false) := List.decidableBAll _ l
  inferInstanceAs (Decidable (_ ∧ _))

theorem Token.oneLine {l : Text} (h : Token l) : OneLine l := by
  refine ⟨fun hm => ?_, fun hm => ?_⟩
  · have := h.2 _ hm
    simp [isWhitespace] at this
  · have := h.2 _ hm
    simp [isWhitespace] at this

theorem Token.space_not_mem {l : Text} (h : Token l) : ' ' ∉ l := by
  intro hm
  have := h.2 _ hm
  simp [isWhitespace] at this

theorem Token.take {l : Text} (h : Token l) {j : ℕ} (hj : 0 < j) : Token (l.take j) := by
  refine ⟨?_, fun c hc => h.2 c (List.mem_of_mem_take hc)⟩
  have := h.1
  simp only [ne_eq, List.take_eq_nil_iff, not_or]
  exact ⟨by omega, this⟩

theorem splitWhitespace_token {l : Text} (h : Token l) : splitWhitespace l = [l] := by
  obtain ⟨hne, hws⟩ := h
  induction l with
  | nil => exact absurd rfl hne
  | cons c l ih =>
    have hc := hws c List.mem_cons_self
    cases l with
    | nil => simp [splitWhitespace, hc]
    | cons d l =>
      have hd := hws d (by simp)
      rw [splitWhitespace, hc, ih (List.cons_ne_nil _ _) fun e he => hws e (List.mem_cons_of_mem _ he)]
      simp [hd, consFirst]

theorem splitWhitespace_append {l : Text} (h : Token l) (t : Text) :
    splitWhitespace (l ++ ' ' :: t) = l :: splitWhitespace t := by
  obtain ⟨hne, hws⟩ := h
  have hsp : isWhitespace ' ' = true := by decide
  induction l with
  | nil => exact absurd rfl hne
  | cons c l ih =>
    have hc := hws c List.mem_cons_self
    cases l with
    | nil => simp [splitWhitespace, hc, hsp]
    | cons d l =>
      have hd := hws d (by simp)
      rw [List.cons_append, splitWhitespace, hc,
        ih (List.cons_ne_nil _ _) fun e he => hws e (List.mem_cons_of_mem _ he)]
      simp [hd, consFirst]

theorem trimEnd_of_last {l : Text} {c : Char} (h : isWhitespace c = false) :
    trimEnd (l ++ [c]) = l ++ [c] := by
  simp [trimEnd, h]

/-- Trimming does nothing to a text that starts and ends with a token. -/
theorem trim_of_tokens {l m t : Text} (hl : Token l) (hm : Token m) : trim (l ++ t ++ m) = l ++ t ++ m := by
  obtain ⟨c, l', rfl⟩ := List.exists_cons_of_ne_nil hl.1
  have hc := hl.2 c List.mem_cons_self
  have hstart : trimStart (c :: l' ++ t ++ m) = c :: l' ++ t ++ m := by
    simp [trimStart, hc]
  obtain ⟨m', d, rfl⟩ : ∃ m' d, m = m' ++ [d] :=
    ⟨m.dropLast, m.getLast hm.1, (List.dropLast_append_getLast hm.1).symm⟩
  have hd := hm.2 d (by simp)
  rw [trim, hstart, ← List.append_assoc]
  exact trimEnd_of_last hd

theorem trim_token {l : Text} (h : Token l) : trim l = l := by
  obtain ⟨c, l', rfl⟩ := List.exists_cons_of_ne_nil h.1
  have hc := h.2 c List.mem_cons_self
  rw [trim, show trimStart (c :: l') = c :: l' by simp [trimStart, hc]]
  obtain ⟨m', d, hm⟩ : ∃ m' d, c :: l' = m' ++ [d] :=
    ⟨_, _, (List.dropLast_append_getLast (List.cons_ne_nil c l')).symm⟩
  rw [hm]
  exact trimEnd_of_last (h.2 d (by simp [hm]))

/-- A blank at the end is trimmed with the rest. -/
theorem trim_append_space (t : Text) : trim (t ++ [' ']) = trim t := by
  have hsp : isWhitespace ' ' = true := by decide
  simp only [trim, trimStart, List.dropWhile_append]
  cases hd : t.dropWhile isWhitespace with
  | nil => simp [hsp]
  | cons c u => simp [trimEnd, hsp]

theorem trim_blank (t : Text) : trim (' ' :: t) = trim t := rfl

/-- Blanks on both sides are trimmed with the rest. -/
theorem trim_blanks (m n : ℕ) (t : Text) : trim (List.replicate m ' ' ++ t ++ List.replicate n ' ') = trim t := by
  have hend : ∀ u : Text, trim (u ++ List.replicate n ' ') = trim u := by
    induction n with
    | zero => simp
    | succ n ih =>
      intro u
      rw [List.replicate_succ', ← List.append_assoc, trim_append_space, ih]
  rw [hend]
  induction m with
  | zero => rfl
  | succ m ih => rw [List.replicate_succ, List.cons_append, trim_blank, ih]

theorem take_append_space (k a : Text) {j : ℕ} (hj : k.length < j) :
    (k ++ ' ' :: a).take j = k ++ ' ' :: a.take (j - k.length - 1) := by
  obtain ⟨i, rfl⟩ : ∃ i, j = k.length + (i + 1) := ⟨j - k.length - 1, by omega⟩
  rw [List.take_length_add_append, List.take_succ_cons]
  congr 3
  omega

/-- Trimming keeps a first character that is not whitespace. -/
theorem trim_head {c : Char} (h : isWhitespace c = false) (t : Text) :
    (trim (c :: t)).head? = some c := by
  have hstart : trimStart (c :: t) = c :: t := by simp [trimStart, h]
  rw [trim, hstart, trimEnd, List.reverse_cons]
  cases hd : t.reverse.dropWhile isWhitespace with
  | nil => simp [List.dropWhile_append, hd, h]
  | cons d u => simp [List.dropWhile_append, hd]

theorem trim_trim (t : Text) : trim (trim t) = trim t := by
  have hend : ∀ s : Text, trimEnd (trimEnd s) = trimEnd s := fun s => List.rdropWhile_idempotent isWhitespace s
  cases hs : trimStart t with
  | nil =>
    rw [trim, trim, hs]
    rfl
  | cons c u =>
    have hc : isWhitespace c = false := by
      have hhead := List.head?_dropWhile_not isWhitespace t
      rw [show t.dropWhile isWhitespace = c :: u from hs] at hhead
      simpa using hhead
    have hstart : trimStart (c :: u) = c :: u := by simp [trimStart, hc]
    have hhead : (trimEnd (c :: u)).head? = some c := by
      have := trim_head hc u
      rwa [trim, hstart] at this
    obtain ⟨v, hv⟩ : ∃ v, trimEnd (c :: u) = c :: v := by
      cases he : trimEnd (c :: u) with
      | nil => simp [he] at hhead
      | cons d v =>
        rw [he, List.head?_cons, Option.some.injEq] at hhead
        exact ⟨v, by rw [hhead]⟩
    have hagain : trimStart (c :: v) = c :: v := by simp [trimStart, hc]
    rw [trim, trim, hs, hv, hagain, ← hv, hend]

theorem trim_pair {k a : Text} (hk : Token k) (ha : Token a) : trim (k ++ ' ' :: a) = k ++ ' ' :: a := by
  simpa using trim_of_tokens (t := [' ']) hk ha

theorem trim_triple {k a b : Text} (hk : Token k) (hb : Token b) :
    trim (k ++ ' ' :: (a ++ ' ' :: b)) = k ++ ' ' :: (a ++ ' ' :: b) := by
  simpa using trim_of_tokens (t := ' ' :: (a ++ [' '])) hk hb

theorem splitWhitespace_pair {k a : Text} (hk : Token k) (ha : Token a) :
    splitWhitespace (k ++ ' ' :: a) = [k, a] := by
  rw [splitWhitespace_append hk, splitWhitespace_token ha]

theorem splitWhitespace_triple {k a b : Text} (hk : Token k) (ha : Token a) (hb : Token b) :
    splitWhitespace (k ++ ' ' :: (a ++ ' ' :: b)) = [k, a, b] := by
  rw [splitWhitespace_append hk, splitWhitespace_pair ha hb]

theorem splitOnce_append {sep : Char} {l : Text} (h : sep ∉ l) (t : Text) :
    splitOnce sep (l ++ sep :: t) = some (l, t) := by
  induction l with
  | nil => simp [splitOnce]
  | cons c l ih =>
    simp only [List.mem_cons, not_or] at h
    rw [List.cons_append, splitOnce, if_neg (Ne.symm h.1), ih h.2]
    rfl

theorem splitn_append {sep : Char} {l : Text} (h : sep ∉ l) (n : ℕ) (t : Text) :
    splitn sep (n + 2) (l ++ sep :: t) = l :: splitn sep (n + 1) t := by
  rw [splitn, splitOnce_append h]

theorem splitOnce_of_not_mem {sep : Char} {l : Text} (h : sep ∉ l) : splitOnce sep l = none := by
  induction l with
  | nil => rfl
  | cons c l ih =>
    simp only [List.mem_cons, not_or] at h
    rw [splitOnce, if_neg (Ne.symm h.1), ih h.2]
    rfl

theorem splitn_of_not_mem {sep : Char} {l : Text} (h : sep ∉ l) (n : ℕ) :
    splitn sep (n + 1) l = [l] := by
  cases n with
  | zero => rfl
  | succ n => rw [splitn, splitOnce_of_not_mem h]

theorem rsplitOnce_append {sep : Char} {l : Text} (h : sep ∉ l) (t : Text) :
    rsplitOnce sep (t ++ sep :: l) = some (t, l) := by
  have hr : (t ++ sep :: l).reverse = l.reverse ++ sep :: t.reverse := by simp
  rw [rsplitOnce, hr, splitOnce_append (by simpa using h)]
  simp

theorem splitOnce_some {sep : Char} {l a t : Text} (h : splitOnce sep l = some (a, t)) :
    l = a ++ sep :: t := by
  induction l generalizing a t with
  | nil => cases h
  | cons c l ih =>
    rw [splitOnce] at h
    split_ifs at h with hc
    · cases h
      rw [hc]
      rfl
    · obtain ⟨⟨a', t'⟩, hs, hp⟩ := Option.map_eq_some_iff.mp h
      cases hp
      rw [ih hs]
      rfl

theorem rsplitOnce_some {sep : Char} {l a t : Text} (h : rsplitOnce sep l = some (a, t)) :
    l = a ++ sep :: t := by
  obtain ⟨⟨t', a'⟩, hs, hp⟩ := Option.map_eq_some_iff.mp h
  cases hp
  have hrev := congrArg List.reverse (splitOnce_some hs)
  simpa using hrev

end Unearth.Lines
