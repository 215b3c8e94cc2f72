import Unearth.ImageResume

/-!
# A map file that was cut short

The map is written over in place, so a crash leaves a prefix of it. Every prefix is
some whole lines and the start of one more, and a number that lost digits is still a
number. `parseMap_take` says what is read back at each cut. The regions survive
exactly when the cut falls before the end of the `total` line, or so early in the
`pos` line that no region lies below the position that is left of it, or when no
region is missing.
-/

namespace Unearth.Image
open Lines Decimal Spans

theorem parseMapLine_nil (m : ImageMap) : parseMapLine m [] = m := rfl

theorem parseMapLine_space (m : ImageMap) (t : Text) :
    parseMapLine m (t ++ [' ']) = parseMapLine m t := by
  simp only [parseMapLine, trim_append_space]

theorem parseMapLine_token (m : ImageMap) {t : Text} (ht : Token t) (h : t.head? ≠ some '#') :
    parseMapLine m t = parseMapItem m t [] :=
  parseMapLine_of_split h (trim_token ht) (splitWhitespace_token ht) rfl ht.1

/-- A key that names no number changes nothing, but for a `total` that was there. -/
theorem parseMapItem_nil {m : ImageMap} {key : Text} (h : m.total = none ∨ key.head? ≠ some 't') :
    parseMapItem m key [] = m := by
  unfold parseMapItem
  split_ifs with htotal
  · rcases h with h | h
    · obtain ⟨total, pos, bad⟩ := m
      simp only at h
      simp only [List.getElem?_nil, Option.bind_none, h]
    · subst htotal
      exact absurd rfl h
  · rfl
  · rfl
  · rfl

/-- A line that is cut before its first number changes nothing. -/
theorem parseMapLine_take_key {m : ImageMap} {k : Text} (a : Text) {j : ℕ} (hk : Token k)
    (hhash : k.head? ≠ some '#') (ht : m.total = none ∨ k.head? ≠ some 't')
    (hj : j ≤ k.length + 1) : parseMapLine m ((k ++ ' ' :: a).take j) = m := by
  by_cases hle : j ≤ k.length
  · rw [List.take_append_of_le_length hle]
    by_cases h0 : j = 0
    · rw [h0]
      exact parseMapLine_nil m
    · have htok : Token (k.take j) := hk.take (by omega)
      have hhead : (k.take j).head? = k.head? := by
        rw [List.head?_take, if_neg h0]
      rw [parseMapLine_token m htok (by rwa [hhead])]
      exact parseMapItem_nil (by rwa [hhead])
  · rw [take_append_space k a (by omega), show j - k.length - 1 = 0 by omega, List.take_zero,
      parseMapLine_space, parseMapLine_token m hk hhash]
    exact parseMapItem_nil ht

theorem parseMapLine_take_header (m : ImageMap) (j : ℕ) :
    parseMapLine m (mapHeader.take j) = m := by
  cases j with
  | zero => exact parseMapLine_nil m
  | succ j =>
    rw [show mapHeader = '#' :: " unearth image map v1".toList by decide, List.take_succ_cons]
    exact parseMapLine_comment m _

/-- What is left of a decimal number of which only some digits were written. -/
def cut (n missing : ℕ) : ℕ := n / 10 ^ missing

theorem take_decimal_cut {n i : ℕ} (h0 : 0 < i) (hi : i ≤ (decimal n).length) :
    (decimal n).take i = decimal (cut n ((decimal n).length - i)) := by
  have h := take_decimal (n := n) (k := (decimal n).length - i) (by omega)
  rwa [show (decimal n).length - ((decimal n).length - i) = i by omega] at h

theorem cut_le (n i : ℕ) : cut n i ≤ n := Nat.div_le_self _ _

theorem cut_zero (n : ℕ) : cut n 0 = n := by simp [cut]

theorem totalLine_length (total : ℕ) : (totalLine total).length = 6 + (decimal total).length := by
  simp [totalLine]
  omega

theorem posLine_length (pos : ℕ) : (posLine pos).length = 4 + (decimal pos).length := by
  simp [posLine]
  omega

theorem parseMapLine_take_total {m : ImageMap} {total j : ℕ} (ht : total < 2 ^ 64)
    (hm : m.total = none) (hj : j < (totalLine total).length) :
    (parseMapLine m ((totalLine total).take j)).total ≠ some total := by
  have hlen := totalLine_length total
  have hk : "total".toList.length = 5 := by decide
  by_cases hkey : j ≤ 6
  · rw [totalLine, parseMapLine_take_key _ token_total (by decide) (.inl hm) (by omega), hm]
    exact Option.some_ne_none total ∘ Eq.symm
  · rw [totalLine, take_append_space _ _ (by omega), hk, take_decimal_cut (by omega) (by omega)]
    have hlt : cut total ((decimal total).length - (j - 5 - 1)) < total :=
      div_pow_lt (by omega) (by omega)
    rw [← totalLine, parseMapLine_totalLine m (by omega)]
    simp only [ne_eq, Option.some.injEq]
    omega

theorem parseMapLine_take_pos {m : ImageMap} {pos j : ℕ} (hp : pos < 2 ^ 64) (hm : m.pos = 0)
    (hj : j ≤ (posLine pos).length) :
    parseMapLine m ((posLine pos).take j) = { m with pos := cut pos ((posLine pos).length - j) } := by
  have hlen := posLine_length pos
  have hk : "pos".toList.length = 3 := by decide
  by_cases hkey : j ≤ 4
  · have hzero : cut pos ((posLine pos).length - j) = 0 := div_pow_eq_zero (by omega)
    rw [hzero, posLine, parseMapLine_take_key _ token_pos (by decide) (.inr (by decide)) (by omega),
      ← hm]
  · have hcut := cut_le pos ((decimal pos).length - (j - 3 - 1))
    rw [posLine, take_append_space _ _ (by omega), hk, take_decimal_cut (by omega) (by omega),
      ← posLine, ← posLine, parseMapLine_posLine m (by omega)]
    congr 2
    omega

theorem parseMapLine_take_bad {m : ImageMap} {r : Span} {j : ℕ} (ho : r.offset < 2 ^ 64)
    (hl : r.len < 2 ^ 64) (hj : j < (badLine r).length) :
    parseMapLine m ((badLine r).take j) = m ∨ ∃ len < r.len,
      parseMapLine m ((badLine r).take j) = { m with bad := m.bad ++ [⟨r.offset, len⟩] } := by
  have hk : "bad".toList.length = 3 := by decide
  have hlen : (badLine r).length = 5 + (decimal r.offset).length + (decimal r.len).length := by
    simp [badLine]
    omega
  by_cases hkey : j ≤ 4
  · exact .inl (parseMapLine_take_key _ token_bad (by decide) (.inr (by decide)) (by omega))
  · rw [badLine, take_append_space _ _ (by omega), hk]
    by_cases hoff : j ≤ 4 + (decimal r.offset).length
    · left
      rw [List.take_append_of_le_length (by omega), parseMapLine_pair m token_bad (by decide)
        ((decimal_token r.offset).take (by omega))]
      cases h : parseU64 ((decimal r.offset).take (j - 3 - 1)) <;> simp [parseMapItem, h]
    · rw [take_append_space _ _ (by omega)]
      by_cases hsp : j = 5 + (decimal r.offset).length
      · left
        rw [show j - 3 - 1 - (decimal r.offset).length - 1 = 0 by omega, List.take_zero,
          show ∀ a : Text, "bad".toList ++ ' ' :: (a ++ [' ']) = ("bad".toList ++ ' ' :: a) ++ [' ']
            by simp, parseMapLine_space,
          parseMapLine_pair m token_bad (by decide) (decimal_token r.offset)]
        simp [parseMapItem, parseU64_decimal ho]
      · right
        rw [take_decimal_cut (by omega) (by omega)]
        set len := cut r.len ((decimal r.len).length - (j - 3 - 1 - (decimal r.offset).length - 1))
        have hlt : len < r.len := div_pow_lt (by omega) (by omega)
        refine ⟨len, hlt, ?_⟩
        exact parseMapLine_badLine m (r := ⟨r.offset, len⟩) ho (by simp only; omega)

/-- Reading whole lines and the start of one more. -/
theorem parseMap_torn {ms : List Text} (h : ∀ l ∈ ms, OneLine l) {u : Text} (hu : '\n' ∉ u) :
    parseMap (unlines ms ++ u) = parseMapLine (ms.foldl parseMapLine ⟨none, 0, []⟩) u := by
  rw [parseMap, lines_unlines_append h, List.foldl_append]
  cases u with
  | nil => rfl
  | cons c u => rw [lines_of_not_mem (List.cons_ne_nil c u) hu]; rfl

section Cuts

variable {start total pos k : ℕ} {bad : List Span}

/-- The lengths of the text up to the end of the `total` line and of the `pos` line. -/
def totalEnd (total : ℕ) : ℕ := mapHeader.length + 1 + (totalLine total).length
def posEnd (total pos : ℕ) : ℕ := totalEnd total + 1 + (posLine pos).length

/-- The values with which a map of `[start, total)` is written: the regions are joined. -/
structure Writable (start total pos : ℕ) (bad : List Span) : Prop where
  total_lt : total < 2 ^ 64
  pos_le : pos ≤ total
  within : Within start pos bad
  separated : bad.Pairwise fun r t => r.stop < t.offset

/-- Whatever a run writes into the map is of this form. -/
theorem writable_of_shape {s : State} (htotal : total < 2 ^ 64)
    (h : Shape start total (s.picture s.abs [])) :
    Writable start total s.abs (mergeRegions s.bad) := by
  have hw : Within start s.abs s.bad := by
    simpa only [State.picture, List.append_nil] using h.within
  exact ⟨htotal, h.fits, coalesce_within hw, coalesce_separated hw⟩

/-- The regions that are read back when the cut falls behind the `pos` line: all of
them, or some of the first and at most a shorter version of the next. -/
inductive Kept (bad : List Span) : List Span → Prop
  | all : Kept bad bad
  | dropped {bs rest : List Span} {r : Span} (eq : bad = bs ++ r :: rest) : Kept bad bs
  | shortened {bs rest : List Span} {r : Span} {len : ℕ} (eq : bad = bs ++ r :: rest)
      (lt : len < r.len) : Kept bad (bs ++ [⟨r.offset, len⟩])

theorem Writable.span_lt (h : Writable start total pos bad) {r : Span} (hr : r ∈ bad) :
    r.offset < 2 ^ 64 ∧ r.len < 2 ^ 64 := by
  have hm := h.within.mem hr
  have hp := h.pos_le
  have ht := h.total_lt
  simp only [Span.stop] at hm
  omega

theorem foldl_header_total (ht : total < 2 ^ 64) :
    [mapHeader, totalLine total].foldl parseMapLine ⟨none, 0, []⟩ = ⟨some total, 0, []⟩ := by
  have hhead := parseMapLine_take_header ⟨none, 0, []⟩ mapHeader.length
  rw [List.take_length] at hhead
  rw [List.foldl_cons, hhead, List.foldl_cons, parseMapLine_totalLine _ ht, List.foldl_nil]

theorem foldl_mapLines {bs : List Span} (ht : total < 2 ^ 64) (hp : pos < 2 ^ 64)
    (hb : ∀ r ∈ bs, r.offset < 2 ^ 64 ∧ r.len < 2 ^ 64) :
    (mapLines total pos bs).foldl parseMapLine ⟨none, 0, []⟩ = ⟨some total, pos, bs⟩ := by
  have hlines : mapLines total pos bs =
      [mapHeader, totalLine total] ++ posLine pos :: bs.map badLine := rfl
  rw [hlines, List.foldl_append, foldl_header_total ht, List.foldl_cons,
    parseMapLine_posLine _ hp, foldl_badLine _ hb, List.nil_append]

theorem length_unlines_pair (a b : Text) : (unlines [a, b]).length = a.length + 1 + b.length + 1 := by
  simp only [unlines_cons, unlines_nil, List.length_append, List.length_cons, List.length_nil]
  omega

/-- What is read back behind the `pos` line, where all the lines before `r`'s are whole. -/
theorem parseMap_take_bad {bs rest : List Span} {r : Span} {j : ℕ}
    (h : Writable start total pos (bs ++ r :: rest)) (hj : j ≤ (badLine r).length) :
    ∃ kept, parseMap (unlines (mapLines total pos bs) ++ (badLine r).take j) =
        ⟨some total, pos, kept⟩ ∧ Kept (bs ++ r :: rest) kept ∧
      (kept = bs ++ r :: rest ↔ j = (badLine r).length ∧ rest = []) := by
  have ht := h.total_lt
  have hp := h.pos_le
  have hr := h.span_lt (r := r) (by simp)
  have hbs : ∀ s ∈ bs, s.offset < 2 ^ 64 ∧ s.len < 2 ^ 64 := fun s hs => h.span_lt (by simp [hs])
  have hone := mapLines_oneLine total pos (bs ++ r :: rest)
  have hline : OneLine (badLine r) := hone _ (by simp [mapLines])
  have hmem : '\n' ∉ (badLine r).take j := fun hn => hline.1 (List.mem_of_mem_take hn)
  rw [parseMap_torn (mapLines_oneLine total pos bs) hmem, foldl_mapLines ht (by omega) hbs]
  by_cases hwhole : j = (badLine r).length
  · rw [hwhole, List.take_length, parseMapLine_badLine _ hr.1 hr.2]
    refine ⟨bs ++ [r], rfl, ?_, ?_⟩
    · cases rest with
      | nil => exact .all
      | cons r' rest => exact .dropped (List.append_cons bs r (r' :: rest))
    · simp
  · have hlt : j < (badLine r).length := lt_of_le_of_ne hj hwhole
    have hne (kept : List Span) (hlen : kept.length < (bs ++ r :: rest).length ∨
        ∃ s, s ≠ r ∧ kept = bs ++ [s]) :
        (kept = bs ++ r :: rest ↔ j = (badLine r).length ∧ rest = []) := by
      refine ⟨fun heq => ?_, fun heq => absurd heq.1 hwhole⟩
      subst heq
      rcases hlen with hlen | ⟨s, hs, heq⟩
      · exact absurd hlen (lt_irrefl _)
      · simp only [List.append_cancel_left_eq, List.cons.injEq] at heq
        exact absurd heq.1.symm hs
    rcases parseMapLine_take_bad hr.1 hr.2 hlt with hcut | ⟨len, hl, hcut⟩
    · exact ⟨bs, hcut, .dropped rfl, hne bs (.inl (by simp))⟩
    · refine ⟨bs ++ [⟨r.offset, len⟩], hcut, .shortened rfl hl, hne _ (.inr ⟨_, fun he => ?_, rfl⟩)⟩
      rw [← he] at hl
      exact absurd hl (lt_irrefl _)

/-- What is read back of the first `k` characters of a map, for every `k`. -/
theorem parseMap_take (h : Writable start total pos bad)
    (hk : k < (writeMap total pos bad).length) :
    (k < totalEnd total ∧ (parseMap ((writeMap total pos bad).take k)).total ≠ some total) ∨
    (totalEnd total ≤ k ∧ k < posEnd total pos ∧
      parseMap ((writeMap total pos bad).take k) =
        ⟨some total, cut pos (posEnd total pos - k), []⟩) ∨
    (posEnd total pos ≤ k ∧ ∃ kept,
      parseMap ((writeMap total pos bad).take k) = ⟨some total, pos, kept⟩ ∧ Kept bad kept ∧
        (kept = bad ↔ bad = [] ∨ (writeMap total pos bad).length ≤ k + 1)) := by
  have ht := h.total_lt
  have hp := h.pos_le
  have hone := mapLines_oneLine total pos bad
  have hnl (l : Text) (hl : l ∈ mapLines total pos bad) (j : ℕ) : '\n' ∉ l.take j :=
    fun hn => (hone l hl).1 (List.mem_of_mem_take hn)
  rw [writeMap_eq_unlines] at hk ⊢
  obtain ⟨ms, l, ns, j, hls, hj, hkj, htake⟩ := take_unlines _ k hk
  have hlength : (unlines (mapLines total pos bad)).length =
      (unlines ms).length + l.length + 1 + (unlines ns).length := by
    rw [hls, unlines_append, unlines_cons]
    simp only [List.length_append, List.length_cons]
    omega
  have hl : l ∈ mapLines total pos bad := by rw [hls]; simp
  have hms : ∀ m ∈ ms, OneLine m := fun m hm => hone m (by rw [hls]; simp [hm])
  rw [htake]
  simp only [mapLines] at hls
  -- by the line in which the cut falls
  rcases ms with _ | ⟨a, _ | ⟨b, _ | ⟨c, bs⟩⟩⟩
  · simp only [List.nil_append, List.cons.injEq] at hls
    obtain ⟨rfl, -⟩ := hls
    left
    rw [parseMap_torn hms (hnl _ hl j), parseMapLine_take_header]
    simp only [unlines_nil, List.length_nil] at hkj
    refine ⟨?_, by simp⟩
    simp only [totalEnd]
    omega
  · simp only [List.cons_append, List.nil_append, List.cons.injEq] at hls
    obtain ⟨rfl, rfl, -⟩ := hls
    have hlen : (unlines [mapHeader]).length = mapHeader.length + 1 := by simp
    rw [hlen] at hkj
    rw [parseMap_torn hms (hnl _ hl j), List.foldl_cons, List.foldl_nil,
      show parseMapLine ⟨none, 0, []⟩ mapHeader = ⟨none, 0, []⟩ from
        parseMapLine_take_header _ mapHeader.length]
    by_cases hwhole : j = (totalLine total).length
    · right; left
      have hzero : cut pos (posEnd total pos - k) = 0 := by
        apply div_pow_eq_zero
        have := posLine_length pos
        simp only [posEnd, totalEnd]
        omega
      rw [hzero, hwhole, List.take_length, parseMapLine_totalLine _ ht]
      refine ⟨?_, ?_, rfl⟩
      · simp only [totalEnd]
        omega
      · simp only [posEnd, totalEnd]
        omega
    · left
      refine ⟨?_, parseMapLine_take_total ht rfl (by omega)⟩
      simp only [totalEnd]
      omega
  · simp only [List.cons_append, List.nil_append, List.cons.injEq] at hls
    obtain ⟨rfl, rfl, rfl, rfl⟩ := hls
    have hlen := length_unlines_pair mapHeader (totalLine total)
    have hparse : parseMap (unlines [mapHeader, totalLine total] ++ (posLine pos).take j) =
        ⟨some total, cut pos ((posLine pos).length - j), []⟩ := by
      rw [parseMap_torn hms (hnl _ hl j), foldl_header_total ht,
        parseMapLine_take_pos (by omega) rfl hj]
    right
    by_cases hwhole : j = (posLine pos).length
    · right
      refine ⟨by simp only [posEnd, totalEnd]; omega, [], ?_, ?_, ?_⟩
      · rw [hparse, hwhole, Nat.sub_self, cut_zero]
      · cases bad with
        | nil => exact .all
        | cons r rest => exact .dropped rfl
      · cases bad with
        | nil => simp
        | cons r rest =>
          simp only [reduceCtorEq, List.nil_eq, false_or, false_iff]
          have hpos : 0 < (unlines ((r :: rest).map badLine)).length := by simp
          omega
    · left
      refine ⟨by simp only [totalEnd]; omega, by simp only [posEnd, totalEnd]; omega, ?_⟩
      rw [hparse]
      congr 2
      simp only [posEnd, totalEnd]
      omega
  · simp only [List.cons_append, List.cons.injEq] at hls
    obtain ⟨rfl, rfl, rfl, hbad⟩ := hls
    obtain ⟨bs', rest', rfl, rfl, hrest⟩ := List.map_eq_append_iff.mp hbad
    obtain ⟨r, rest, rfl, rfl, rfl⟩ := List.map_eq_cons_iff.mp hrest
    obtain ⟨kept, hparse, hkept, hall⟩ := parseMap_take_bad h hj
    right; right
    refine ⟨?_, kept, hparse, hkept, ?_⟩
    · have hthree : (unlines (mapHeader :: totalLine total :: posLine pos :: bs'.map badLine)).length
          = posEnd total pos + 1 + (unlines (bs'.map badLine)).length := by
        simp only [unlines_cons, List.length_append, List.length_cons, posEnd, totalEnd]
        omega
      omega
    · rw [hall]
      have hnil : (unlines (rest.map badLine)).length = 0 ↔ rest = [] := by
        cases rest with
        | nil => simp
        | cons r rest => simp
      have hne : bs' ++ r :: rest ≠ [] := by simp
      simp only [hne, false_or, hlength, hkj, ← hnil]
      omega

/-- Resuming over the files of `disk` is refused, or starts over, or still lists every
region of `bad` that ends below the position from which it goes on. -/
def RegionsKept (opts : ImageOptions) (disk : Disk) (start stop : ℕ) (bad : List Span) : Prop :=
  ∀ saved, loadMap opts disk start stop = .ok (some saved) →
    ∀ r ∈ bad, r.stop ≤ saved.pos → r ∈ saved.bad

/-- The cut leaves a text that no region is lost by. -/
def HarmlessCut (start total pos : ℕ) (bad : List Span) (k : ℕ) : Prop :=
  k < totalEnd total ∨
  (totalEnd total ≤ k ∧ k < posEnd total pos ∧ (cut pos (posEnd total pos - k) < start ∨
    ∀ r ∈ bad, cut pos (posEnd total pos - k) < r.stop)) ∨
  (posEnd total pos ≤ k ∧ (bad = [] ∨ (writeMap total pos bad).length ≤ k + 1))

theorem Kept.within {start pos : ℕ} {bad kept : List Span} (h : Kept bad kept)
    (hw : Within start pos bad) : Within start pos kept := by
  cases h with
  | all => exact hw
  | dropped eq =>
    subst eq
    obtain ⟨mid, hbs, hr⟩ := within_append.mp hw
    exact hbs.mono le_rfl hr.le
  | shortened eq lt =>
    subst eq
    obtain ⟨mid, hbs, hr⟩ := within_append.mp hw
    have hle := hr.2.le
    refine hbs.snoc hr.1 ?_
    simp only [Span.stop] at hle ⊢
    omega

/-- A region is missing unless all are there. -/
theorem Kept.missing {bad kept : List Span} (h : Kept bad kept)
    (hsep : bad.Pairwise fun r t => r.stop < t.offset) (hne : kept ≠ bad) :
    ∃ r ∈ bad, r ∉ kept := by
  have hbefore (bs rest : List Span) (r : Span) (eq : bad = bs ++ r :: rest) : r ∉ bs := by
    intro hr
    rw [eq, List.pairwise_append] at hsep
    have hstop := hsep.2.2 r hr r List.mem_cons_self
    simp only [Span.stop] at hstop
    omega
  cases h with
  | all => exact absurd rfl hne
  | @dropped bs rest r eq => exact ⟨r, by simp [eq], hbefore _ rest r eq⟩
  | @shortened bs rest r len eq lt =>
    refine ⟨r, by simp [eq], fun hr => ?_⟩
    rcases List.mem_append.mp hr with hr | hr
    · exact hbefore _ rest r eq hr
    · rw [List.mem_singleton] at hr
      rw [hr] at lt
      exact absurd lt (lt_irrefl _)

section Resume

variable {opts : ImageOptions} {image : List UInt8} {text : Text} {start total pos : ℕ}
  {bad kept : List Span}

theorem loadMap_of_parse (hopts : opts.resume = true ∧ opts.map = true) (htotal : total < 2 ^ 64)
    (himage : image.length = total - start) (hpos : start ≤ pos ∧ pos ≤ total)
    (hw : Within start total kept) (hparse : parseMap text = ⟨some total, pos, kept⟩) :
    loadMap opts ⟨some image, some text⟩ start total = .ok (some ⟨some total, pos, kept⟩) := by
  have hvalid : validateMap ⟨some total, pos, kept⟩ start total opts.output image.length =
      .ok true := validateMap_ok _ htotal hpos hw (by omega)
  simp only [loadMap, hopts.1, hopts.2, and_self, if_true, hparse, Option.elim_some, hvalid]

theorem loadMap_of_total (hopts : opts.resume = true ∧ opts.map = true)
    (hparse : (parseMap text).total ≠ some total) (saved : ImageMap) :
    loadMap opts ⟨some image, some text⟩ start total ≠ .ok (some saved) := by
  simp only [loadMap, hopts.1, hopts.2, and_self, if_true]
  generalize parseMap text = m at hparse
  obtain ⟨t, p, b⟩ := m
  cases t with
  | none => simp [validateMap]
  | some t =>
    have hne : t ≠ total := fun h => hparse (by rw [h])
    simp [validateMap, hne]

theorem loadMap_of_pos (hopts : opts.resume = true ∧ opts.map = true) {p : ℕ} (hp : p < start)
    (hparse : parseMap text = ⟨some total, p, kept⟩) (saved : ImageMap) :
    loadMap opts ⟨some image, some text⟩ start total ≠ .ok (some saved) := by
  simp [loadMap, hopts.1, hopts.2, hparse, validateMap, hp]

/-- A cut keeps every region below the resume position exactly when it is harmless. -/
theorem torn_map_iff (hopts : opts.resume = true ∧ opts.map = true)
    (himage : image.length = total - start) (h : Writable start total pos bad) {k : ℕ}
    (hk : k < (writeMap total pos bad).length) :
    RegionsKept opts ⟨some image, some ((writeMap total pos bad).take k)⟩ start total bad ↔
      HarmlessCut start total pos bad k := by
  have ht := h.total_lt
  have hp := h.pos_le
  have hstart := h.within.le
  rcases parseMap_take h hk with ⟨hlt, hne⟩ | ⟨hlo, hlt, hparse⟩ | ⟨hlo, kept, hparse, hkept, hall⟩
  · refine ⟨fun _ => .inl hlt, fun _ saved hsaved => ?_⟩
    exact absurd hsaved (loadMap_of_total hopts hne saved)
  · have hcut := cut_le pos (posEnd total pos - k)
    simp only [HarmlessCut, not_lt.mpr hlo, hlo, hlt, not_le.mpr hlt, false_or, true_and, false_and,
      or_false]
    by_cases hs : cut pos (posEnd total pos - k) < start
    · refine ⟨fun _ => .inl hs, fun _ saved hsaved => ?_⟩
      exact absurd hsaved (loadMap_of_pos hopts hs hparse saved)
    · have hload := loadMap_of_parse hopts ht himage ⟨not_lt.mp hs, by omega⟩
        (show Within start total [] by simp only [Within]; omega) hparse
      simp only [RegionsKept, hload, hs, false_or, Except.ok.injEq, Option.some.injEq,
        forall_eq', List.not_mem_nil, imp_false, not_le]
  · have hlt : totalEnd total < posEnd total pos := by simp only [posEnd]; omega
    have hload := loadMap_of_parse hopts ht himage ⟨hstart, hp⟩
      ((hkept.within h.within).mono le_rfl hp) hparse
    simp only [HarmlessCut, hlo, not_lt.mpr hlo, not_lt.mpr (hlt.le.trans hlo), false_or, true_and,
      false_and, and_false, ← hall]
    simp only [RegionsKept, hload, Except.ok.injEq, Option.some.injEq, forall_eq']
    constructor
    · intro hkeep
      by_contra hne
      obtain ⟨r, hr, hmiss⟩ := hkept.missing h.separated hne
      exact hmiss (hkeep r hr (h.within.mem hr).2)
    · intro heq r hr _
      rwa [heq]

theorem torn_map_iff_two_regions :
    RegionsKept { map := true, resume := true }
        ⟨some (List.replicate 20 0), some ((writeMap 20 20 [⟨4, 2⟩, ⟨8, 12⟩]).take 52)⟩ 0 20
        [⟨4, 2⟩, ⟨8, 12⟩] ↔ HarmlessCut 0 20 20 [⟨4, 2⟩, ⟨8, 12⟩] 52 :=
  torn_map_iff ⟨rfl, rfl⟩ rfl ⟨by decide, by decide, by simp [Within, Span.stop],
    by simp [Span.stop]⟩ (by decide)

/-- Cut after `bad 8 1`, the map still reads: the ten bytes from 10 on are taken for copied. -/
theorem torn_map_shortens_region :
    (writeMap 20 20 [⟨4, 2⟩, ⟨8, 12⟩]).take 54 =
        "# unearth image map v1\ntotal 20\npos 20\nbad 4 2\nbad 8 1".toList ∧
      loadMap { map := true, resume := true }
        ⟨some (List.replicate 20 0), some ((writeMap 20 20 [⟨4, 2⟩, ⟨8, 12⟩]).take 54)⟩ 0 20 =
          .ok (some ⟨some 20, 20, [⟨4, 2⟩, ⟨8, 1⟩]⟩) ∧
      ¬ RegionsKept { map := true, resume := true }
        ⟨some (List.replicate 20 0), some ((writeMap 20 20 [⟨4, 2⟩, ⟨8, 12⟩]).take 54)⟩ 0 20
        [⟨4, 2⟩, ⟨8, 12⟩] := by
  have hload : loadMap { map := true, resume := true }
      ⟨some (List.replicate 20 0), some ((writeMap 20 20 [⟨4, 2⟩, ⟨8, 12⟩]).take 54)⟩ 0 20 =
        .ok (some ⟨some 20, 20, [⟨4, 2⟩, ⟨8, 1⟩]⟩) := by decide
  refine ⟨by decide, hload, fun h => ?_⟩
  exact absurd (h _ hload ⟨8, 12⟩ (by decide) (by decide)) (by decide)

end Resume

end Cuts

end Unearth.Image
