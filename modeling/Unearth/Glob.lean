import Unearth.Lib.Lines
import Unearth.Lib.Loop

/-!
# Patterns for the names of files

A star stands for any run of characters and a question mark for one of them. The matcher
goes along both texts and comes back to the last star that it has passed. It asks first
whether the characters are the same, so that a star of the pattern that meets a star of
the name stands for that one only.
-/

namespace Unearth.Glob
open Lines Loop

section Match

/-- A match under way: the last star that was passed, and how far its run goes. -/
structure Matching where
  p : ℕ
  t : ℕ
  star : Option ℕ
  mark : ℕ
  behind : ∀ sp, star = some sp → sp < p
  marked : mark ≤ t

variable (pat txt : Text)

def start : Matching := ⟨0, 0, none, 0, nofun, le_rfl⟩

def matchBody (s : Matching) : Ctl Matching Bool :=
  match txt[s.t]? with
  | none => .done ((pat.drop s.p).dropWhile (· = '*')).isEmpty
  | some c =>
    if pat[s.p]? = some '?' ∨ pat[s.p]? = some c then
      .next ⟨s.p + 1, s.t + 1, s.star, s.mark, fun sp h => Nat.lt_succ_of_lt (s.behind sp h),
        s.marked.trans (Nat.le_succ _)⟩
    else if pat[s.p]? = some '*' then
      .next ⟨s.p + 1, s.t, some s.p, s.t, fun _ h => Option.some.inj h ▸ Nat.lt_succ_self _, le_rfl⟩
    else
      match s.star with
      | some sp => .next ⟨sp + 1, s.mark + 1, some sp, s.mark + 1, fun _ h => Option.some.inj h ▸ Nat.lt_succ_self _,
          le_rfl⟩
      | none => .done false

/-- The stars that may still be passed, the runs of the last one, and what is left of both texts. -/
def measure (s : Matching) : ℕ :=
  ((pat.length + 1 - s.star.elim 0 (· + 1)) * (txt.length + 2) + (txt.length + 1 - s.mark)) *
    (txt.length + pat.length + 3) + ((txt.length + 1 - s.t) + (pat.length + 1 - s.p))

theorem digits_lt {a a' b b' n : ℕ} (ha : a' < a) (hb : b' < n) : a' * n + b' < a * n + b := by
  have hmul := Nat.mul_le_mul_right n (show a' + 1 ≤ a from ha)
  rw [Nat.add_mul, Nat.one_mul] at hmul
  omega

def matchLoop : While Matching Bool where
  body := matchBody pat txt
  measure := measure pat txt
  decreases := by
    rintro s s' h
    unfold matchBody at h
    split at h
    · cases h
    · rename_i c hc
      have ht : s.t < txt.length := (List.getElem?_eq_some_iff.mp hc).1
      have hmark := s.marked
      split_ifs at h with hsame hstar
      · cases h
        have hp : s.p < pat.length := by
          rcases hsame with hp | hp <;> exact (List.getElem?_eq_some_iff.mp hp).1
        unfold measure
        dsimp only
        omega
      · cases h
        have hp : s.p < pat.length := (List.getElem?_eq_some_iff.mp hstar).1
        have hless : pat.length + 1 - (s.p + 1) < pat.length + 1 - s.star.elim 0 (· + 1) := by
          cases hsp : s.star with
          | none => simp only [Option.elim]; omega
          | some sp =>
            have hlt := s.behind sp hsp
            simp only [Option.elim]
            omega
        exact digits_lt (digits_lt hless (by omega)) (by dsimp only; omega)
      · split at h
        · rename_i sp hsp
          cases h
          unfold measure
          rw [hsp]
          refine digits_lt ?_ (by dsimp only; omega)
          dsimp only [Option.elim]
          omega
        · cases h

end Match

/-- `lower` is the lower case of a text. -/
def globMatch (lower : Text → Text) (pattern name : Text) : Bool :=
  (matchLoop (lower pattern) (lower name)).eval start

/-- What a character of a pattern may stand for. -/
def Piece (c : Char) (s : Text) : Prop := if c = '*' then True else if c = '?' then s.length = 1 else s = [c]

/-- The text can be split into what the characters of the pattern stand for. -/
def Matches (pat txt : Text) : Prop := ∃ pieces, List.Forall₂ Piece pat pieces ∧ pieces.flatten = txt

/-- A star of the pattern whose run begins at a star stands for that one. -/
def StarsMeet : Text → List Text → Prop
  | c :: pat, s :: pieces => (c = '*' → (s ++ pieces.flatten).head? = some '*' → s = ['*']) ∧ StarsMeet pat pieces
  | _, _ => True

/-- The text can be split in such a way. -/
def MatchesStars (pat txt : Text) : Prop :=
  ∃ pieces, List.Forall₂ Piece pat pieces ∧ pieces.flatten = txt ∧ StarsMeet pat pieces

section Takes

/-- What the matcher looks for: a pattern and the text from where it has got to. -/
inductive Takes : Text → Text → Prop
  | nil : Takes [] []
  | one {c d : Char} {pat txt : Text} (h : c = '?' ∨ c = d) (hrest : Takes pat txt) : Takes (c :: pat) (d :: txt)
  | star {pat txt : Text} (run : Text) (hhead : (run ++ txt).head? ≠ some '*') (hrest : Takes pat txt) :
    Takes ('*' :: pat) (run ++ txt)

theorem takes_cons {c d : Char} {pat txt : Text} (h : c = '?' ∨ c = d) :
    Takes (c :: pat) (d :: txt) ↔ Takes pat txt := by
  constructor
  · intro htakes
    generalize hd : d :: txt = txt' at htakes
    cases htakes with
    | one _ hrest =>
      cases hd
      exact hrest
    | star run hhead =>
      rw [← hd] at hhead
      rcases h with h | h
      · cases h
      · exact absurd (congrArg some h.symm) hhead
  · exact Takes.one h

theorem takes_star {pat txt : Text} (h : txt.head? ≠ some '*') :
    Takes ('*' :: pat) txt ↔ ∃ n ≤ txt.length, Takes pat (txt.drop n) := by
  constructor
  · intro htakes
    generalize hc : '*' :: pat = pat' at htakes
    cases htakes with
    | nil => cases hc
    | one hsame hrest =>
      cases hc
      rcases hsame with hsame | rfl
      · cases hsame
      · exact absurd rfl h
    | star run hhead hrest =>
      cases hc
      refine ⟨run.length, ?_, ?_⟩
      · rw [List.length_append]
        exact Nat.le_add_right _ _
      · rwa [List.drop_left]
  · rintro ⟨n, -, hrest⟩
    have hsplit := List.take_append_drop n txt
    rw [← hsplit] at h ⊢
    exact .star _ h hrest

theorem not_takes {c d : Char} {pat txt : Text} (h : ¬ (c = '?' ∨ c = d)) (hstar : c ≠ '*') :
    ¬ Takes (c :: pat) (d :: txt) := by
  intro htakes
  generalize hd : d :: txt = txt' at htakes
  cases htakes with
  | one hsame _ =>
    cases hd
    exact h hsame
  | star run hhead _ => exact hstar rfl

/-- Only stars stand for no character at all. -/
theorem takes_nil {pat : Text} : Takes pat [] ↔ (pat.dropWhile (· = '*')).isEmpty = true := by
  induction pat with
  | nil => exact iff_of_true .nil rfl
  | cons c pat ih =>
    by_cases hc : c = '*'
    · subst hc
      rw [List.dropWhile_cons_of_pos (by decide), ← ih, takes_star (by simp)]
      simp
    · rw [List.dropWhile_cons_of_neg (by simpa using hc)]
      refine iff_of_false (fun h => ?_) Bool.false_ne_true
      generalize hd : ([] : Text) = txt' at h
      cases h with
      | one => cases hd
      | star => exact hc rfl

/-- The two ways of saying how a text is split. -/
theorem takes_iff {pat txt : Text} : Takes pat txt ↔ MatchesStars pat txt := by
  constructor
  · intro h
    induction h with
    | nil => exact ⟨[], .nil, rfl, trivial⟩
    | @one c d pat txt hsame _ ih =>
      obtain ⟨pieces, hpieces, rfl, hmeet⟩ := ih
      refine ⟨[d] :: pieces, .cons ?_ hpieces, rfl, ?_, hmeet⟩
      · unfold Piece
        split_ifs with hstar hone
        · trivial
        · rw [hsame.resolve_left hone]
      · rintro rfl -
        rw [← hsame.resolve_left (by decide)]
    | @star pat txt run hhead _ ih =>
      obtain ⟨pieces, hpieces, rfl, hmeet⟩ := ih
      exact ⟨run :: pieces, .cons (by simp [Piece]) hpieces, rfl, fun _ h => absurd h hhead, hmeet⟩
  · rintro ⟨pieces, hpieces, rfl, hmeet⟩
    induction hpieces with
    | nil => exact .nil
    | @cons c s pat pieces hpiece hrest ih =>
      obtain ⟨hfirst, hmeet⟩ := hmeet
      have hrest := ih hmeet
      rw [List.flatten_cons]
      unfold Piece at hpiece
      split_ifs at hpiece with hstar hone
      · subst hstar
        by_cases hhead : (s ++ pieces.flatten).head? = some '*'
        · rw [hfirst rfl hhead]
          exact .one (.inr rfl) hrest
        · exact .star s hhead hrest
      · obtain ⟨d, rfl⟩ := List.length_eq_one_iff.mp hpiece
        exact .one (.inl hone) hrest
      · subst hpiece
        exact .one (.inr rfl) hrest

end Takes

section Loop

variable {pat txt : Text} {s s' : Matching}

/-- Behind the last star the characters have been the same, one by one. -/
structure Walked (pat txt : Text) (sp mark n : ℕ) : Prop where
  same : ∀ i < n, ∃ c d, pat[sp + 1 + i]? = some c ∧ txt[mark + i]? = some d ∧ (c = '?' ∨ c = d)

/-- A run of the last star that is longer gets as far in the pattern, and no less far in the text. -/
theorem later_run {sp mark n m : ℕ} (h : Walked pat txt sp mark n) (hmark : mark < m) (hm : m ≤ txt.length)
    (htakes : Takes (pat.drop (sp + 1)) (txt.drop m)) :
    ∃ m', mark + n ≤ m' ∧ m' ≤ txt.length ∧ Takes (pat.drop (sp + 1 + n)) (txt.drop m') := by
  induction n with
  | zero => exact ⟨m, by omega, hm, htakes⟩
  | succ n ih =>
    obtain ⟨m', hfar, hle, htakes'⟩ := ih ⟨fun i hi => h.same i (by omega)⟩
    obtain ⟨c, d, hc, hd, hsame⟩ := h.same n (Nat.lt_succ_self n)
    obtain ⟨hlt, hget⟩ := List.getElem?_eq_some_iff.mp hc
    rw [List.drop_eq_getElem_cons hlt, hget] at htakes'
    rcases Nat.eq_or_lt_of_le hle with heq | hlt'
    · -- At the end of the text only a star is left, which stood at a star before.
      have hdlt := (List.getElem?_eq_some_iff.mp hd).1
      rw [heq, List.drop_length] at htakes'
      by_cases hstar : c = '*'
      · subst hstar
        obtain ⟨k, -, hrest⟩ := (takes_star (by simp)).mp htakes'
        refine ⟨txt.length, by omega, le_rfl, ?_⟩
        rw [List.drop_length]
        rwa [List.drop_nil] at hrest
      · generalize hnil : ([] : Text) = txt' at htakes'
        cases htakes' with
        | one => cases hnil
        | star => exact absurd rfl hstar
    · rw [List.drop_eq_getElem_cons hlt'] at htakes'
      by_cases hnext : c = '?' ∨ c = txt[m']
      · exact ⟨m' + 1, by omega, hlt', (takes_cons hnext).mp htakes'⟩
      · have hstar : c = '*' := by
          by_contra hno
          exact not_takes hnext hno htakes'
        subst hstar
        have hd' : d = '*' := (hsame.resolve_left (by decide)).symm
        have hne : m' ≠ mark + n := by
          rintro rfl
          rw [List.getElem?_eq_getElem hlt', hd', Option.some.injEq] at hd
          exact hnext (.inr hd.symm)
        have hhead : (txt[m'] :: txt.drop (m' + 1)).head? ≠ some '*' := by
          intro heq
          exact hnext (.inr (Option.some.inj heq).symm)
        obtain ⟨k, hk, hrest⟩ := (takes_star hhead).mp htakes'
        rw [← List.drop_eq_getElem_cons hlt', List.drop_drop] at hrest
        rw [List.length_cons, List.length_drop] at hk
        exact ⟨m' + k, by omega, by omega, hrest⟩

/-- The rest of the texts matches, or a longer run of the last star leads to a match. -/
def Open (pat txt : Text) (s : Matching) : Prop :=
  Takes (pat.drop s.p) (txt.drop s.t) ∨
    ∃ sp, s.star = some sp ∧ ∃ m, s.mark < m ∧ m ≤ txt.length ∧ Takes (pat.drop (sp + 1)) (txt.drop m)

/-- Where a matching is, seen from its last star. -/
structure Tracked (pat txt : Text) (s : Matching) : Prop where
  inside : s.t ≤ txt.length
  walked : ∀ sp, s.star = some sp → Walked pat txt sp s.mark (s.p - (sp + 1)) ∧ s.p - (sp + 1) = s.t - s.mark

theorem tracked_start : Tracked pat txt start := ⟨Nat.zero_le _, nofun⟩

/-- Nothing is lost when the matcher forgets a star for a later one, or is at the end. -/
theorem Tracked.passed (h : Tracked pat txt s)
    (hopen : ∃ sp, s.star = some sp ∧ ∃ m, s.mark < m ∧ m ≤ txt.length ∧ Takes (pat.drop (sp + 1)) (txt.drop m)) :
    ∃ m, s.t ≤ m ∧ m ≤ txt.length ∧ Takes (pat.drop s.p) (txt.drop m) := by
  obtain ⟨sp, hsp, m, hmark, hm, htakes⟩ := hopen
  obtain ⟨hwalked, hfar⟩ := h.walked sp hsp
  obtain ⟨m', hle, hm', htakes'⟩ := later_run hwalked hmark hm htakes
  have hbehind := s.behind sp hsp
  have hmarked := s.marked
  rw [show sp + 1 + (s.p - (sp + 1)) = s.p by omega] at htakes'
  exact ⟨m', by omega, hm', htakes'⟩

/-- One round keeps what is to be matched, and leaves the loop with whether there is a match. -/
theorem matchBody_open (h : Tracked pat txt s) :
    (matchBody pat txt s).Sat (fun s' => Tracked pat txt s' ∧ (Open pat txt s' ↔ Open pat txt s))
      (fun r => r = true ↔ Open pat txt s) := by
  have hmarked := s.marked
  unfold matchBody
  cases hc : txt[s.t]? with
  | none =>
    have hend : s.t = txt.length := le_antisymm h.inside (List.getElem?_eq_none_iff.mp hc)
    change _ ↔ _
    rw [← takes_nil]
    constructor
    · intro htakes
      refine .inl ?_
      rwa [hend, List.drop_length]
    · rintro (htakes | hlonger)
      · rwa [hend, List.drop_length] at htakes
      · obtain ⟨m, hle, hm, htakes⟩ := h.passed hlonger
        rwa [show m = txt.length by omega, List.drop_length] at htakes
  | some d =>
    obtain ⟨ht, htget⟩ := List.getElem?_eq_some_iff.mp hc
    have htxt : txt.drop s.t = d :: txt.drop (s.t + 1) := by rw [List.drop_eq_getElem_cons ht, htget]
    dsimp only
    by_cases hsame : pat[s.p]? = some '?' ∨ pat[s.p]? = some d
    · rw [if_pos hsame]
      obtain ⟨c, hpc, hcd⟩ : ∃ c, pat[s.p]? = some c ∧ (c = '?' ∨ c = d) := by
        rcases hsame with hp | hp
        · exact ⟨_, hp, .inl rfl⟩
        · exact ⟨_, hp, .inr rfl⟩
      obtain ⟨hp, hpget⟩ := List.getElem?_eq_some_iff.mp hpc
      refine ⟨⟨ht, fun sp hsp => ?_⟩, or_congr_left ?_⟩
      · obtain ⟨⟨hwalked⟩, hfar⟩ := h.walked sp hsp
        have hbehind := s.behind sp hsp
        dsimp only
        refine ⟨⟨fun i hi => ?_⟩, by omega⟩
        rcases Nat.lt_or_ge i (s.p - (sp + 1)) with hlt | hge
        · exact hwalked i hlt
        · refine ⟨c, d, ?_, ?_, hcd⟩
          · rw [show sp + 1 + i = s.p by omega]
            exact hpc
          · rw [show s.mark + i = s.t by omega]
            exact hc
      · rw [htxt, List.drop_eq_getElem_cons hp, hpget]
        exact (takes_cons hcd).symm
    · rw [if_neg hsame]
      by_cases hstar : pat[s.p]? = some '*'
      · rw [if_pos hstar]
        obtain ⟨hp, hpget⟩ := List.getElem?_eq_some_iff.mp hstar
        have hhead : (txt.drop s.t).head? ≠ some '*' := by
          rw [htxt]
          intro heq
          exact hsame (.inr (hstar.trans heq.symm))
        have hpat : pat.drop s.p = '*' :: pat.drop (s.p + 1) := by rw [List.drop_eq_getElem_cons hp, hpget]
        have hfirst : Takes (pat.drop s.p) (txt.drop s.t) ↔
            ∃ m, s.t ≤ m ∧ m ≤ txt.length ∧ Takes (pat.drop (s.p + 1)) (txt.drop m) := by
          rw [hpat, takes_star hhead]
          constructor
          · rintro ⟨n, hn, hrest⟩
            rw [List.length_drop] at hn
            rw [List.drop_drop] at hrest
            exact ⟨s.t + n, by omega, by omega, hrest⟩
          · rintro ⟨m, hle, hm, hrest⟩
            refine ⟨m - s.t, ?_, ?_⟩
            · rw [List.length_drop]
              omega
            · rw [List.drop_drop, show s.t + (m - s.t) = m by omega]
              exact hrest
        refine ⟨⟨h.inside, fun sp hsp => ?_⟩, ?_⟩
        · cases hsp
          refine ⟨⟨fun i hi => ?_⟩, ?_⟩
          · dsimp only at hi
            omega
          · dsimp only
            omega
        · constructor
          · rintro (htakes | ⟨sp, hsp, m, hlt, hm, htakes⟩)
            · exact .inl (hfirst.mpr ⟨s.t, le_rfl, h.inside, htakes⟩)
            · cases hsp
              exact .inl (hfirst.mpr ⟨m, le_of_lt hlt, hm, htakes⟩)
          · intro hopen
            -- A longer run of the star before gets to this one no earlier, which may do the rest.
            have hreach : ∃ m, s.t ≤ m ∧ m ≤ txt.length ∧ Takes (pat.drop (s.p + 1)) (txt.drop m) := by
              rcases hopen with htakes | hlonger
              · exact hfirst.mp htakes
              · obtain ⟨m, hle, hm, htakes⟩ := h.passed hlonger
                rw [hpat] at htakes
                by_cases hhead' : (txt.drop m).head? = some '*'
                · obtain ⟨rest, hrest⟩ := List.head?_eq_some_iff.mp hhead'
                  have hmlt : m < txt.length := by
                    by_contra hge
                    rw [List.drop_eq_nil_of_le (not_lt.mp hge)] at hrest
                    cases hrest
                  have hdrop := List.drop_eq_getElem_cons hmlt
                  rw [hrest] at hdrop
                  rw [hrest, takes_cons (.inr rfl), (List.cons.inj hdrop).2] at htakes
                  exact ⟨m + 1, by omega, hmlt, htakes⟩
                · obtain ⟨n, hn, hrest⟩ := (takes_star hhead').mp htakes
                  rw [List.length_drop] at hn
                  rw [List.drop_drop] at hrest
                  exact ⟨m + n, by omega, by omega, hrest⟩
            obtain ⟨m, hle, hm, htakes⟩ := hreach
            rcases Nat.eq_or_lt_of_le hle with rfl | hlt
            · exact .inl htakes
            · exact .inr ⟨s.p, rfl, m, hlt, hm, htakes⟩
      · rw [if_neg hstar]
        have hdead : ¬ Takes (pat.drop s.p) (txt.drop s.t) := by
          rw [htxt]
          cases hp : pat[s.p]? with
          | none =>
            rw [List.drop_eq_nil_of_le (List.getElem?_eq_none_iff.mp hp)]
            exact nofun
          | some c =>
            obtain ⟨hplt, hpget⟩ := List.getElem?_eq_some_iff.mp hp
            rw [List.drop_eq_getElem_cons hplt, hpget]
            rw [hp] at hsame hstar
            refine not_takes (fun hcd => hsame ?_) (fun heq => hstar (congrArg some heq))
            exact hcd.imp (congrArg some) (congrArg some)
        cases hsp : s.star with
        | none =>
          refine iff_of_false Bool.false_ne_true ?_
          rintro (htakes | ⟨sp, hsp', -⟩)
          · exact hdead htakes
          · rw [hsp] at hsp'
            cases hsp'
        | some sp =>
          refine ⟨⟨?_, fun sp' hsp' => ?_⟩, ?_⟩
          · dsimp only
            omega
          · cases hsp'
            refine ⟨⟨fun i hi => ?_⟩, ?_⟩
            · dsimp only at hi
              omega
            · dsimp only
              omega
          · constructor
            · rintro (htakes | ⟨sp', hsp', m, hlt, hm, htakes⟩)
              · exact .inr ⟨sp, hsp, s.mark + 1, Nat.lt_succ_self _, by omega, htakes⟩
              · cases hsp'
                dsimp only at hlt
                exact .inr ⟨sp, hsp, m, by omega, hm, htakes⟩
            · rintro (htakes | ⟨sp', hsp', m, hlt, hm, htakes⟩)
              · exact absurd htakes hdead
              · rw [hsp] at hsp'
                cases hsp'
                rcases Nat.eq_or_lt_of_le (show s.mark + 1 ≤ m from hlt) with rfl | hlt
                · exact .inl htakes
                · exact .inr ⟨sp, rfl, m, hlt, hm, htakes⟩

/-- The matcher finds out whether there is a match in which stars that meet stand for each other. -/
theorem eval_matchLoop (pat txt : Text) : (matchLoop pat txt).eval start = true ↔ MatchesStars pat txt := by
  have hopen : Open pat txt start ↔ MatchesStars pat txt := by
    refine ⟨?_, fun h => .inl (takes_iff.mpr h)⟩
    rintro (htakes | ⟨sp, hsp, -⟩)
    · exact takes_iff.mp htakes
    · cases hsp
  refine (matchLoop pat txt).eval_inv
    (I := fun s => Tracked pat txt s ∧ (Open pat txt s ↔ MatchesStars pat txt))
    (Q := fun r => r = true ↔ MatchesStars pat txt) ?_ ⟨tracked_start, hopen⟩
  rintro s ⟨hs, hiff⟩
  have hbody := matchBody_open hs
  change (matchBody pat txt s).Sat _ _
  cases hb : matchBody pat txt s with
  | next s' =>
    rw [hb] at hbody
    exact ⟨hbody.1, hbody.2.trans hiff⟩
  | done r =>
    rw [hb] at hbody
    exact hbody.trans hiff

end Loop

/-- A star that meets a star has matched. -/
theorem MatchesStars.matches {pat txt : Text} (h : MatchesStars pat txt) : Matches pat txt := by
  obtain ⟨pieces, hpieces, htxt, -⟩ := h
  exact ⟨pieces, hpieces, htxt⟩

/-- The matcher says whether a name matches a pattern, exactly when the name, if it matches at
all, does so with every star that meets a star standing for that one only. -/
theorem globMatch_iff (lower : Text → Text) (pattern name : Text) :
    (globMatch lower pattern name = true ↔ Matches (lower pattern) (lower name)) ↔
      (Matches (lower pattern) (lower name) → MatchesStars (lower pattern) (lower name)) := by
  rw [globMatch, eval_matchLoop]
  exact ⟨Iff.mpr, fun h => ⟨MatchesStars.matches, h⟩⟩

/-- A star alone does not match a name that begins with one. -/
theorem star_refused : globMatch id ['*'] "*a".toList = false ∧ Matches ['*'] "*a".toList ∧
    ¬ (globMatch id ['*'] "*a".toList = true ↔ Matches ['*'] "*a".toList) := by
  have hrefused : globMatch id ['*'] "*a".toList = false := by decide
  have hmatches : Matches ['*'] "*a".toList := by
    refine ⟨["*a".toList], .cons ?_ .nil, rfl⟩
    unfold Piece
    rw [if_pos rfl]
    trivial
  refine ⟨hrefused, hmatches, fun h => ?_⟩
  rw [h.mpr hmatches] at hrefused
  cases hrefused

end Unearth.Glob
