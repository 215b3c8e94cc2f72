import Unearth.Lib.Utf8

/-!
# Text in pieces

The pieces of a text, each read for itself, are the text exactly where none of them begins inside a character: a
character that is cut becomes more than one mark.
-/

namespace Unearth.Utf8

section Starts

variable {lead x : UInt8} {rest l : List UInt8} {skip further : ℕ} {c : Char} {t : List Char}

/-- The number of bytes that do not continue a character. -/
def starts (l : List UInt8) : ℕ := l.countP (! isContinuation ·)

theorem starts_append (l m : List UInt8) : starts (l ++ m) = starts l + starts m := List.countP_append

theorem starts_cons_of_continuation (h : isContinuation x = true) : starts (x :: l) = starts l :=
  List.countP_cons_of_neg (by simp [h])

theorem starts_cons_of_not (h : isContinuation x = false) : starts (x :: l) = starts l + 1 :=
  List.countP_cons_of_pos (by simp [h])

theorem starts_cons_le (x : UInt8) (l : List UInt8) : starts (x :: l) ≤ starts l + 1 := by
  cases h : isContinuation x with
  | true =>
    rw [starts_cons_of_continuation h]
    exact Nat.le_succ _
  | false => exact (starts_cons_of_not h).le

theorem isContinuation_of_isSecond (h : isSecond lead x = true) : isContinuation x = true := by
  unfold isSecond isContinuation at h
  unfold isContinuation
  simp only [Bool.and_eq_true, decide_eq_true_eq, UInt8.le_iff_toNat_le] at h ⊢
  split_ifs at h
  all_goals
    simp only [Bool.and_eq_true, decide_eq_true_eq] at h
    have hlow := h.1
    have hhigh := h.2
    simp at hlow hhigh ⊢
    omega

theorem prefix_continued (lead : UInt8) (l : List UInt8) : continued lead l <+: l := by
  cases l with
  | nil => exact List.prefix_refl []
  | cons x rest =>
    rw [continued]
    split_ifs
    · exact (List.prefix_cons_inj x).mpr (List.takeWhile_prefix _)
    · exact List.nil_prefix

theorem continued_continuation (h : x ∈ continued lead l) : isContinuation x = true := by
  cases l with
  | nil => cases h
  | cons y rest =>
    rw [continued] at h
    split_ifs at h with hsecond
    · rcases List.mem_cons.mp h with rfl | h
      · exact isContinuation_of_isSecond hsecond
      · exact List.mem_takeWhile_imp h
    · cases h

/-- What a character takes further continues it. -/
theorem decodeOne_further (h : x ∈ rest.take (decodeOne lead rest).2) : isContinuation x = true := by
  unfold decodeOne at h
  split_ifs at h with hascii
  · cases h
  · have hprefix := (prefix_continued lead (rest.take (width lead - 1))).trans (List.take_prefix _ _)
    have htake := List.prefix_iff_eq_take.mp hprefix
    dsimp only at h
    split_ifs at h
    · rw [← htake] at h
      exact continued_continuation h
    · rw [← htake] at h
      exact continued_continuation h

/-- A character does not begin with a byte that continues one. -/
theorem lead_of_decodeOne (h : decodeOne lead rest = (some c, further)) : isContinuation lead = false := by
  unfold decodeOne at h
  by_contra hlead
  have hlead : 0x80 ≤ lead.toNat ∧ lead.toNat ≤ 0xBF := by
    simpa [isContinuation, UInt8.le_iff_toNat_le] using hlead
  have hascii : ¬ lead < 0x80 := by
    rw [UInt8.lt_iff_toNat_lt]
    exact not_lt.mpr hlead.1
  have hwidth : width lead = 0 := by
    simp only [width, if_neg hascii, UInt8.le_iff_toNat_le, Bool.and_eq_true, decide_eq_true_eq]
    simp only [UInt8.reduceToNat]
    split_ifs <;> omega
  rw [if_neg hascii, hwidth] at h
  simp at h

/-- Every mark or character of a text takes at most one byte that does not continue one. -/
theorem starts_le_length (h : ∀ x ∈ l.take skip, isContinuation x = true) :
    starts l ≤ (lossyFrom skip l).length := by
  induction l generalizing skip with
  | nil => exact Nat.zero_le _
  | cons x rest ih =>
    cases skip with
    | zero =>
      have hrest := @ih (decodeOne x rest).2 fun y hy => decodeOne_further hy
      rw [lossyFrom, List.length_cons]
      exact (starts_cons_le x rest).trans (Nat.succ_le_succ hrest)
    | succ skip =>
      obtain ⟨hx, hrest⟩ := List.forall_mem_cons.mp h
      rw [lossyFrom, starts_cons_of_continuation hx]
      exact ih hrest

/-- What begins inside a character has a mark too many. -/
theorem starts_lt_length (h : isContinuation x = true) : starts (x :: rest) < (fromUtf8Lossy (x :: rest)).length := by
  have hrest : starts rest ≤ (lossyFrom (decodeOne x rest).2 rest).length :=
    starts_le_length fun y hy => decodeOne_further hy
  rw [starts_cons_of_continuation h, fromUtf8Lossy, lossyFrom, List.length_cons]
  omega

theorem length_of_strict (hskip : ∀ x ∈ l.take skip, isContinuation x = true) (h : strictFrom skip l = some t) :
    t.length = starts l := by
  induction l generalizing skip t with
  | nil =>
    cases skip <;> cases h <;> rfl
  | cons x rest ih =>
    cases skip with
    | zero =>
      rw [strictFrom] at h
      rcases hone : decodeOne x rest with ⟨_ | c, further⟩
      · rw [hone] at h
        cases h
      · rw [hone] at h
        obtain ⟨t', ht', rfl⟩ := Option.map_eq_some_iff.mp h
        have hfurther : ∀ y ∈ rest.take further, isContinuation y = true := fun y hy =>
          @decodeOne_further x _ _ (by rw [hone]; exact hy)
        rw [List.length_cons, ih hfurther ht', starts_cons_of_not (lead_of_decodeOne hone)]
    | succ skip =>
      obtain ⟨hx, hrest⟩ := List.forall_mem_cons.mp hskip
      rw [starts_cons_of_continuation hx]
      exact ih hrest h

/-- Text is read without marks. -/
theorem lossy_of_strict (h : strictFrom skip l = some t) : lossyFrom skip l = t := by
  induction l generalizing skip t with
  | nil =>
    cases skip <;> cases h <;> rfl
  | cons x rest ih =>
    cases skip with
    | zero =>
      rw [strictFrom] at h
      rcases hone : decodeOne x rest with ⟨_ | c, further⟩
      · rw [hone] at h
        cases h
      · rw [hone] at h
        obtain ⟨t', ht', rfl⟩ := Option.map_eq_some_iff.mp h
        rw [lossyFrom, hone]
        dsimp only
        rw [ih ht']
        rfl
    | succ skip => exact ih h

end Starts

section Pieces

variable {lead : UInt8} {rest behind l : List UInt8} {skip further : ℕ} {c : Char} {t : List Char}

/-- Bytes that are empty or begin outside of a character. -/
def Fresh (l : List UInt8) : Prop := ∀ x ∈ l.head?, isContinuation x = false

/-- All that a character needs is there when it is complete. -/
theorem width_le_of_continued
    (hlength : width lead - 1 ≤ (continued lead ((rest ++ behind).take (width lead - 1))).length)
    (hfresh : Fresh behind) : width lead - 1 ≤ rest.length := by
  by_contra hshort
  generalize hn : width lead - 1 = n at hlength hshort
  have hprefix := prefix_continued lead ((rest ++ behind).take n)
  have hwhole : continued lead ((rest ++ behind).take n) = (rest ++ behind).take n :=
    hprefix.eq_of_length_le ((List.length_take_le _ _).trans hlength)
  rw [hwhole, List.length_take, List.length_append] at hlength
  cases behind with
  | nil =>
    rw [List.length_nil] at hlength
    omega
  | cons x behind =>
    have hmem : x ∈ (rest ++ x :: behind).take n := by
      obtain ⟨k, hk⟩ : ∃ k, n - rest.length = k + 1 := ⟨n - rest.length - 1, by omega⟩
      rw [List.take_append, hk, List.take_succ_cons]
      exact List.mem_append_right _ List.mem_cons_self
    rw [← hwhole] at hmem
    have hcontinues := continued_continuation hmem
    rw [hfresh x rfl] at hcontinues
    cases hcontinues

/-- A character is complete before what begins outside of it. -/
theorem decodeOne_append (h : decodeOne lead (rest ++ behind) = (some c, further)) (hfresh : Fresh behind) :
    decodeOne lead rest = (some c, further) ∧ further ≤ rest.length := by
  unfold decodeOne at h ⊢
  by_cases hascii : lead < 0x80
  · rw [if_pos hascii] at h ⊢
    cases h
    exact ⟨rfl, Nat.zero_le _⟩
  · rw [if_neg hascii] at h ⊢
    dsimp only at h ⊢
    by_cases hpart : width lead = 0 ∨
        (continued lead ((rest ++ behind).take (width lead - 1))).length < width lead - 1
    · rw [if_pos hpart] at h
      cases h
    · have hfits := width_le_of_continued (not_lt.mp (not_or.mp hpart).2) hfresh
      rw [List.take_append_of_le_length hfits] at h hpart
      rw [if_neg hpart] at h ⊢
      refine ⟨h, ?_⟩
      have hfurther := (Prod.mk.inj h).2
      have hlength := ((prefix_continued lead (rest.take (width lead - 1))).trans (List.take_prefix _ _)).length_le
      omega

/-- Text that goes on outside of a character is two texts. -/
theorem strictFrom_append (hskip : skip ≤ l.length) (hfresh : Fresh behind)
    (h : strictFrom skip (l ++ behind) = some t) :
    ∃ t₁ t₂, strictFrom skip l = some t₁ ∧ fromUtf8 behind = some t₂ ∧ t = t₁ ++ t₂ := by
  induction l generalizing skip t with
  | nil =>
    rw [List.length_nil, Nat.le_zero] at hskip
    rw [hskip] at h ⊢
    exact ⟨[], t, rfl, h, rfl⟩
  | cons x rest ih =>
    cases skip with
    | zero =>
      rw [List.cons_append, strictFrom] at h
      rcases hone : decodeOne x (rest ++ behind) with ⟨_ | c, further⟩
      · rw [hone] at h
        cases h
      · rw [hone] at h
        obtain ⟨t', ht', rfl⟩ := Option.map_eq_some_iff.mp h
        obtain ⟨hone, hfurther⟩ := decodeOne_append hone hfresh
        obtain ⟨t₁, t₂, h₁, h₂, rfl⟩ := ih hfurther ht'
        refine ⟨c :: t₁, t₂, ?_, h₂, rfl⟩
        rw [strictFrom, hone]
        dsimp only
        rw [h₁]
        rfl
    | succ skip => exact ih (Nat.le_of_succ_le_succ hskip) h

theorem fresh_flatten {pieces : List (List UInt8)} (h : ∀ p ∈ pieces, Fresh p) : Fresh pieces.flatten := by
  induction pieces with
  | nil => exact fun x hx => by cases hx
  | cons p rest ih =>
    obtain ⟨hp, hrest⟩ := List.forall_mem_cons.mp h
    cases p with
    | nil => exact ih hrest
    | cons x p => exact hp

/-- The marks and characters of pieces are no fewer than the bytes that do not continue one. -/
theorem starts_flatten_le (pieces : List (List UInt8)) :
    starts pieces.flatten ≤ (pieces.flatMap fromUtf8Lossy).length := by
  induction pieces with
  | nil => exact le_rfl
  | cons p rest ih =>
    have hp : starts p ≤ (fromUtf8Lossy p).length := starts_le_length fun x hx => by cases hx
    rw [List.flatten_cons, starts_append, List.flatMap_cons, List.length_append]
    omega

/-- Pieces of a text are read as the text exactly where none of them begins inside a character. -/
theorem lossy_pieces_iff {pieces : List (List UInt8)} (h : fromUtf8 pieces.flatten = some t) :
    pieces.flatMap fromUtf8Lossy = t ↔ ∀ p ∈ pieces, Fresh p := by
  constructor
  · intro heq p hp x hx
    by_contra hcontinues
    have hlength : t.length = starts pieces.flatten := length_of_strict (fun y hy => by cases hy) h
    obtain ⟨before, behind, rfl⟩ := List.append_of_mem hp
    cases p with
    | nil => cases hx
    | cons y p =>
      cases hx
      have hcut := @starts_lt_length _ p (Bool.eq_true_of_not_eq_false hcontinues)
      have hbefore := starts_flatten_le before
      have hbehind := starts_flatten_le behind
      have hlengths := congrArg List.length heq
      rw [List.flatMap_append, List.flatMap_cons, List.length_append, List.length_append] at hlengths
      rw [List.flatten_append, List.flatten_cons, starts_append, starts_append] at hlength
      omega
  · intro hfresh
    induction pieces generalizing t with
    | nil =>
      cases h
      rfl
    | cons p rest ih =>
      obtain ⟨-, hrest⟩ := List.forall_mem_cons.mp hfresh
      obtain ⟨t₁, t₂, h₁, h₂, rfl⟩ := strictFrom_append (Nat.zero_le _) (fresh_flatten hrest) h
      rw [List.flatMap_cons, ih h₂ hrest]
      exact congrArg (· ++ t₂) (lossy_of_strict h₁)

end Pieces

end Unearth.Utf8
