import Unearth.Lib.Search
import Unearth.Signatures
import Unearth.Source

/-!
# The index of the active signatures

The index has a bucket for each first byte, a set of two-byte prefixes that rejects
most positions at once, and the number of leading zeros that tells how far a block of
zeros may be skipped. None of them loses a match: `matchAt` finds the first signature
of the list that matches, and no signature matches where `zeroSkip` jumps over.
-/

namespace Unearth
open Bytes Search Word

def Signature.Matches (sig : Signature) (w : List UInt8) : Bool :=
  sig.magic.isPrefixOf w && match sig.secondary with
    | none => true
    | some (off, tag) => off + tag.length ≤ w.length && window w off tag.length == tag

/-- The bytes of a window that decide whether the signature matches. -/
def Signature.reach (sig : Signature) : ℕ :=
  match sig.secondary with
  | none => sig.magic.length
  | some (off, tag) => max sig.magic.length (off + tag.length)

def Signature.leadingZeros (sig : Signature) : ℕ := (sig.magic.takeWhile (· == 0)).length

structure SignatureIndex where
  byFirstByte : UInt8 → List Signature
  maxLeadingZeros : Option ℕ
  prefixBits : ℕ → Bool
  maxLookahead : ℕ

/-- The largest of some numbers, zero when there are none. -/
def maxOf (l : List ℕ) : ℕ := l.foldr max 0

/-- `none` when some magic is all zeros. -/
def maxLeadingZeros (active : List Signature) : Option ℕ :=
  if active.all fun sig => sig.leadingZeros < sig.magic.length then
    some (maxOf (active.map Signature.leadingZeros))
  else none

def mark (bits : ℕ → Bool) (p : ℕ) : ℕ → Bool := fun q => q == p || bits q

def prefixOf (b₀ b₁ : UInt8) : ℕ := b₀.toNat * 256 + b₁.toNat

namespace SignatureIndex

def markMagic (bits : ℕ → Bool) : List UInt8 → ℕ → Bool
  | [] => bits
  -- a one-byte magic can be followed by any byte
  | [first] => (List.range 256).foldl (fun bits b₁ => mark bits (first.toNat * 256 + b₁)) bits
  | first :: second :: _ => mark bits (prefixOf first second)

def reachOf (b : Build) (sig : Signature) : Exec ℕ :=
  match sig.secondary with
  | some (off, tag) => return max sig.magic.length (← plus b off tag.length)
  | none => return sig.magic.length

def push (idx : SignatureIndex) (sig : Signature) (reach : ℕ) : SignatureIndex :=
  { idx with
    byFirstByte := fun first =>
      if sig.magic.head? = some first then idx.byFirstByte first ++ [sig] else idx.byFirstByte first
    prefixBits := markMagic idx.prefixBits sig.magic
    maxLookahead := max idx.maxLookahead reach }

def add (b : Build) (idx : SignatureIndex) (sig : Signature) : Exec SignatureIndex := do
  return idx.push sig (← reachOf b sig)

def empty (active : List Signature) : SignatureIndex where
  byFirstByte _ := []
  maxLeadingZeros := Unearth.maxLeadingZeros active
  prefixBits _ := false
  maxLookahead := 0

def build (b : Build) (active : List Signature) : Exec SignatureIndex :=
  active.foldlM (add b) (empty active)

/-- How far the scan may jump when it sees `block` zero bytes. -/
def zeroSkip (idx : SignatureIndex) (block : ℕ) : Option ℕ :=
  match idx.maxLeadingZeros with
  | some lz => if lz < block then some (block - lz) else none
  | none => none

def matchBucket (b : Build) (w : List UInt8) : List Signature → Exec (Option Signature)
  | [] => .ok none
  | sig :: rest =>
    if w.length < sig.magic.length ∨ w.take sig.magic.length ≠ sig.magic then matchBucket b w rest
    else match sig.secondary with
      | none => .ok (some sig)
      | some (off, tag) => do
        let stop ← plus b off tag.length
        if w.length < stop then matchBucket b w rest
        -- a stop that wrapped lies before the offset
        else if stop < off then .error .slice
        else if window w off (stop - off) ≠ tag then matchBucket b w rest
        else .ok (some sig)

def matchAt (b : Build) (idx : SignatureIndex) (w : List UInt8) : Exec (Option Signature) :=
  match w with
  | [] => .ok none
  | first :: _ =>
    match w[1]? with
    | some second =>
      if idx.prefixBits (prefixOf first second) then matchBucket b w (idx.byFirstByte first)
      else .ok none
    | none => matchBucket b w (idx.byFirstByte first)

end SignatureIndex

/-- The largest reach of a list of signatures. -/
def maxReach (active : List Signature) : ℕ := maxOf (active.map Signature.reach)

theorem le_maxOf {l : List ℕ} {n : ℕ} (h : n ∈ l) : n ≤ maxOf l := by
  induction l with
  | nil => simp at h
  | cons m l ih =>
    simp only [maxOf, List.foldr_cons] at ih ⊢
    rcases List.mem_cons.mp h with rfl | h
    · exact le_max_left _ _
    · exact (ih h).trans (le_max_right _ _)

theorem reach_le_maxReach {active : List Signature} {sig : Signature} (h : sig ∈ active) :
    sig.reach ≤ maxReach active :=
  le_maxOf (List.mem_map_of_mem h)

theorem magic_length_le_reach (sig : Signature) : sig.magic.length ≤ sig.reach := by
  unfold Signature.reach
  split
  · exact le_rfl
  · exact le_max_left _ _

theorem matches_iff {sig : Signature} {w : List UInt8} :
    sig.Matches w ↔ sig.magic <+: w ∧ ∀ off tag, sig.secondary = some (off, tag) →
      off + tag.length ≤ w.length ∧ window w off tag.length = tag := by
  unfold Signature.Matches
  rw [Bool.and_eq_true, List.isPrefixOf_iff_prefix]
  refine and_congr_right fun _ => ?_
  cases h : sig.secondary with
  | none => simp
  | some p =>
    obtain ⟨off, tag⟩ := p
    simp only [Bool.and_eq_true, decide_eq_true_eq, beq_iff_eq, Option.some.injEq, Prod.mk.injEq]
    constructor
    · rintro h _ _ ⟨rfl, rfl⟩
      exact h
    · exact fun h => h off tag ⟨rfl, rfl⟩

theorem window_take {w : List UInt8} {off len n : ℕ} (h : off + len ≤ n) :
    window (w.take n) off len = window w off len := by
  simp only [window, List.drop_take, List.take_take]
  congr 1
  omega

/-- A signature matches on the bytes within its reach. -/
theorem matches_take {sig : Signature} {w : List UInt8} {n : ℕ} (h : sig.reach ≤ n) :
    sig.Matches (w.take n) = sig.Matches w := by
  rw [Bool.eq_iff_iff, matches_iff, matches_iff]
  have hmagic := magic_length_le_reach sig
  refine and_congr ?_ (forall₂_congr fun off tag => forall_congr' fun hs => ?_)
  · constructor
    · exact fun hp => hp.trans (List.take_prefix n w)
    · intro hp
      rw [List.prefix_take_iff]
      exact ⟨hp, by omega⟩
  · have hreach : off + tag.length ≤ sig.reach := by
      simp only [Signature.reach, hs]
      exact le_max_right _ _
    rw [window_take (by omega), List.length_take]
    refine and_congr ?_ Iff.rfl
    omega

/-- The first signature of a list that matches. -/
def firstMatch (active : List Signature) (w : List UInt8) : Option Signature :=
  active.find? (·.Matches w)

theorem firstMatch_local {active : List Signature} {n : ℕ} (h : maxReach active ≤ n) :
    Local (firstMatch active) n := by
  intro w
  have hsame : ∀ sig ∈ active, sig.Matches (w.take n) = sig.Matches w := fun sig hs =>
    matches_take ((reach_le_maxReach hs).trans h)
  induction active with
  | nil => rfl
  | cons sig active ih =>
    simp only [firstMatch, List.find?_cons, hsame sig List.mem_cons_self] at ih ⊢
    cases sig.Matches w with
    | true => rfl
    | false =>
      exact ih ((le_max_right _ _).trans h) fun s hs => hsame s (List.mem_cons_of_mem _ hs)

namespace SignatureIndex

variable {b : Build} {active : List Signature} {idx : SignatureIndex}

/-- The index holds what `active` asks for: a bucket is the signatures with its first
byte in order, and no prefix of a match is unmarked. -/
structure Indexes (idx : SignatureIndex) (active : List Signature) : Prop where
  bucket : ∀ first, idx.byFirstByte first = active.filter fun s => s.magic.head? = some first
  marked : ∀ s ∈ active, ∀ b₀ b₁ w, s.Matches (b₀ :: b₁ :: w) →
    idx.prefixBits (prefixOf b₀ b₁) = true
  lookahead : idx.maxLookahead = maxReach active

theorem foldl_mark (bits : ℕ → Bool) (base : ℕ) (l : List ℕ) (q : ℕ) :
    l.foldl (fun bits b₁ => mark bits (base + b₁)) bits q =
      (l.any (fun b₁ => q == base + b₁) || bits q) := by
  induction l generalizing bits with
  | nil => rfl
  | cons b₁ l ih =>
    rw [List.foldl_cons, ih, List.any_cons, mark]
    cases q == base + b₁ <;> cases l.any (fun b₁ => q == base + b₁) <;> rfl

theorem markMagic_mono {bits : ℕ → Bool} {p : ℕ} (h : bits p = true) (magic : List UInt8) :
    markMagic bits magic p = true := by
  match magic with
  | [] => exact h
  | [first] => simp [markMagic, foldl_mark, h]
  | first :: second :: rest => simp [markMagic, mark, h]

theorem markMagic_prefix {bits : ℕ → Bool} {magic w : List UInt8} {b₀ b₁ : UInt8}
    (hne : magic ≠ []) (h : magic <+: b₀ :: b₁ :: w) :
    markMagic bits magic (prefixOf b₀ b₁) = true := by
  match magic with
  | [] => exact absurd rfl hne
  | [first] =>
    simp only [List.cons_prefix_cons] at h
    have hb : b₁.toNat < 256 := b₁.toNat_lt
    simp only [markMagic, foldl_mark, h.1, prefixOf, Bool.or_eq_true, List.any_eq_true,
      List.mem_range, beq_iff_eq]
    exact .inl ⟨b₁.toNat, hb, rfl⟩
  | first :: second :: rest =>
    simp only [List.cons_prefix_cons] at h
    simp [markMagic, mark, h.1, h.2.1]

theorem reachOf_eq {sig : Signature} (h : sig.reach < 2 ^ 64) : reachOf b sig = .ok sig.reach := by
  unfold reachOf
  cases hs : sig.secondary with
  | none => simp only [Signature.reach, hs]; rfl
  | some p =>
    obtain ⟨off, tag⟩ := p
    simp only [Signature.reach, hs] at h ⊢
    rw [plus_eq (lt_of_le_of_lt (le_max_right _ _) h)]
    rfl

theorem maxReach_snoc (active : List Signature) (sig : Signature) :
    maxReach (active ++ [sig]) = max (maxReach active) sig.reach := by
  induction active with
  | nil => simp [maxReach, maxOf]
  | cons s active ih =>
    simp only [maxReach, maxOf, List.cons_append, List.map_cons, List.foldr_cons] at ih ⊢
    rw [ih, max_assoc]

theorem add_indexes {sig : Signature} (h : Indexes idx active) (hr : sig.reach < 2 ^ 64) :
    ∃ idx', add b idx sig = .ok idx' ∧ Indexes idx' (active ++ [sig]) ∧
      idx'.maxLeadingZeros = idx.maxLeadingZeros := by
  refine ⟨idx.push sig sig.reach, by rw [add, reachOf_eq hr]; rfl,
    ⟨fun first => ?_, fun s hs b₀ b₁ w hm => ?_, ?_⟩, rfl⟩
  · simp only [push, List.filter_append, h.bucket, List.filter_cons, List.filter_nil,
      decide_eq_true_eq]
    split_ifs
    · rfl
    · rw [List.append_nil]
  · simp only [push]
    rcases List.mem_append.mp hs with hs | hs
    · exact markMagic_mono (h.marked s hs b₀ b₁ w hm) _
    · rw [List.mem_singleton] at hs
      subst hs
      exact markMagic_prefix s.wellFormed.magic_ne (matches_iff.mp hm).1
  · simp only [push, h.lookahead, maxReach_snoc]

theorem build_indexes (h : ∀ s ∈ active, s.reach < 2 ^ 64) :
    ∃ idx, build b active = .ok idx ∧ Indexes idx active ∧
      idx.maxLeadingZeros = Unearth.maxLeadingZeros active := by
  have hall (rest done : List Signature) (idx : SignatureIndex) (hi : Indexes idx done)
      (hr : ∀ s ∈ rest, s.reach < 2 ^ 64) :
      ∃ idx', rest.foldlM (add b) idx = .ok idx' ∧ Indexes idx' (done ++ rest) ∧
        idx'.maxLeadingZeros = idx.maxLeadingZeros := by
    induction rest generalizing done idx with
    | nil => exact ⟨idx, rfl, by simpa using hi, rfl⟩
    | cons sig rest ih =>
      obtain ⟨idx₁, ha, hi₁, hz₁⟩ := add_indexes (b := b) hi (hr sig List.mem_cons_self)
      obtain ⟨idx₂, hf, hi₂, hz₂⟩ := ih (done ++ [sig]) idx₁ hi₁
        fun s hs => hr s (List.mem_cons_of_mem _ hs)
      refine ⟨idx₂, ?_, by simpa using hi₂, hz₂.trans hz₁⟩
      rw [List.foldlM_cons, ha]
      exact hf
  have hempty : Indexes (empty active) [] := ⟨fun _ => rfl, by simp, rfl⟩
  obtain ⟨idx, hb, hi, hz⟩ := hall active [] (empty active) hempty h
  exact ⟨idx, hb, by simpa using hi, hz⟩

theorem matchBucket_eq {w : List UInt8} {bucket : List Signature}
    (h : ∀ s ∈ bucket, s.reach < 2 ^ 64) :
    matchBucket b w bucket = .ok (bucket.find? (·.Matches w)) := by
  induction bucket with
  | nil => rfl
  | cons sig rest ih =>
    have ih := ih fun s hs => h s (List.mem_cons_of_mem _ hs)
    have hmagic : (w.length < sig.magic.length ∨ w.take sig.magic.length ≠ sig.magic) ↔
        ¬ sig.magic <+: w := by
      rw [List.prefix_iff_eq_take, ne_comm, ne_eq]
      constructor
      · rintro (hlt | hne)
        · intro heq
          have := congrArg List.length heq
          simp only [List.length_take] at this
          omega
        · exact hne
      · exact .inr
    rw [matchBucket, List.find?_cons]
    by_cases hp : sig.magic <+: w
    · rw [if_neg (by rwa [hmagic, not_not])]
      cases hs : sig.secondary with
      | none =>
        have hm : sig.Matches w = true := matches_iff.mpr ⟨hp, by simp [hs]⟩
        simp only [hm]
      | some p =>
        obtain ⟨off, tag⟩ := p
        have hlt : off + tag.length < 2 ^ 64 := by
          have := h sig List.mem_cons_self
          simp only [Signature.reach, hs] at this
          exact lt_of_le_of_lt (le_max_right _ _) this
        have hm : sig.Matches w ↔ off + tag.length ≤ w.length ∧ window w off tag.length = tag := by
          rw [matches_iff]
          simp only [hp, true_and, hs, Option.some.injEq, Prod.mk.injEq]
          exact ⟨fun h => h off tag ⟨rfl, rfl⟩, fun h _ _ ⟨h₁, h₂⟩ => h₁ ▸ h₂ ▸ h⟩
        simp only [plus_eq hlt, bind, Except.bind, Nat.add_sub_cancel_left]
        by_cases hlen : w.length < off + tag.length
        · rw [if_pos hlen, show sig.Matches w = false by rw [Bool.eq_false_iff, ne_eq, hm]; omega]
          exact ih
        · rw [if_neg hlen, if_neg (by omega)]
          by_cases htag : window w off tag.length = tag
          · rw [if_neg (by simpa using htag), show sig.Matches w = true from hm.mpr ⟨by omega, htag⟩]
          · rw [if_pos htag, show sig.Matches w = false by
              rw [Bool.eq_false_iff, ne_eq, hm]; exact fun hh => htag hh.2]
            exact ih
    · rw [if_pos (hmagic.mpr hp), show sig.Matches w = false by
        rw [Bool.eq_false_iff, ne_eq, matches_iff]; exact fun hh => hp hh.1]
      exact ih

/-- Neither the prefix set nor the buckets lose a match or change which one is first. -/
theorem matchAt_eq (hi : Indexes idx active) (h : ∀ s ∈ active, s.reach < 2 ^ 64) (w : List UInt8) :
    matchAt b idx w = .ok (firstMatch active w) := by
  cases w with
  | nil =>
    have hnone : firstMatch active [] = none := by
      refine List.find?_eq_none.mpr fun s _ hm => s.wellFormed.magic_ne ?_
      exact List.prefix_nil.mp (matches_iff.mp hm).1
    rw [hnone]
    rfl
  | cons first w =>
    have hbucket : (idx.byFirstByte first).find? (·.Matches (first :: w)) =
        firstMatch active (first :: w) := by
      rw [hi.bucket, List.find?_filter, firstMatch]
      congr 1
      funext s
      cases hm : s.Matches (first :: w) with
      | false => simp
      | true =>
        have hp := (matches_iff.mp hm).1
        obtain ⟨c, magic, hc⟩ := List.exists_cons_of_ne_nil s.wellFormed.magic_ne
        rw [hc, List.cons_prefix_cons] at hp
        simp [hc, hp.1]
    have hmem : ∀ s ∈ idx.byFirstByte first, s.reach < 2 ^ 64 := by
      intro s hs
      rw [hi.bucket] at hs
      exact h s (List.mem_of_mem_filter hs)
    simp only [matchAt]
    split
    · rename_i second hsecond
      split_ifs with hbit
      · rw [matchBucket_eq hmem, hbucket]
      · obtain ⟨w', rfl⟩ : ∃ w', w = second :: w' := by
          cases w with
          | nil => simp at hsecond
          | cons c w' => exact ⟨w', by simp at hsecond; rw [hsecond]⟩
        have hnone : firstMatch active (first :: second :: w') = none :=
          List.find?_eq_none.mpr fun s hs hm => hbit (hi.marked s hs first second w' hm)
        rw [hnone]
    · rw [matchBucket_eq hmem, hbucket]

theorem zeroSkip_spec {block skip : ℕ} (hz : idx.maxLeadingZeros = Unearth.maxLeadingZeros active)
    (h : idx.zeroSkip block = some skip) :
    0 < skip ∧ skip ≤ block ∧
      ∀ s ∈ active, s.leadingZeros < s.magic.length ∧ s.leadingZeros + skip ≤ block := by
  simp only [zeroSkip, hz, Unearth.maxLeadingZeros] at h
  by_cases hall : active.all fun sig => sig.leadingZeros < sig.magic.length
  · rw [if_pos hall] at h
    simp only at h
    split_ifs at h with hlt
    cases h
    refine ⟨by omega, by omega, fun s hs => ?_⟩
    have hle : s.leadingZeros ≤ maxOf (active.map Signature.leadingZeros) :=
      le_maxOf (List.mem_map_of_mem hs)
    have hs := List.all_eq_true.mp hall s hs
    exact ⟨by simpa using hs, by omega⟩
  · rw [if_neg hall] at h
    cases h

end SignatureIndex

theorem getElem_leadingZeros {sig : Signature} (h : sig.leadingZeros < sig.magic.length) :
    sig.magic[sig.leadingZeros] ≠ 0 := by
  have hsplit : sig.magic.takeWhile (· == 0) ++ sig.magic.dropWhile (· == 0) = sig.magic :=
    List.takeWhile_append_dropWhile
  have hne : sig.magic.dropWhile (· == 0) ≠ [] := by
    intro hnil
    rw [hnil, List.append_nil] at hsplit
    have := congrArg List.length hsplit
    simp only [Signature.leadingZeros] at h
    omega
  have hhead := List.head_dropWhile_not (· == 0) hne
  have hget : sig.magic[sig.leadingZeros] = (sig.magic.dropWhile (· == 0)).head hne := by
    have hopt : sig.magic[sig.leadingZeros]? = (sig.magic.dropWhile (· == 0)).head? := by
      conv_lhs => rw [← hsplit]
      rw [Signature.leadingZeros, List.getElem?_append_right le_rfl, Nat.sub_self,
        List.head?_eq_getElem?]
    rw [List.getElem?_eq_getElem h, List.head?_eq_some_head hne, Option.some.injEq] at hopt
    exact hopt
  rw [hget]
  simpa using hhead

/-- Nothing matches where the scan jumps over a block of zeros. -/
theorem firstMatch_zeros {active : List Signature} {block skip d : ℕ} {w : List UInt8}
    (hskip : ∀ s ∈ active, s.leadingZeros < s.magic.length ∧ s.leadingZeros + skip ≤ block)
    (hzero : (w.take block).all (· == 0)) (hd : d < skip) : firstMatch active (w.drop d) = none := by
  refine List.find?_eq_none.mpr fun s hs hm => ?_
  obtain ⟨hlt, hle⟩ := hskip s hs
  have hp := (matches_iff.mp hm).1
  have hbyte : w[d + s.leadingZeros]? = some s.magic[s.leadingZeros] := by
    obtain ⟨t, ht⟩ := hp
    rw [← List.getElem?_drop, ← ht, List.getElem?_append_left hlt, List.getElem?_eq_getElem hlt]
  have hmem : s.magic[s.leadingZeros] ∈ w.take block := by
    apply List.mem_of_getElem? (i := d + s.leadingZeros)
    rw [List.getElem?_take, if_pos (by omega), hbyte]
  have := List.all_eq_true.mp hzero _ hmem
  exact getElem_leadingZeros hlt (by simpa using this)

end Unearth
