import Unearth.Lib.Loop
import Unearth.LengthFields

/-!
# Archives that are chains of blocks

A RAR archive is a marker and a chain of blocks, the last of which says that it is the
last. Both versions walk the chain in the same way and differ in how a block is read. The
end of a block is summed from a checked addition and a plain one.
-/

namespace Unearth
open Bytes Word Loop

def MAX_RAR_BLOCKS : ℕ := 2 ^ 24

/-- How a block at a position of the file reads: whether it is the last, and its length. -/
abbrev BlockReader := Build → ℕ → Exec (Option (Bool × ℕ))

section Chain

variable (block : BlockReader) (b : Build) (fileStart limit : ℕ)

def chainBody : ℕ × ℕ → Ctl (ℕ × ℕ) (Exec (Option ℕ))
  | (i, pos) =>
    if i < MAX_RAR_BLOCKS then
      match block b pos with
      | .error f => .done (.error f)
      | .ok none => .done (.ok none)
      | .ok (some (last, len)) =>
        match checkedAdd pos len with
        | none => .done (.ok none)
        | some pos' =>
          match plus b fileStart pos' with
          | .error f => .done (.error f)
          | .ok stop =>
            if limit < stop then .done (.ok none)
            else if last then .done (.ok (some pos'))
            else .next (i + 1, pos')
    else .done (.ok none)

def chainLoop : While (ℕ × ℕ) (Exec (Option ℕ)) where
  body := chainBody block b fileStart limit
  measure p := MAX_RAR_BLOCKS - p.1
  decreases := by
    rintro ⟨i, pos⟩ ⟨i', pos'⟩ h
    simp only [chainBody] at h
    split_ifs at h with hi
    split at h <;> try cases h
    split at h <;> try cases h
    split at h <;> try cases h
    split_ifs at h
    cases h
    simp only
    omega

def chainLength (start : ℕ) : Exec (Option ℕ) := (chainLoop block b fileStart limit).eval (0, start)

end Chain

section Readers

variable (b : Build) (src : Source) (fileStart : ℕ)

/-- A number in groups of seven bits, the low group first, and the bytes it takes. -/
def readVint (pos : ℕ) : Exec (Option (ℕ × ℕ)) := go 10 0 0
where
  -- the shift is seven times the bytes read so far, and stays below 64 for ten bytes
  go : ℕ → ℕ → ℕ → Exec (Option (ℕ × ℕ))
    | 0, _, _ => return none
    | rest + 1, i, value => do
      let bytes ← src.readAt (← plus b pos i) 1
      match bytes with
      | [] => return none
      | byte :: _ =>
        let value := value ||| ((byte.toNat % 128) <<< (7 * i)) % 2 ^ 64
        if byte < 128 then return some (value, i + 1)
        else go rest (i + 1) value

/-- The seven or eleven bytes in front of a block of version 4. -/
def rar4Block (pos : ℕ) : Exec (Option (Bool × ℕ)) := do
  let bytes ← src.readAt (← plus b fileStart pos) 11
  let got := bytes.length
  let hdr := setLen bytes 11
  let flags := le (window hdr 3 2)
  let headSize := le (window hdr 5 2)
  if got < 7 ∨ headSize < 7 then return none
  else if flags &&& 0x8000 ≠ 0 ∧ got < 11 then return none
  else
    let addSize := if flags &&& 0x8000 ≠ 0 then le (window hdr 7 4) else 0
    return (checkedAdd headSize addSize).map fun len => (byteAt hdr 2 == 0x7B, len)

def vintAt (pos : ℕ) : Exec (Option (ℕ × ℕ)) := do readVint b src (← plus b fileStart pos)

/-- A number that is there when a flag says so, and else a zero that takes no bytes. -/
def vintIf (p : Prop) [Decidable p] (pos : ℕ) : Exec (Option (ℕ × ℕ)) :=
  if p then vintAt b src fileStart pos else return some (0, 0)

/-- A block of version 5: a checksum, its header and the data behind it. -/
def rar5Block (pos : ℕ) : Exec (Option (Bool × ℕ)) := do
  let crcEnd ← plus b pos 4
  let some (headerSize, hsLen) ← vintAt b src fileStart crcEnd | return none
  let headerStart ← plus b crcEnd hsLen
  let some (htype, tLen) ← vintAt b src fileStart headerStart | return none
  let typeEnd ← plus b (← plus b fileStart headerStart) tLen
  let some (flags, fLen) ← readVint b src typeEnd | return none
  let cursor ← plus b (← plus b headerStart tLen) fLen
  let some (_, eLen) ← vintIf b src fileStart (flags &&& 1 ≠ 0) cursor | return none
  let cursor ← plus b cursor eLen
  let some (dataSize, _) ← vintIf b src fileStart (flags &&& 2 ≠ 0) cursor | return none
  return (((checkedAdd 4 hsLen).bind (checkedAdd · headerSize)).bind (checkedAdd · dataSize)).map
    fun len => (htype == 5, len)

end Readers

inductive RarVersion
  | v4
  | v5
  deriving DecidableEq

def rarMarker : List UInt8 := [0x52, 0x61, 0x72, 0x21, 0x1A, 0x07]

/-- Which version the bytes behind the shared marker say. -/
def markerVersion (sig : List UInt8) : Option RarVersion :=
  if sig.length < 7 ∨ sig.take 6 ≠ rarMarker then none
  else match sig[6]?, sig[7]? with
    | some (0 : UInt8), _ => some .v4
    | some 1, some (0 : UInt8) => some .v5
    | _, _ => none

def rarReader (src : Source) (fileStart : ℕ) : RarVersion → BlockReader
  | .v4 => fun b => rar4Block b src fileStart
  | .v5 => fun b => rar5Block b src fileStart

def RarVersion.start : RarVersion → ℕ
  | .v4 => 7
  | .v5 => 8

def rarLength (b : Build) (src : Source) (fileStart limit : ℕ) : Exec (Option ℕ) := do
  let sig ← src.readAt fileStart 8
  match markerVersion sig with
  | none => return none
  | some v => chainLength (rarReader src fileStart v) b fileStart limit v.start

section Inside

variable {src : Source} {fileStart limit : ℕ} {block : BlockReader}

/-- At every block that the walk comes to, the end of the block is a word. -/
def ChainFits (block : BlockReader) (fileStart limit start : ℕ) : Prop :=
  ∀ i pos, Reaches (chainBody block .debug fileStart limit) (0, start) (i, pos) →
    i < MAX_RAR_BLOCKS → ∀ last len, block .debug pos = .ok (some (last, len)) →
      pos + len < 2 ^ 64 → fileStart + (pos + len) < 2 ^ 64

/-- What one step of the walk can do. -/
theorem chainBody_next {i pos i' pos' : ℕ} {b : Build}
    (h : chainBody block b fileStart limit (i, pos) = .next (i', pos')) :
    ∃ len, block b pos = .ok (some (false, len)) ∧ pos' = pos + len ∧ i < MAX_RAR_BLOCKS ∧
      ∃ stop, plus b fileStart pos' = .ok stop ∧ stop ≤ limit := by
  simp only [chainBody] at h
  split_ifs at h with hi
  split at h <;> try cases h
  rename_i last len hb
  split at h <;> try cases h
  rename_i p hp
  split at h <;> try cases h
  rename_i stop hs
  split_ifs at h with hlim hlast
  cases h
  rw [checkedAdd_eq_some] at hp
  obtain rfl : last = false := by simpa using hlast
  exact ⟨len, hb, hp.2.symm, hi, stop, hs, by omega⟩

theorem chainBody_some {i pos len : ℕ} {b : Build}
    (h : chainBody block b fileStart limit (i, pos) = .done (.ok (some len))) :
    ∃ l, block b pos = .ok (some (true, l)) ∧ len = pos + l ∧ i < MAX_RAR_BLOCKS ∧ len < 2 ^ 64 ∧
      ∃ stop, plus b fileStart len = .ok stop ∧ stop ≤ limit := by
  simp only [chainBody] at h
  split_ifs at h with hi
  · split at h <;> try cases h
    rename_i last l hb
    split at h <;> try cases h
    rename_i p hp
    split at h <;> try cases h
    rename_i stop hs
    split_ifs at h with hlim hlast <;> cases h
    rw [checkedAdd_eq_some] at hp
    obtain rfl : last = true := by simpa using hlast
    exact ⟨l, hb, hp.2.symm, hi, by omega, stop, hs, by omega⟩
  · cases h

section Walk

variable {start : ℕ} (hblock : ∀ pos, fileStart + pos < 2 ^ 63 + 16 → Steady (block · pos))
  (hstart : fileStart + start < 2 ^ 63 + 16) (hlimit : limit < 2 ^ 63)

include hstart hlimit in
theorem chain_pos_lt {i pos : ℕ}
    (h : Reaches (chainBody block .debug fileStart limit) (0, start) (i, pos)) :
    fileStart + pos < 2 ^ 63 + 16 ∧ start ≤ pos := by
  have hstep : ∀ s t : ℕ × ℕ, fileStart + s.2 < 2 ^ 63 + 16 ∧ start ≤ s.2 →
      chainBody block .debug fileStart limit s = .next t →
        fileStart + t.2 < 2 ^ 63 + 16 ∧ start ≤ t.2 := by
    rintro ⟨i, pos⟩ ⟨i', pos'⟩ ⟨hlt, hle⟩ hb
    obtain ⟨len, -, rfl, -, stop, hs, hstop⟩ := chainBody_next hb
    simp only at hlt hle ⊢
    by_cases hsum : fileStart + (pos + len) < 2 ^ 64
    · rw [plus_eq hsum] at hs
      cases hs
      omega
    · rw [plus_debug (by omega)] at hs
      cases hs
  exact Reaches.inv hstep h ⟨hstart, le_rfl⟩

include hblock hstart hlimit in
/-- Where every block end is a word, every build takes the same step. -/
theorem chainBody_same (hfits : ChainFits block fileStart limit start) {s : ℕ × ℕ}
    (h : Reaches (chainBody block .debug fileStart limit) (0, start) s) (b : Build) :
    chainBody block b fileStart limit s = chainBody block .debug fileStart limit s ∧
      chainBody block .debug fileStart limit s ≠ .done (.error .overflow) := by
  obtain ⟨i, pos⟩ := s
  have hb := hblock pos (chain_pos_lt hstart hlimit h).1
  simp only [chainBody, hb.same b]
  split_ifs with hi
  · cases hd : block .debug pos with
    | error f =>
      refine ⟨rfl, fun he => hb.no_overflow ?_⟩
      cases he
      exact hd
    | ok o =>
      match o with
      | none => simp
      | some (last, len) =>
        simp only
        cases hp : checkedAdd pos len with
        | none => simp
        | some pos' =>
          rw [checkedAdd_eq_some] at hp
          obtain ⟨hlt, rfl⟩ := hp
          have hfit := hfits i pos h hi last len hd hlt
          simp only [plus_eq hfit, true_and]
          split_ifs <;> simp
  · simp

include hblock hstart hlimit in
/-- The walk stays inside exactly when the end of every block it comes to is a word. -/
theorem inside_chain_iff (hpos : 0 < start) :
    Inside fileStart limit (fun b => chainLength block b fileStart limit start) ↔
      ChainFits block fileStart limit start := by
  constructor
  · rintro ⟨hover, -⟩ i pos hr hi last len hb hlt
    by_contra hge
    apply hover
    have hbody : (chainLoop block .debug fileStart limit).body (i, pos) =
        .done (.error .overflow) := by
      have hp : checkedAdd pos len = some (pos + len) := checkedAdd_eq_some.mpr ⟨hlt, rfl⟩
      simp only [chainLoop, chainBody, if_pos hi, hb, hp]
      rw [plus_debug (by omega)]
    simp only [chainLength]
    rw [While.eval_of_reaches _ hr, While.eval_done _ hbody]
  · intro hfits
    have hsame : ∀ b, chainLength block b fileStart limit start =
        chainLength block .debug fileStart limit start := fun b =>
      While.eval_congr fun s hs => (chainBody_same hblock hstart hlimit hfits hs b).1
    obtain ⟨⟨i, pos⟩, hr, hd⟩ :=
      (chainLoop block .debug fileStart limit).exists_reaches_done (0, start)
    constructor
    · intro he
      apply (chainBody_same hblock hstart hlimit hfits hr .debug).2
      exact hd.trans (congrArg Ctl.done he)
    · intro b len hlen
      have heval : (chainLoop block .debug fileStart limit).eval (0, start) = .ok (some len) :=
        (hsame b).symm.trans hlen
      rw [heval] at hd
      obtain ⟨l, -, rfl, -, -, stop, hs, hstop⟩ := chainBody_some hd
      have hle := (chain_pos_lt hstart hlimit hr).2
      by_cases hsum : fileStart + (pos + l) < 2 ^ 64
      · rw [plus_eq hsum] at hs
        cases hs
        exact ⟨by omega, hstop⟩
      · rw [plus_debug (by omega)] at hs
        cases hs

end Walk

/-- The bytes of a number are at most ten. -/
theorem readVint_steady {pos : ℕ} (h : pos + 10 ≤ 2 ^ 64) :
    (Steady fun b => readVint b src pos) ∧
      ∀ b v n, readVint b src pos = .ok (some (v, n)) → n ≤ 10 := by
  have hgo (rest i value : ℕ) (hi : i + rest ≤ 10) :
      (Steady fun b => readVint.go b src pos rest i value) ∧
        ∀ b v n, readVint.go b src pos rest i value = .ok (some (v, n)) → n ≤ 10 := by
    induction rest generalizing i value with
    | zero =>
      refine ⟨.ok none, fun b v n hn => ?_⟩
      cases hn
    | succ rest ih =>
      have hplus : ∀ b, plus b pos i = .ok (pos + i) := fun b => plus_eq (by omega)
      simp only [readVint.go, hplus]
      constructor
      · refine .bind (.ok _) fun a _ => .bind (src.steady_readAt a 1) fun bytes _ => ?_
        cases bytes with
        | nil => exact .ok none
        | cons byte _ =>
          refine .ite (fun _ => .ok _) fun _ => ?_
          exact (ih (i + 1) _ (by omega)).1
      · intro b v n hn
        obtain ⟨a, -, hn⟩ := exec_bind_ok hn
        obtain ⟨bytes, -, hn⟩ := exec_bind_ok hn
        cases bytes with
        | nil => cases hn
        | cons byte _ =>
          simp only at hn
          split_ifs at hn
          · cases hn
            omega
          · exact (ih (i + 1) _ (by omega)).2 b v n hn
  exact hgo 10 0 0 (by omega)

theorem rar4Block_steady {pos : ℕ} (h : fileStart + pos < 2 ^ 63 + 16) :
    Steady fun b => rar4Block b src fileStart pos := by
  refine .bind (.plus (by omega)) fun a _ => .bind (src.steady_readAt a 11) fun bytes _ => ?_
  refine .ite (fun _ => .ok _) fun _ => .ite (fun _ => .ok _) fun _ => .ok _

theorem vintAt_steady {pos : ℕ} (h : fileStart + pos + 10 ≤ 2 ^ 64) :
    (Steady fun b => vintAt b src fileStart pos) ∧
      ∀ b v n, vintAt b src fileStart pos = .ok (some (v, n)) → n ≤ 10 := by
  have hplus : ∀ b, plus b fileStart pos = .ok (fileStart + pos) := fun b => plus_eq (by omega)
  simp only [vintAt, hplus]
  exact readVint_steady h

theorem vintIf_steady {p : Prop} [Decidable p] {pos : ℕ} (h : fileStart + pos + 10 ≤ 2 ^ 64) :
    (Steady fun b => vintIf b src fileStart p pos) ∧
      ∀ b v n, vintIf b src fileStart p pos = .ok (some (v, n)) → n ≤ 10 := by
  unfold vintIf
  split_ifs
  · exact vintAt_steady h
  · refine ⟨.ok _, fun b v n hn => ?_⟩
    cases hn
    omega

theorem rar5Block_steady {pos : ℕ} (h : fileStart + pos < 2 ^ 63 + 16) :
    Steady fun b => rar5Block b src fileStart pos := by
  refine .plus_bind (by omega) ?_
  have h₁ := @vintAt_steady src fileStart (pos + 4) (by omega)
  refine .bind h₁.1 fun o ho => ?_
  match o, ho with
  | none, _ => exact .ok none
  | some (headerSize, hsLen), ho =>
  have hs := h₁.2 _ _ _ ho
  refine .plus_bind (by omega) ?_
  have h₂ := @vintAt_steady src fileStart (pos + 4 + hsLen) (by omega)
  refine .bind h₂.1 fun o ho => ?_
  match o, ho with
  | none, _ => exact .ok none
  | some (htype, tLen), ho =>
  have ht := h₂.2 _ _ _ ho
  refine .plus_bind (by omega) (.plus_bind (by omega) ?_)
  have h₃ := @readVint_steady src (fileStart + (pos + 4 + hsLen) + tLen) (by omega)
  refine .bind h₃.1 fun o ho => ?_
  match o, ho with
  | none, _ => exact .ok none
  | some (flags, fLen), ho =>
  have hf := h₃.2 _ _ _ ho
  refine .plus_bind (by omega) (.plus_bind (by omega) ?_)
  have h₄ := @vintIf_steady src fileStart (flags &&& 1 ≠ 0) _ (pos + 4 + hsLen + tLen + fLen)
    (by omega)
  refine .bind h₄.1 fun o ho => ?_
  match o, ho with
  | none, _ => exact .ok none
  | some (_, eLen), ho =>
  have he := h₄.2 _ _ _ ho
  refine .plus_bind (by omega) (.bind (vintIf_steady (by omega)).1 fun o _ => ?_)
  match o with
  | none => exact .ok none
  | some (dataSize, _) => exact .ok _

theorem rar4Block_len {pos len : ℕ} {b : Build} {last : Bool}
    (h : rar4Block b src fileStart pos = .ok (some (last, len))) : len < 2 ^ 33 := by
  obtain ⟨a, -, h⟩ := exec_bind_ok h
  obtain ⟨bytes, -, h⟩ := exec_bind_ok h
  have hhead := le_window_lt (setLen bytes 11) 5 2
  have hadd := le_window_lt (setLen bytes 11) 7 4
  simp only at h
  split_ifs at h
  · cases h
  · cases h
  all_goals
    simp only [pure, Except.pure, Except.ok.injEq, Option.map_eq_some_iff, checkedAdd_eq_some,
      Prod.mk.injEq] at h
    obtain ⟨n, ⟨-, rfl⟩, -, rfl⟩ := h
    omega

/-- The blocks of version 4 are too short for a sum to overflow. -/
theorem rar4_fits (hstart : fileStart + 7 < 2 ^ 63 + 16) (hlimit : limit < 2 ^ 63) :
    ChainFits (rarReader src fileStart .v4) fileStart limit 7 := by
  intro i pos hr _ last len hb _
  have hpos := (chain_pos_lt hstart hlimit hr).1
  have hlen := rar4Block_len hb
  omega

theorem rarReader_steady {v : RarVersion} {pos : ℕ} (h : fileStart + pos < 2 ^ 63 + 16) :
    Steady (rarReader src fileStart v · pos) := by
  cases v with
  | v4 => exact rar4Block_steady h
  | v5 => exact rar5Block_steady h

/-- A RAR archive stays inside exactly when every block of version 5 that the walk comes to
ends below the largest word. -/
theorem inside_rarLength_iff (hstart : fileStart < 2 ^ 63) (hlimit : limit < 2 ^ 63) :
    Inside fileStart limit (fun b => rarLength b src fileStart limit) ↔
      ∀ sig, src.readAt fileStart 8 = .ok sig → markerVersion sig = some .v5 →
        ChainFits (rarReader src fileStart .v5) fileStart limit 8 := by
  unfold rarLength
  rw [inside_bind (src.steady_readAt fileStart 8)]
  refine forall₂_congr fun sig _ => ?_
  cases hv : markerVersion sig with
  | none => exact iff_of_true inside_none (by simp)
  | some v =>
    have hiff : Inside fileStart limit
        (fun b => chainLength (rarReader src fileStart v) b fileStart limit v.start) ↔
        ChainFits (rarReader src fileStart v) fileStart limit v.start := by
      apply inside_chain_iff (fun pos hp => rarReader_steady hp)
      · cases v <;> simp only [RarVersion.start] <;> omega
      · exact hlimit
      · cases v <;> decide
    rw [hiff]
    cases v with
    | v4 => exact iff_of_true (rar4_fits (by omega) hlimit) (by simp)
    | v5 => simp only [forall_const, RarVersion.start]

end Inside

end Unearth
