import Unearth.Custom

/-!
# A scan with types described at run time

The scan is sound when its buffer is one that can be allocated, when the field of a stated
size lies where a header can be read, and when the bytes that may follow a footer do not
reach beyond a word. The checks of a description promise none of the three.
-/

namespace Unearth.Custom
open Lines Bytes Word Loop

theorem except_bind_ok {α β : Type} {x : Except Text α} {f : α → Except Text β} {r : β}
    (h : x >>= f = .ok r) : ∃ a, x = .ok a ∧ f a = .ok r := by
  cases x with
  | error e => cases h
  | ok a => exact ⟨a, rfl, h⟩

section Checks

variable {item : Json}

theorem validateExt_ok {ext : Text} (h : validateExt ext = .ok ()) :
    ext ≠ [] ∧ ∀ c ∈ ext, extChar c = true := by
  unfold validateExt at h
  split_ifs at h with hlen hall
  rw [not_or] at hlen
  exact ⟨hlen.1, List.all_eq_true.mp hall⟩

theorem parseMagic_ok {magic : List UInt8} (h : parseMagic item = .ok magic) : magic ≠ [] := by
  obtain ⟨s, -, h⟩ := except_bind_ok h
  obtain ⟨bytes, -, h⟩ := except_bind_ok h
  split_ifs at h with hne
  cases h
  exact hne

theorem parseMaxSize_ok {maxSize : ℕ} (h : parseMaxSize item = .ok maxSize) :
    0 < maxSize ∧ maxSize ≤ 2 ^ 40 := by
  obtain ⟨n, -, h⟩ := except_bind_ok h
  split_ifs at h with hcap
  cases h
  have hval : MAX_SIZE_CAP = 2 ^ 40 := rfl
  omega

theorem okOr_ok {α : Type} {o : Option α} {message : String} {a : α} (h : okOr o message = .ok a) :
    o = some a := by
  cases o with
  | none => cases h
  | some a' =>
    cases h
    rfl

theorem optU64_lt {obj : Json} {key : String} {n : ℕ} (h : optU64 obj key = some n) : n < 2 ^ 64 := by
  obtain ⟨j, -, hj⟩ := Option.bind_eq_some_iff.mp h
  exact Json.asU64_lt hj

theorem parseSecondary_ok {sec : Option Json} {secondary : Option (ℕ × List UInt8)}
    (h : parseSecondary sec = .ok secondary) : ∀ p ∈ secondary, p.1 < 2 ^ 64 := by
  cases sec with
  | none =>
    cases h
    intro p hp
    cases hp
  | some sec =>
    obtain ⟨offset, hoffset, h⟩ := except_bind_ok h
    obtain ⟨s, -, h⟩ := except_bind_ok h
    obtain ⟨bytes, -, h⟩ := except_bind_ok h
    split_ifs at h
    cases h
    intro p hp
    cases hp
    exact optU64_lt (okOr_ok hoffset)

/-- What is checked of a description is what every type has. -/
theorem parse_wellFormed {spec : Spec} (h : Spec.parse item = .ok spec) :
    WellFormed spec.ext spec.magic spec.magicOffset spec.secondary spec.maxSize := by
  obtain ⟨name, -, h⟩ := except_bind_ok h
  obtain ⟨ext, -, h⟩ := except_bind_ok h
  obtain ⟨u, hext, h⟩ := except_bind_ok h
  obtain ⟨magic, hmagic, h⟩ := except_bind_ok h
  obtain ⟨maxSize, hmax, h⟩ := except_bind_ok h
  obtain ⟨secondary, hsec, h⟩ := except_bind_ok h
  obtain ⟨l, -, h⟩ := except_bind_ok h
  obtain ⟨length, -, h⟩ := except_bind_ok h
  cases h
  obtain ⟨hne, hchars⟩ := validateExt_ok hext
  obtain ⟨hpos, hcap⟩ := parseMaxSize_ok hmax
  refine ⟨hne, hchars, parseMagic_ok hmagic, ?_, parseSecondary_ok hsec, hpos, hcap⟩
  simp only
  cases ho : optU64 item "magic_offset" with
  | none => exact Nat.two_pow_pos 64
  | some n => exact optU64_lt ho

end Checks

/-- A description that was accepted. -/
def Accepted : Type := { spec : Spec // ∃ item, Spec.parse item = .ok spec }

def Length.toExtent : Length → Extent
  | .fixed size => .fixed size
  | .sizeField offset width bigEndian mul add => .sizeField offset width bigEndian mul add
  | .footer marker trailing => .footer marker trailing

def Accepted.toSignature (s : Accepted) : Signature where
  ext := s.1.ext
  magic := s.1.magic
  magicOffset := s.1.magicOffset
  secondary := s.1.secondary
  extent := s.1.length.toExtent
  maxSize := s.1.maxSize
  wellFormed := s.2.elim fun _ h => parse_wellFormed h

/-- The other strategies as they come, with the search for a footer. -/
def withFooter (walk : Walker) (bufLen : ℕ) : Walker := fun b src extent fileStart limit =>
  match extent with
  | .footer marker trailing => findFooter b src fileStart marker trailing limit bufLen
  | extent => walk b src extent fileStart limit

/-- The types of a scan: some built-in ones and the ones that were described. -/
def scanTypes (types : List Signature) (specs : List Accepted) : List Signature :=
  types ++ specs.map Accepted.toSignature

/-- The scan comes to its buffer and to the end of every match in every build, and the
length of a described type stays in its cap and in the window. -/
structure ScanSound (types : List Signature) (specs : List Accepted) : Prop where
  scanner : ∀ b, ∃ sc, Scanner.build b (scanTypes types specs) SCAN_CHUNK = .ok sc ∧
    ∀ w, ∃ o, sc.index.matchAt b w = .ok o
  lengths : ∀ s ∈ specs, ∀ walk bufLen b src fileStart scanEnd, fileStart < scanEnd →
    scanEnd ≤ src.size →
    match fileLength (withFooter walk bufLen) b src s.toSignature fileStart scanEnd with
    | .error f => f = .io
    | .ok none => True
    | .ok (some len) => len ≤ min s.1.maxSize (scanEnd - fileStart)

/-- The bytes that a rule for the length asks for are ones that can be had. -/
def Length.Fits (maxSize : ℕ) : Length → Prop
  | .fixed _ => True
  | .sizeField offset width _ _ _ => offset + width / 8 < 2 ^ 63 ∨ 2 ^ 64 ≤ offset + width / 8
  | .footer marker trailing => marker.length ≤ maxSize → trailing ≤ 2 ^ 63

section Lengths

variable {b : Build} {src : Source} {fileStart limit : ℕ}

theorem fixedLength_sound (hlimit : limit < 2 ^ 63) (size : ℕ) :
    Sound fileStart limit (.ok (fixedLength fileStart limit size)) := by
  unfold fixedLength
  split_ifs with h
  · trivial
  · rw [not_or, not_lt, satAdd] at h
    change fileStart + size ≤ limit
    omega

theorem sizefieldLength_sound (hlimit : limit < 2 ^ 63) {offset width : ℕ} (bigEndian : Bool)
    (mul add : ℕ) (hfit : offset + width / 8 < 2 ^ 63 ∨ 2 ^ 64 ≤ offset + width / 8) :
    Sound fileStart limit (sizefieldLength src fileStart limit offset width bigEndian mul add) := by
  unfold sizefieldLength
  dsimp only
  cases hneed : checkedAdd offset (width / 8) with
  | none => trivial
  | some need =>
    obtain ⟨hword, rfl⟩ := checkedAdd_eq_some.mp hneed
    dsimp only
    rw [if_neg (by omega)]
    cases hread : src.readAt fileStart (offset + width / 8) with
    | error f => exact Source.readAt_error hread
    | ok tmp =>
      change Sound fileStart limit (if tmp.length < offset + width / 8 then _ else _)
      split_ifs
      · trivial
      · cases (checkedMul (readUint (window tmp offset (width / 8)) bigEndian) mul).bind
            (checkedAdd · add) with
        | none => trivial
        | some size =>
          change Sound fileStart limit
            (.ok (if size = 0 ∨ limit < satAdd fileStart size then none else some size))
          exact fixedLength_sound hlimit size

/-- A field whose end is no size of a buffer. -/
theorem sizefieldLength_capacity {offset width : ℕ} (bigEndian : Bool) (mul add : ℕ)
    (hlo : 2 ^ 63 ≤ offset + width / 8) (hhi : offset + width / 8 < 2 ^ 64) :
    sizefieldLength src fileStart limit offset width bigEndian mul add = .error .capacity := by
  have hneed : checkedAdd offset (width / 8) = some (offset + width / 8) :=
    checkedAdd_eq_some.mpr ⟨hhi, rfl⟩
  unfold sizefieldLength
  dsimp only
  rw [hneed]
  dsimp only
  rw [if_pos hlo]
  rfl

/-- A source that ends with the marker, as far behind its start as a file can end. -/
def farSource (marker : List UInt8) (h : marker.length < 2 ^ 63) : Source where
  data := List.replicate (2 ^ 63 - 1 - marker.length) 0 ++ marker
  size_lt := by
    rw [List.length_append, List.length_replicate]
    omega

theorem findFooter_overflow {marker : List UInt8} (hne : marker ≠ []) (hlen : marker.length < 2 ^ 63)
    {trailing : ℕ} (htrail : 2 ^ 63 < trailing) (bufLen : ℕ) :
    findFooter .debug (farSource marker hlen) (2 ^ 63 - 1 - marker.length) marker trailing (2 ^ 63 - 1)
      bufLen = .error .overflow := by
  have hpos := List.length_pos_of_ne_nil hne
  have hwindow : footerWindow = 1024 * 1024 := rfl
  have hoverlap : footerOverlap marker = marker.length - 1 := rfl
  have hwant : min (2 ^ 63 - 1 - (2 ^ 63 - 1 - marker.length)) (footerWindow + footerOverlap marker) =
      marker.length := by omega
  have hread : (farSource marker hlen).readAt (2 ^ 63 - 1 - marker.length) marker.length = .ok marker := by
    have hreliable : (farSource marker hlen).Reliable := fun _ _ => rfl
    rw [hreliable.readAt (by omega)]
    simp [farSource, window]
  have hend : footerEnd .debug (farSource marker hlen) (2 ^ 63 - 1 - marker.length) marker trailing
      (2 ^ 63 - 1) (2 ^ 63 - 1 - marker.length) marker 0 = .error .overflow := by
    unfold footerEnd
    rw [plus_eq (by omega)]
    change plus .debug (2 ^ 63 - 1 - marker.length + 0) marker.length >>= _ = _
    rw [plus_eq (by omega), show 2 ^ 63 - 1 - marker.length + 0 + marker.length = 2 ^ 63 - 1 by omega]
    change (trailLoop .debug (farSource marker hlen) trailing (2 ^ 63 - 1) (2 ^ 63 - 1 - marker.length)
      marker (2 ^ 63 - 1)).eval (2 ^ 63 - 1) >>= _ = _
    rw [While.eval_done _ (r := .error .overflow)]
    · rfl
    · simp only [trailLoop, trailBody]
      rw [plus_debug (by omega)]
  unfold findFooter
  rw [minus_eq (by omega)]
  change (footerLoop .debug (farSource marker hlen) _ marker trailing _ _).eval _ = _
  apply While.eval_done
  simp only [footerLoop, footerBody, hwant]
  rw [if_neg (by omega), if_neg (by omega), hread]
  dsimp only
  rw [if_neg hne, findSubsequence_self hne]
  dsimp only
  rw [hend]

theorem fileLength_eq {walk : Walker} {bufLen scanEnd : ℕ} (s : Accepted) (hstart : fileStart < scanEnd)
    (hend : scanEnd ≤ src.size) :
    fileLength (withFooter walk bufLen) b src s.toSignature fileStart scanEnd =
      extentLength (withFooter walk bufLen) b src fileStart (min (fileStart + s.1.maxSize) scanEnd)
        s.1.length.toExtent := by
  have hsize : src.size < 2 ^ 63 := src.size_lt
  have hmax : s.1.maxSize ≤ 2 ^ 40 := s.toSignature.wellFormed.maxSize_le
  unfold fileLength
  rw [plus_eq (show fileStart + s.toSignature.maxSize < 2 ^ 64 by
    change fileStart + s.1.maxSize < 2 ^ 64
    omega)]
  rfl

/-- The rule for the length keeps to the window, when it fits. -/
theorem length_sound {walk : Walker} {bufLen scanEnd : ℕ} (s : Accepted) (hstart : fileStart < scanEnd)
    (hend : scanEnd ≤ src.size) (hfit : s.1.length.Fits s.1.maxSize) :
    Sound fileStart (min (fileStart + s.1.maxSize) scanEnd)
      (fileLength (withFooter walk bufLen) b src s.toSignature fileStart scanEnd) := by
  have hsize : src.size < 2 ^ 63 := src.size_lt
  have hpos : 0 < s.1.maxSize := s.toSignature.wellFormed.maxSize_pos
  have hlimit : min (fileStart + s.1.maxSize) scanEnd < 2 ^ 63 := by omega
  rw [fileLength_eq s hstart hend]
  cases hl : s.1.length with
  | fixed size => exact fixedLength_sound hlimit size
  | sizeField offset width bigEndian mul add =>
    rw [hl] at hfit
    exact sizefieldLength_sound hlimit bigEndian mul add hfit
  | footer marker trailing =>
    rw [hl] at hfit
    apply findFooter_sound bufLen (by omega) hlimit
    intro hroom
    exact hfit (by omega)

end Lengths

theorem parseLength_marker {l : Json} {marker : List UInt8} {trailing : ℕ}
    (h : parseLength l = .ok (.footer marker trailing)) : marker ≠ [] := by
  obtain ⟨strategy, -, h⟩ := except_bind_ok h
  split_ifs at h
  · obtain ⟨size, -, h⟩ := except_bind_ok h
    split_ifs at h
    cases h
  · obtain ⟨offset, -, h⟩ := except_bind_ok h
    obtain ⟨width, -, h⟩ := except_bind_ok h
    split_ifs at h
    obtain ⟨bigEndian, -, h⟩ := except_bind_ok h
    dsimp only at h
    split_ifs at h
    cases h
  · obtain ⟨s, -, h⟩ := except_bind_ok h
    obtain ⟨bytes, -, h⟩ := except_bind_ok h
    split_ifs at h with hne
    cases h
    exact hne

theorem Accepted.marker_ne (s : Accepted) {marker : List UInt8} {trailing : ℕ}
    (h : s.1.length = .footer marker trailing) : marker ≠ [] := by
  obtain ⟨spec, item, hparse⟩ := s
  obtain ⟨_, -, hparse⟩ := except_bind_ok hparse
  obtain ⟨_, -, hparse⟩ := except_bind_ok hparse
  obtain ⟨_, -, hparse⟩ := except_bind_ok hparse
  obtain ⟨_, -, hparse⟩ := except_bind_ok hparse
  obtain ⟨_, -, hparse⟩ := except_bind_ok hparse
  obtain ⟨_, -, hparse⟩ := except_bind_ok hparse
  obtain ⟨l, -, hparse⟩ := except_bind_ok hparse
  obtain ⟨length, hlength, hparse⟩ := except_bind_ok hparse
  cases hparse
  obtain rfl : length = .footer marker trailing := h
  exact parseLength_marker hlength

/-- A scan with described types is sound exactly when its buffer can be allocated and the
rules for the lengths fit. -/
theorem scan_sound_iff {types : List Signature} {specs : List Accepted} :
    ScanSound types specs ↔ bufferNeed (scanTypes types specs) SCAN_CHUNK < 2 ^ 63 ∧
      ∀ s ∈ specs, s.1.length.Fits s.1.maxSize := by
  constructor
  · intro h
    constructor
    · obtain ⟨sc, hb, -⟩ := h.scanner .debug
      exact Scanner.build_fits (.inl rfl) hb
    · intro s hs
      have hmax : s.1.maxSize ≤ 2 ^ 40 := s.toSignature.wellFormed.maxSize_le
      have hpos : 0 < s.1.maxSize := s.toSignature.wellFormed.maxSize_pos
      cases hl : s.1.length with
      | fixed size => trivial
      | sizeField offset width bigEndian mul add =>
        by_contra hnot
        unfold Length.Fits at hnot
        rw [not_or] at hnot
        have hone := h.lengths s hs (fun _ _ _ _ _ => .ok none) 0 .debug ⟨[0], by decide, fun _ _ => false⟩
          0 1 Nat.one_pos le_rfl
        rw [fileLength_eq s Nat.one_pos le_rfl, hl] at hone
        simp only [Length.toExtent, extentLength] at hone
        rw [sizefieldLength_capacity bigEndian mul add (by omega) (by omega)] at hone
        cases hone
      | footer marker trailing =>
        intro hle
        by_contra hnot
        have hlen : marker.length < 2 ^ 63 := by omega
        have hsize : (farSource marker hlen).size = 2 ^ 63 - 1 := by
          simp only [Source.size, farSource, List.length_append, List.length_replicate]
          omega
        have hmarker := s.marker_ne hl
        have hmpos := List.length_pos_of_ne_nil hmarker
        have hfar := h.lengths s hs (fun _ _ _ _ _ => .ok none) 0 .debug (farSource marker hlen)
          (2 ^ 63 - 1 - marker.length) (2 ^ 63 - 1) (by omega) hsize.ge
        rw [fileLength_eq s (by omega) hsize.ge, hl] at hfar
        simp only [Length.toExtent, extentLength, withFooter] at hfar
        rw [show min (2 ^ 63 - 1 - marker.length + s.1.maxSize) (2 ^ 63 - 1) = 2 ^ 63 - 1 by omega,
          findFooter_overflow hmarker hlen (by omega)] at hfar
        cases hfar
  · rintro ⟨hneed, hfits⟩
    constructor
    · intro b
      obtain ⟨sc, hb, hsc⟩ := @Scanner.build_scans b _ _ hneed
      refine ⟨sc, hb, fun w => ?_⟩
      exact ⟨_, SignatureIndex.matchAt_eq hsc.indexes hsc.reach_lt w⟩
    · intro s hs walk bufLen b src fileStart scanEnd hstart hend
      have hsound := @length_sound b src fileStart walk bufLen scanEnd s hstart hend (hfits s hs)
      cases hr : fileLength (withFooter walk bufLen) b src s.toSignature fileStart scanEnd with
      | error f =>
        rw [hr] at hsound
        exact hsound
      | ok o =>
        rw [hr] at hsound
        cases o with
        | none => trivial
        | some len =>
          have hle : fileStart + len ≤ min (fileStart + s.1.maxSize) scanEnd := hsound
          change len ≤ min s.1.maxSize (scanEnd - fileStart)
          omega

/-- A description with a second tag as far from the magic as a word can say. -/
def farTagItem : Json := .obj [
  ("name".toList, .str "Far".toList),
  ("ext".toList, .str "far".toList),
  ("magic".toList, .str "41".toList),
  ("max_size".toList, .num (some 16)),
  ("secondary".toList, .obj [("offset".toList, .num (some (2 ^ 64))), ("bytes".toList, .str "42".toList)]),
  ("length".toList, .obj [("strategy".toList, .str "fixed".toList), ("size".toList, .num (some 4))])]

def farTagSpec : Spec where
  name := "Far".toList
  ext := "far".toList
  magic := [0x41]
  magicOffset := 0
  secondary := some (2 ^ 64 - 1, [0x42])
  maxSize := 16
  length := .fixed 4

/-- The description is accepted, and the index of its type overflows. -/
theorem far_tag_breaks : ∃ h : ∃ item, Spec.parse item = .ok farTagSpec,
    Spec.parse farTagItem = .ok farTagSpec ∧
    Scanner.build .debug (scanTypes [] [⟨farTagSpec, h⟩]) SCAN_CHUNK = .error .overflow ∧
    ¬ ScanSound [] [⟨farTagSpec, h⟩] := by
  have hparse : Spec.parse farTagItem = .ok farTagSpec := rfl
  have hbuild : Scanner.build .debug (scanTypes [] [⟨farTagSpec, ⟨farTagItem, hparse⟩⟩]) SCAN_CHUNK =
      .error .overflow := rfl
  refine ⟨⟨farTagItem, hparse⟩, hparse, hbuild, fun hs => ?_⟩
  obtain ⟨sc, hb, -⟩ := hs.scanner .debug
  rw [hbuild] at hb
  cases hb

end Unearth.Custom
