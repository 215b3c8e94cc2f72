import Unearth.Lib.Loop
import Unearth.ExfatVolume
import Unearth.FatVolume
import Unearth.FreeWalk

/-!
# Putting a file back together out of free clusters

The clusters of a deleted file are copied in the order of the walk over the free ones. A
check of the contents may pass a cluster over; it is a parameter here, as is the place of a
cluster in the source, which the volumes compute in their own ways.
-/

namespace Unearth.Reassembly
open Bytes Word Loop

/-- A copy under way. The clusters whose bytes have been written are kept beside them. -/
structure Copy (σ : Type) where
  walk : FreeWalk
  cluster : Option ℕ
  remaining : ℕ
  jpeg : Option σ
  tries : ℕ
  written : ℕ
  out : List UInt8
  used : List ℕ

/-- What is left behind by a copy, which may have failed on its way. -/
structure CopyResult where
  used : List ℕ
  out : List UInt8
  result : Exec ℕ

inductive Verdict (σ : Type)
  | write (jpeg : Option σ)
  | retry

namespace Copy

variable {σ : Type}

def maxTries : ℕ := 4096

section Body

variable (b : Build) (src : Source) (offset : ℕ → Exec ℕ) (clusterBytes size : ℕ) (hasMap : Bool)
  (accept : σ → List UInt8 → Option σ)

def readCluster (c want : ℕ) : Exec (List UInt8) := do src.readAt (← offset c) want

/-- What the check of the contents makes of the bytes of a cluster. -/
def judge (s : Copy σ) (data : List UInt8) : Verdict σ :=
  match s.jpeg with
  | none => .write none
  | some state =>
    match accept state data with
    | some next => .write (some next)
    | none =>
      if s.written = 0 then .write none
      else if hasMap && s.tries < maxTries then .retry
      else .write none

def leave (s : Copy σ) (result : Exec Unit) : CopyResult :=
  ⟨s.used, s.out, result.map fun _ => size - s.remaining⟩

def go (s : Copy σ) (c : ℕ) (canWrap : Bool) : Ctl (Copy σ) CopyResult :=
  match s.walk.nextAfter b c canWrap with
  | .error e => .done (s.leave size (.error e))
  | .ok (cluster, walk) => .next { s with cluster, walk }

def write (s : Copy σ) (c : ℕ) (data : List UInt8) (jpeg : Option σ) : Copy σ :=
  { s with
    jpeg
    tries := 0
    remaining := s.remaining - data.length
    written := s.written + data.length
    out := s.out ++ data
    used := s.used ++ [c] }

def body (s : Copy σ) : Ctl (Copy σ) CopyResult :=
  if s.remaining = 0 then .done (s.leave size (.ok ()))
  else
    match s.cluster with
    | none => .done (s.leave size (.ok ()))
    | some c =>
      match readCluster src offset c (min s.remaining clusterBytes) with
      | .error e => .done (s.leave size (.error e))
      | .ok data =>
        if data = [] then .done (s.leave size (.ok ()))
        else
          match s.judge hasMap accept data with
          | .retry => { s with tries := s.tries + 1 }.go b size c true
          | .write jpeg => (s.write c data jpeg).go b size c hasMap

end Body

section Loop

variable {b : Build} {src : Source} {offset : ℕ → Exec ℕ} {clusterBytes size : ℕ} {hasMap : Bool}
  {accept : σ → List UInt8 → Option σ}

/-- How far the walk of a copy has still to go. -/
def left (s : Copy σ) : ℕ :=
  match s.cluster with
  | none => 0
  | some c => s.walk.left c + 1

theorem go_next {s s' : Copy σ} {c : ℕ} {canWrap : Bool} (h : s.go b size c canWrap = .next s') :
    ∃ cluster walk, s.walk.nextAfter b c canWrap = .ok (cluster, walk) ∧
      s' = { s with cluster, walk } := by
  unfold go at h
  split at h
  · cases h
  · rename_i cluster walk hnext
    cases h
    exact ⟨cluster, walk, hnext, rfl⟩

theorem left_go {s s' : Copy σ} {c : ℕ} {canWrap : Bool} (h : s.go b size c canWrap = .next s') :
    s'.left < s.walk.left c + 1 := by
  obtain ⟨cluster, walk, hnext, rfl⟩ := go_next h
  cases cluster with
  | none => exact Nat.succ_pos _
  | some c' => exact Nat.succ_lt_succ (FreeWalk.left_lt hnext)

/-- A further round has read a cluster, and has written it or passed it over. -/
theorem body_next {s s' : Copy σ}
    (h : body b src offset clusterBytes size hasMap accept s = .next s') :
    0 < s.remaining ∧ ∃ c data, s.cluster = some c ∧
      readCluster src offset c (min s.remaining clusterBytes) = .ok data ∧ data ≠ [] ∧
      ((s.judge hasMap accept data = .retry ∧
          { s with tries := s.tries + 1 }.go b size c true = .next s') ∨
        ∃ jpeg, s.judge hasMap accept data = .write jpeg ∧
          (s.write c data jpeg).go b size c hasMap = .next s') := by
  unfold body at h
  split at h
  · cases h
  · rename_i hremaining
    refine ⟨Nat.pos_of_ne_zero hremaining, ?_⟩
    split at h
    · cases h
    · rename_i c hc
      split at h
      · cases h
      · rename_i data hread
        split at h
        · cases h
        · rename_i hdata
          refine ⟨c, data, hc, hread, hdata, ?_⟩
          split at h
          · rename_i hjudge
            exact .inl ⟨hjudge, h⟩
          · rename_i jpeg hjudge
            exact .inr ⟨jpeg, hjudge, h⟩

theorem left_body {s s' : Copy σ}
    (h : body b src offset clusterBytes size hasMap accept s = .next s') : s'.left < s.left := by
  obtain ⟨-, c, data, hc, -, -, ⟨-, hgo⟩ | ⟨jpeg, -, hgo⟩⟩ := body_next h
  all_goals
    have hlt := left_go hgo
    unfold left
    rw [hc]
    exact hlt

end Loop

variable (b : Build) (src : Source) (offset : ℕ → Exec ℕ) (clusterBytes size : ℕ) (hasMap : Bool)
  (accept : σ → List UInt8 → Option σ)

def loop : While (Copy σ) CopyResult where
  body := body b src offset clusterBytes size hasMap accept
  measure := left
  decreases _ _ := left_body

/-- The copy of a file that starts at a cluster, if that is one of the volume. -/
def ofStart (isFree : ℕ → Bool) (max start : ℕ) (jpeg : Option σ) : Copy σ where
  walk := ⟨isFree, max, start, false⟩
  cluster := if 2 ≤ start ∧ start ≤ max then some start else none
  remaining := size
  jpeg
  tries := 0
  written := 0
  out := []
  used := []

def run (isFree : ℕ → Bool) (max start : ℕ) (jpeg : Option σ) : CopyResult :=
  (loop b src offset clusterBytes size hasMap accept).eval (ofStart size isFree max start jpeg)

end Copy

section Spec

variable (src : Source) (offset : ℕ → Exec ℕ) (clusterBytes size : ℕ)

/-- The bytes of a cluster, as far as the source has them. -/
def content (c : ℕ) : List UInt8 :=
  match offset c with
  | .ok off => window src.data off clusterBytes
  | .error _ => []

/-- The file is made of free clusters in the order of the walk, none of them twice. -/
structure Reassembled (isFree : ℕ → Bool) (start : ℕ) (contents : ℕ → List UInt8) (r : CopyResult) :
    Prop where
  free : ∀ c ∈ r.used, isFree c = true
  once : r.used.Nodup
  ordered : r.used.Pairwise fun c d => FreeWalk.turn start c < FreeWalk.turn start d
  out : r.out = (r.used.flatMap contents).take size

theorem Reassembled.nothing {size : ℕ} {isFree : ℕ → Bool} {start : ℕ} {contents : ℕ → List UInt8}
    (result : Exec ℕ) : Reassembled size isFree start contents ⟨[], [], result⟩ :=
  ⟨nofun, List.nodup_nil, List.Pairwise.nil, List.take_nil.symm⟩

/-- Bytes of the start are written: the file is not empty, its start is a cluster of the
volume, and something can be read there. -/
structure StartWritten (max start : ℕ) : Prop where
  size_pos : 0 < size
  low : 2 ≤ start
  high : start ≤ max
  read : ∃ data, Copy.readCluster src offset start (min size clusterBytes) = .ok data ∧ data ≠ []

end Spec

namespace Copy

variable {σ : Type}

section Invariant

variable {b : Build} {src : Source} {offset : ℕ → Exec ℕ} {clusterBytes size : ℕ} {hasMap : Bool}
  {accept : σ → List UInt8 → Option σ} {isFree : ℕ → Bool} {max start : ℕ}

theorem readCluster_ok {c want : ℕ} {data : List UInt8} (hwant : want ≤ clusterBytes)
    (h : readCluster src offset c want = .ok data) :
    data = (content src offset clusterBytes c).take want := by
  obtain ⟨off, hoff, hread⟩ := exec_bind_ok h
  rw [Source.readAt_ok hread, content, hoff]
  dsimp only
  rw [window, window, List.take_take, min_eq_left hwant]

/-- What holds of a copy in every round. The clusters of the file and the one that is
tried next are in the order of the walk. -/
structure Inv (src : Source) (offset : ℕ → Exec ℕ) (clusterBytes size : ℕ) (isFree : ℕ → Bool)
    (max start : ℕ) (s : Copy σ) : Prop where
  kept : s.walk.isFree = isFree ∧ s.walk.max = max ∧ s.walk.start = start
  located : ∀ c, s.cluster = some c → s.walk.At c
  used : s.used = [] ∨ ∃ rest, s.used = start :: rest ∧ ∀ c ∈ rest, isFree c = true
  first : ∀ c, s.cluster = some c → s.used = [] → c = start
  next : ∀ c, s.cluster = some c → s.used ≠ [] → isFree c = true
  written : s.written = 0 ↔ s.used = []
  ordered : (s.used ++ s.cluster.toList).Pairwise fun c d => FreeWalk.turn start c < FreeWalk.turn start d
  out : s.out = (s.used.flatMap (content src offset clusterBytes)).take size
  remaining : s.out.length + s.remaining = size
  begun : s.used ≠ [] → StartWritten src offset clusterBytes size max start

theorem inv_ofStart (h : 2 ≤ start ∧ start ≤ max) (jpeg : Option σ) :
    Inv src offset clusterBytes size isFree max start (ofStart size isFree max start jpeg) := by
  have hcluster : (ofStart size isFree max start jpeg).cluster = some start := if_pos h
  refine ⟨⟨rfl, rfl, rfl⟩, fun c hc => ?_, .inl rfl, fun c hc _ => ?_, fun c _ hused => ?_, ?_, ?_, ?_, ?_,
    fun hused => absurd rfl hused⟩
  · rw [hcluster] at hc
    cases hc
    exact ⟨h.1, h.2, fun _ => le_rfl, nofun⟩
  · rw [hcluster] at hc
    cases hc
    rfl
  · exact absurd rfl hused
  · exact iff_of_true rfl rfl
  · rw [hcluster]
    exact List.pairwise_singleton _ _
  · exact List.take_nil.symm
  · exact Nat.zero_add _

/-- Going on from a cluster that comes after those of the file leads to a later one. -/
theorem Inv.go {s s' : Copy σ} {c : ℕ} {canWrap : Bool} (hat : s.walk.At c)
    (hstart : start ≤ max) (hused : s.used ≠ [])
    (hlast : ∀ d ∈ s.used, FreeWalk.turn start d ≤ FreeWalk.turn start c)
    (h : s.go b size c canWrap = .next s')
    (hi : Inv src offset clusterBytes size isFree max start { s with cluster := none }) :
    Inv src offset clusterBytes size isFree max start s' := by
  obtain ⟨cluster, walk, hnext, rfl⟩ := go_next h
  obtain ⟨hfree, hmax, hwalk⟩ := hi.kept
  obtain ⟨hfree', hmax', hwalk'⟩ := FreeWalk.nextAfter_kept hnext
  have hlater : ∀ c', cluster = some c' → walk.At c' ∧ isFree c' = true ∧
      FreeWalk.turn start c < FreeWalk.turn start c' := by
    intro c' hc'
    rw [hc'] at hnext
    have hstep := hat.next (by rw [hmax, hwalk]; exact hstart) hnext
    rwa [hfree, hwalk] at hstep
  refine ⟨⟨hfree'.trans hfree, hmax'.trans hmax, hwalk'.trans hwalk⟩, fun c' hc' => (hlater c' hc').1,
    hi.used, fun _ _ hnil => absurd hnil hused, fun c' hc' _ => (hlater c' hc').2.1, hi.written, ?_,
    hi.out, hi.remaining, hi.begun⟩
  have hordered := hi.ordered
  cases cluster with
  | none => exact hordered
  | some c' =>
    rw [List.pairwise_append]
    refine ⟨(List.pairwise_append.mp hordered).1, List.pairwise_singleton _ _, fun d hd e he => ?_⟩
    cases List.mem_singleton.mp he
    exact (hlast d hd).trans_lt (hlater c' rfl).2.2

/-- The clusters of the file come before the one that is tried. -/
theorem Inv.before {s : Copy σ} {c : ℕ} (hi : Inv src offset clusterBytes size isFree max start s)
    (hc : s.cluster = some c) : ∀ d ∈ s.used, FreeWalk.turn start d < FreeWalk.turn start c := by
  intro d hd
  have hordered := hi.ordered
  rw [hc] at hordered
  exact (List.pairwise_append.mp hordered).2.2 d hd c (List.mem_singleton_self c)

theorem Inv.pause {s : Copy σ} (hi : Inv src offset clusterBytes size isFree max start s) (t : ℕ) :
    Inv src offset clusterBytes size isFree max start { s with tries := t, cluster := none } := by
  refine ⟨hi.kept, nofun, hi.used, nofun, nofun, hi.written, ?_, hi.out, hi.remaining,
    hi.begun⟩
  exact (List.append_nil s.used).symm ▸ (List.pairwise_append.mp hi.ordered).1

/-- The bytes that are written are those of the cluster, up to the size of the file. -/
theorem out_write {out contents data : List UInt8} {used : List UInt8} {remaining : ℕ}
    (hout : out = used.take size) (hsize : out.length + remaining = size) (hpos : 0 < remaining)
    (hlen : contents.length ≤ clusterBytes) (hdata : data = contents.take (min remaining clusterBytes)) :
    out ++ data = (used ++ contents).take size ∧ out.length + data.length + (remaining - data.length) = size := by
  have hused : used.length ≤ size := by
    by_contra hlong
    rw [hout, List.length_take] at hsize
    omega
  rw [List.take_of_length_le hused] at hout
  subst hout hdata
  constructor
  · rw [List.take_append, List.take_of_length_le hused]
    congr 1
    rw [← hsize, Nat.add_sub_cancel_left]
    by_cases hle : remaining ≤ clusterBytes
    · rw [min_eq_left hle]
    · rw [min_eq_right (by omega), List.take_of_length_le hlen, List.take_of_length_le (by omega)]
  · rw [List.length_take]
    omega

theorem Inv.startWritten {s : Copy σ} {c : ℕ} {data : List UInt8}
    (hi : Inv src offset clusterBytes size isFree max start s) (hc : s.cluster = some c)
    (hremaining : 0 < s.remaining)
    (hread : readCluster src offset c (min s.remaining clusterBytes) = .ok data) (hdata : data ≠ []) :
    StartWritten src offset clusterBytes size max start := by
  by_cases hnil : s.used = []
  · have hout := hi.out
    have hsize := hi.remaining
    have hat := hi.located c hc
    rw [hnil, List.flatMap_nil, List.take_nil] at hout
    rw [hout, List.length_nil, Nat.zero_add] at hsize
    rw [hi.first c hc hnil] at hread hat
    refine ⟨hsize ▸ hremaining, hat.low, hi.kept.2.1 ▸ hat.high, data, hsize ▸ hread, hdata⟩
  · exact hi.begun hnil

theorem length_content (c : ℕ) : (content src offset clusterBytes c).length ≤ clusterBytes := by
  unfold content
  split
  · rw [length_window]
    exact min_le_left _ _
  · exact Nat.zero_le _

theorem Inv.wrote {s : Copy σ} {c : ℕ} {data : List UInt8}
    (hi : Inv src offset clusterBytes size isFree max start s) (hc : s.cluster = some c)
    (hremaining : 0 < s.remaining)
    (hread : readCluster src offset c (min s.remaining clusterBytes) = .ok data) (hdata : data ≠ [])
    (jpeg : Option σ) : Inv src offset clusterBytes size isFree max start
      { s.write c data jpeg with cluster := none } := by
  obtain ⟨hout, hsize⟩ := out_write hi.out hi.remaining hremaining (length_content c)
    (readCluster_ok (min_le_right _ _) hread)
  refine ⟨hi.kept, nofun, .inr ?_, nofun, nofun, ?_, ?_, ?_, ?_,
    fun _ => hi.startWritten hc hremaining hread hdata⟩
  · rcases hi.used with hnil | ⟨rest, hrest, hfree⟩
    · refine ⟨[], ?_, nofun⟩
      rw [write, hnil, hi.first c hc hnil]
      rfl
    · refine ⟨rest ++ [c], ?_, fun d hd => ?_⟩
      · rw [write, hrest]
        rfl
      · rcases List.mem_append.mp hd with hd | hd
        · exact hfree d hd
        · cases List.mem_singleton.mp hd
          exact hi.next c hc (by rw [hrest]; exact List.cons_ne_nil _ _)
  · have hlength := List.length_pos_of_ne_nil hdata
    apply iff_of_false
    · change s.written + data.length ≠ 0
      omega
    · exact List.append_ne_nil_of_right_ne_nil _ (List.cons_ne_nil _ _)
  · have hordered := hi.ordered
    rw [hc] at hordered
    exact (List.append_nil (s.used ++ [c])).symm ▸ hordered
  · change s.out ++ data = ((s.used ++ [c]).flatMap _).take size
    rw [List.flatMap_append, List.flatMap_singleton]
    exact hout
  · change (s.out ++ data).length + (s.remaining - data.length) = size
    rw [List.length_append]
    exact hsize

/-- A cluster is passed over only when bytes of the file have been written. -/
theorem judge_retry {s : Copy σ} {data : List UInt8} (h : s.judge hasMap accept data = .retry) :
    s.written ≠ 0 := by
  unfold judge at h
  split at h
  · cases h
  · split at h
    · cases h
    · split_ifs at h
      assumption

theorem inv_body {s s' : Copy σ} (hstart : start ≤ max)
    (hi : Inv src offset clusterBytes size isFree max start s)
    (h : body b src offset clusterBytes size hasMap accept s = .next s') :
    Inv src offset clusterBytes size isFree max start s' := by
  obtain ⟨hremaining, c, data, hc, hread, hdata, ⟨hjudge, hgo⟩ | ⟨jpeg, -, hgo⟩⟩ := body_next h
  · have hused : s.used ≠ [] := fun hnil => judge_retry hjudge (hi.written.mpr hnil)
    exact Inv.go (s := { s with tries := s.tries + 1 }) (hi.located c hc) hstart hused (fun d hd => (hi.before hc d hd).le) hgo (hi.pause _)
  · refine Inv.go (s := s.write c data jpeg) (hi.located c hc) hstart (List.append_ne_nil_of_right_ne_nil _ (List.cons_ne_nil _ _))
      (fun d hd => ?_) hgo (hi.wrote hc hremaining hread hdata jpeg)
    rcases List.mem_append.mp hd with hd | hd
    · exact (hi.before hc d hd).le
    · cases List.mem_singleton.mp hd
      exact le_rfl

theorem go_done {s : Copy σ} {c : ℕ} {canWrap : Bool} {r : CopyResult}
    (h : s.go b size c canWrap = .done r) : ∃ result, r = s.leave size result := by
  unfold go at h
  split at h
  · cases h
    exact ⟨_, rfl⟩
  · cases h

theorem body_none {s : Copy σ} (hc : s.cluster = none) :
    body b src offset clusterBytes size hasMap accept s = .done (s.leave size (.ok ())) := by
  unfold body
  rw [hc]
  exact ite_self _

/-- A copy that ends has written the clusters of a round, or one more. -/
theorem body_done {s : Copy σ} {r : CopyResult}
    (h : body b src offset clusterBytes size hasMap accept s = .done r) :
    (∃ result, r = s.leave size result) ∨
    ∃ c data jpeg result, 0 < s.remaining ∧ s.cluster = some c ∧
      readCluster src offset c (min s.remaining clusterBytes) = .ok data ∧ data ≠ [] ∧
      r = (s.write c data jpeg).leave size result := by
  unfold body at h
  split at h
  · cases h
    exact .inl ⟨_, rfl⟩
  · rename_i hremaining
    split at h
    · cases h
      exact .inl ⟨_, rfl⟩
    · rename_i c hc
      split at h
      · cases h
        exact .inl ⟨_, rfl⟩
      · rename_i data hread
        split at h
        · cases h
          exact .inl ⟨_, rfl⟩
        · rename_i hdata
          split at h
          · obtain ⟨result, hr⟩ := go_done (s := { s with tries := s.tries + 1 }) h
            exact .inl ⟨result, hr⟩
          · rename_i jpeg hjudge
            obtain ⟨result, hr⟩ := go_done h
            exact .inr ⟨c, data, jpeg, result, Nat.pos_of_ne_zero hremaining, hc, hread, hdata, hr⟩

/-- What is left behind is made of free clusters when its first one is. -/
theorem Inv.reassembled {s : Copy σ} (hi : Inv src offset clusterBytes size isFree max start s)
    (hfree : StartWritten src offset clusterBytes size max start → isFree start = true)
    (result : Exec Unit) :
    Reassembled size isFree start (content src offset clusterBytes) (s.leave size result) := by
  have hordered := (List.pairwise_append.mp hi.ordered).1
  refine ⟨?_, hordered.imp fun hlt heq => ?_, hordered, hi.out⟩
  · change ∀ c ∈ s.used, isFree c = true
    intro c hc
    have hstart := hfree (hi.begun (List.ne_nil_of_mem hc))
    obtain hnil | ⟨rest, hrest, hfree'⟩ := hi.used
    · rw [hnil] at hc
      cases hc
    · rw [hrest] at hc
      rcases List.mem_cons.mp hc with rfl | hc
      · exact hstart
      · exact hfree' c hc
  · rw [heq] at hlt
    exact lt_irrefl _ hlt

theorem reassembled_of_body {s : Copy σ} {r : CopyResult} (hi : Inv src offset clusterBytes size isFree max start s)
    (hfree : StartWritten src offset clusterBytes size max start → isFree start = true)
    (h : body b src offset clusterBytes size hasMap accept s = .done r) :
    Reassembled size isFree start (content src offset clusterBytes) r := by
  obtain ⟨result, rfl⟩ | ⟨c, data, jpeg, result, hremaining, hc, hread, hdata, rfl⟩ := body_done h
  · exact hi.reassembled hfree result
  · exact (hi.wrote hc hremaining hread hdata jpeg).reassembled hfree result

/-- Bytes that have been written stay. -/
theorem used_body (s : Copy σ) {c : ℕ} (hc : c ∈ s.used) :
    (body b src offset clusterBytes size hasMap accept s).Sat (fun s' => c ∈ s'.used)
      (fun r => c ∈ r.used) := by
  cases h : body b src offset clusterBytes size hasMap accept s with
  | next s' =>
    obtain ⟨-, d, data, -, -, -, ⟨-, hgo⟩ | ⟨jpeg, -, hgo⟩⟩ := body_next h
    · obtain ⟨cluster, walk, -, rfl⟩ := go_next hgo
      exact hc
    · obtain ⟨cluster, walk, -, rfl⟩ := go_next hgo
      exact List.mem_append_left _ hc
  | done r =>
    obtain ⟨result, rfl⟩ | ⟨d, data, jpeg, result, -, -, -, -, rfl⟩ := body_done h
    · exact hc
    · exact List.mem_append_left _ hc

/-- A start that is written is the first cluster of the file. -/
theorem mem_used_run (jpeg : Option σ) (h : StartWritten src offset clusterBytes size max start) :
    start ∈ (run b src offset clusterBytes size hasMap accept isFree max start jpeg).used := by
  obtain ⟨hsize, hlow, hhigh, data, hread, hdata⟩ := h
  have hbody : ∃ jpeg', body b src offset clusterBytes size hasMap accept
      (ofStart size isFree max start jpeg) =
        ((ofStart size isFree max start jpeg).write start data jpeg').go b size start hasMap := by
    have hjudge : ∃ jpeg', (ofStart size isFree max start jpeg).judge hasMap accept data = .write jpeg' := by
      unfold judge
      split
      · exact ⟨_, rfl⟩
      · split
        · exact ⟨_, rfl⟩
        · exact ⟨_, if_pos rfl⟩
    obtain ⟨jpeg', hjudge⟩ := hjudge
    have hcluster : (ofStart size isFree max start jpeg).cluster = some start := if_pos ⟨hlow, hhigh⟩
    refine ⟨jpeg', ?_⟩
    have hremaining : (ofStart size isFree max start jpeg).remaining = size := rfl
    unfold body
    rw [hremaining, if_neg (show ¬ size = 0 by omega), hcluster]
    dsimp only
    rw [hread]
    dsimp only
    rw [if_neg hdata, hjudge]
  obtain ⟨jpeg', hbody⟩ := hbody
  have hmem : start ∈ ((ofStart size isFree max start jpeg).write start data jpeg').used :=
    List.mem_singleton_self start
  unfold run
  cases hgo : ((ofStart size isFree max start jpeg).write start data jpeg').go b size start hasMap with
  | done r =>
    rw [While.eval_done _ (hbody.trans hgo)]
    obtain ⟨result, rfl⟩ := go_done hgo
    exact hmem
  | next s' =>
    rw [While.eval_next _ (hbody.trans hgo)]
    obtain ⟨cluster, walk, -, rfl⟩ := go_next hgo
    exact (loop b src offset clusterBytes size hasMap accept).eval_inv
      (I := fun s => start ∈ s.used) (Q := fun r => start ∈ r.used) (fun s hs => used_body s hs) hmem

/-- The file is made of free clusters exactly when its start is one, or nothing of it is
written. -/
theorem run_reassembled_iff (jpeg : Option σ) :
    Reassembled size isFree start (content src offset clusterBytes)
        (run b src offset clusterBytes size hasMap accept isFree max start jpeg) ↔
      (StartWritten src offset clusterBytes size max start → isFree start = true) := by
  constructor
  · exact fun h hwritten => h.free start (mem_used_run jpeg hwritten)
  · intro hfree
    by_cases hrange : 2 ≤ start ∧ start ≤ max
    · obtain ⟨s, hreached, hdone⟩ := (loop b src offset clusterBytes size hasMap accept).exists_reaches_done
        (ofStart size isFree max start jpeg)
      have hi := hreached.inv (fun _ _ hi hb => inv_body hrange.2 hi hb) (inv_ofStart hrange jpeg)
      exact reassembled_of_body hi hfree hdone
    · have hcluster : (ofStart size isFree max start jpeg).cluster = none := if_neg hrange
      unfold run
      rw [While.eval_done _ (body_none hcluster)]
      exact Reassembled.nothing ((.ok () : Exec Unit).map fun _ => size - size)

end Invariant

end Copy

end Unearth.Reassembly

namespace Unearth
open Bytes Word Reassembly

namespace Fat

/-- Whether a table in memory says that a cluster is free. Past its end nothing is. -/
def clusterIsFree (fatType : FatType) (fat : List UInt8) (cluster : ℕ) : Bool :=
  let entry := fun off len => if off + len ≤ fat.length then some (le (window fat off len)) else none
  match fatType with
  | .fat32 => (entry (cluster * 4) 4).map (· % 2 ^ 28) = some 0
  | .fat16 => entry (cluster * 2) 2 = some 0
  | .fat12 => (entry (cluster * 3 / 2) 2).map
      (fun raw => if cluster % 2 = 0 then raw % 2 ^ 12 else raw / 2 ^ 4) = some 0

/-- The first table of a volume, unless it is empty or too large, or cannot be read. -/
def Volume.loadFat (b : Build) (v : Volume) (src : Source) : Exec (Option (List UInt8)) := do
  let bytes ← times b v.fatSizeSectors v.bytesPerSector
  if bytes = 0 ∨ 64 * 1024 * 1024 < bytes then return none
  else
    let base ← plus b v.offset (← times b v.reservedSectors v.bytesPerSector)
    match src.readAt base bytes with
    | .error _ => return none
    | .ok fat => return some fat

/-- The copy of a deleted file. Without a table every cluster passes for free. -/
def Volume.writeFile {σ : Type} (b : Build) (v : Volume) (src : Source) (accept : σ → List UInt8 → Option σ)
    (startCluster size : ℕ) (jpeg : Option σ) (fat : Option (List UInt8)) : CopyResult :=
  match v.maxValidCluster b with
  | .error e => ⟨[], [], .error e⟩
  | .ok max =>
    Copy.run b src (v.clusterOffset b) v.clusterBytes size fat.isSome accept
      (fun c => (fat.map (clusterIsFree v.fatType · c)).getD true) max startCluster jpeg

def Volume.contents (b : Build) (v : Volume) (src : Source) : ℕ → List UInt8 :=
  Reassembly.content src (v.clusterOffset b) v.clusterBytes

/-- Bytes of the start of a deleted file are written. -/
def Volume.StartWritten (b : Build) (v : Volume) (src : Source) (startCluster size : ℕ) : Prop :=
  ∃ max, v.maxValidCluster b = .ok max ∧
    Reassembly.StartWritten src (v.clusterOffset b) v.clusterBytes size max startCluster

/-- A copy by a table is made of free clusters exactly when its start is free or not written. -/
theorem writeFile_iff {σ : Type} {b : Build} (v : Volume) (src : Source)
    (accept : σ → List UInt8 → Option σ) (startCluster size : ℕ) (jpeg : Option σ) (fat : List UInt8) :
    Reassembled size (clusterIsFree v.fatType fat) startCluster (v.contents b src)
        (v.writeFile b src accept startCluster size jpeg (some fat)) ↔
      (v.StartWritten b src startCluster size → clusterIsFree v.fatType fat startCluster = true) := by
  unfold Volume.writeFile Volume.StartWritten
  cases hmax : v.maxValidCluster b with
  | error e =>
    apply iff_of_true
    · exact .nothing _
    · rintro ⟨max, hmax, -⟩
      cases hmax
  | ok max =>
    refine (Copy.run_reassembled_iff jpeg).trans ⟨fun h => ?_, fun h hwritten => h ⟨max, rfl, hwritten⟩⟩
    rintro ⟨max', hmax', hwritten⟩
    cases hmax'
    exact h hwritten

end Fat

namespace Exfat

/-- Whether a bitmap marks a cluster as allocated. Past its end everything is. -/
def clusterAllocated (bitmap : List UInt8) (cluster : ℕ) : Bool :=
  let i := cluster - 2
  ((bitmap[i / 8]?).map fun x => decide (x.toNat / 2 ^ (i % 8) % 2 = 1)).getD true

/-- The copy of a deleted file whose chain is incomplete. -/
def Volume.copySkippingAllocated {σ : Type} (b : Build) (v : Volume) (src : Source)
    (accept : σ → List UInt8 → Option σ) (firstCluster dataLength : ℕ) (jpeg : Option σ)
    (bitmap : Option (List UInt8)) : CopyResult :=
  match v.clusterBytes b with
  | .error e => ⟨[], [], .error e⟩
  | .ok clusterBytes =>
    if 2 ^ 63 ≤ clusterBytes then ⟨[], [], .error .capacity⟩
    else
      Copy.run b src (fun c => .ok (v.clusterOffset c)) clusterBytes dataLength bitmap.isSome accept
        (fun c => (bitmap.map fun m => !clusterAllocated m c).getD true) v.maxValidCluster firstCluster jpeg

def Volume.contents (b : Build) (v : Volume) (src : Source) : ℕ → List UInt8 :=
  match v.clusterBytes b with
  | .error _ => fun _ => []
  | .ok clusterBytes => Reassembly.content src (fun c => .ok (v.clusterOffset c)) clusterBytes

/-- Bytes of the start of a deleted file are written. -/
def Volume.StartWritten (b : Build) (v : Volume) (src : Source) (firstCluster dataLength : ℕ) : Prop :=
  ∃ clusterBytes < 2 ^ 63, v.clusterBytes b = .ok clusterBytes ∧
    Reassembly.StartWritten src (fun c => .ok (v.clusterOffset c)) clusterBytes dataLength v.maxValidCluster
      firstCluster

/-- A copy by a bitmap is made of free clusters exactly when its start is free or not written. -/
theorem copySkippingAllocated_iff {σ : Type} {b : Build} (v : Volume) (src : Source)
    (accept : σ → List UInt8 → Option σ) (firstCluster dataLength : ℕ) (jpeg : Option σ)
    (bitmap : List UInt8) :
    Reassembled dataLength (fun c => !clusterAllocated bitmap c) firstCluster (v.contents b src)
        (v.copySkippingAllocated b src accept firstCluster dataLength jpeg (some bitmap)) ↔
      (v.StartWritten b src firstCluster dataLength → clusterAllocated bitmap firstCluster = false) := by
  unfold Volume.copySkippingAllocated Volume.StartWritten Volume.contents
  cases hbytes : v.clusterBytes b with
  | error e =>
    apply iff_of_true
    · exact .nothing _
    · rintro ⟨clusterBytes, -, hbytes, -⟩
      cases hbytes
  | ok clusterBytes =>
    dsimp only
    by_cases hcapacity : 2 ^ 63 ≤ clusterBytes
    · rw [if_pos hcapacity]
      apply iff_of_true
      · exact .nothing _
      · rintro ⟨clusterBytes', hlt, hbytes, -⟩
        cases hbytes
        omega
    · rw [if_neg hcapacity]
      refine (Copy.run_reassembled_iff jpeg).trans ⟨fun h => ?_, fun h hwritten => ?_⟩
      · rintro ⟨clusterBytes', -, hbytes, hwritten⟩
        cases hbytes
        simpa using h hwritten
      · simpa using h ⟨clusterBytes, not_le.mp hcapacity, rfl, hwritten⟩

end Exfat

namespace Reassembly

/-- The copies of both kinds of volumes leave the clusters of live files alone, exactly when
the start of the file is not one of them or is not written. -/
theorem free_clusters_iff {σ : Type} (b : Build) (src : Source) (accept : σ → List UInt8 → Option σ)
    (start size : ℕ) (jpeg : Option σ) :
    (∀ (v : Fat.Volume) (fat : List UInt8),
      Reassembled size (Fat.clusterIsFree v.fatType fat) start (v.contents b src)
          (v.writeFile b src accept start size jpeg (some fat)) ↔
        (v.StartWritten b src start size → Fat.clusterIsFree v.fatType fat start = true)) ∧
    ∀ (v : Exfat.Volume) (bitmap : List UInt8),
      Reassembled size (fun c => !Exfat.clusterAllocated bitmap c) start (v.contents b src)
          (v.copySkippingAllocated b src accept start size jpeg (some bitmap)) ↔
        (v.StartWritten b src start size → Exfat.clusterAllocated bitmap start = false) :=
  ⟨fun v fat => Fat.writeFile_iff v src accept start size jpeg fat,
    fun v bitmap => Exfat.copySkippingAllocated_iff v src accept start size jpeg bitmap⟩

/-- A volume of two clusters, the first of which belongs to a live file. -/
def reusedStart : Source where
  data := [0xEB, 0, 0, 0, 0, 0, 0, 0, 0, 0, 0, 0, 2, 1, 1, 0, 1, 0, 0, 4, 0, 0, 1, 0] ++
    List.replicate 488 0 ++ [0xF8, 0xFF, 0xFF, 0xFF, 0x0F, 0] ++ List.replicate 506 0 ++
    List.replicate 512 76 ++ List.replicate 512 0
  size_lt := by decide +kernel

def reusedTable : List UInt8 := [0xF8, 0xFF, 0xFF, 0xFF, 0x0F, 0] ++ List.replicate 506 0

/-- What is copied of a deleted file of ten bytes that started at cluster 2. -/
def copyAtTwo (v : Fat.Volume) : CopyResult :=
  v.writeFile .release reusedStart (fun (_ : Unit) _ => none) 2 10 none (some reusedTable)

/-- The copy of a file whose start has been given to a live file holds bytes of that one. -/
theorem reused_start_copied :
    ∃ v, Fat.Volume.parse reusedStart 0 = .ok v ∧ v.loadFat .release reusedStart = .ok (some reusedTable) ∧
      Fat.clusterIsFree v.fatType reusedTable 2 = false ∧ (copyAtTwo v).out = List.replicate 10 76 ∧
      ¬ Reassembled 10 (Fat.clusterIsFree v.fatType reusedTable) 2 (v.contents .release reusedStart)
        (copyAtTwo v) := by
  have hrun : (Fat.Volume.parse reusedStart 0).toOption.map (fun v =>
      (v.loadFat .release reusedStart, v.fatType, (copyAtTwo v).used, (copyAtTwo v).out)) =
        some (.ok (some reusedTable), .fat12, [2], List.replicate 10 76) := by decide +kernel
  obtain ⟨v, hparse, hfields⟩ := Option.map_eq_some_iff.mp hrun
  obtain ⟨hfat, htype, hused, hout⟩ : v.loadFat .release reusedStart = .ok (some reusedTable) ∧
      v.fatType = .fat12 ∧ (copyAtTwo v).used = [2] ∧ (copyAtTwo v).out = List.replicate 10 76 := by
    simpa only [Prod.mk.injEq] using hfields
  have halloc : Fat.clusterIsFree v.fatType reusedTable 2 = false := by
    rw [htype]
    decide +kernel
  refine ⟨v, ok_of_toOption hparse, hfat, halloc, hout, fun h => ?_⟩
  have hfree := h.free 2 (by rw [hused]; exact List.mem_singleton_self 2)
  rw [halloc] at hfree
  cases hfree

end Reassembly

end Unearth
