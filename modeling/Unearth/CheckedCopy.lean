import Unearth.FreeWalkRun
import Unearth.JpegScan
import Unearth.Reassembly

/-!
# What the check of a JPEG costs a file

A copy with the check takes its clusters from the same walk as one without it, and a cluster
that it passes over is not come back to. Nothing is lost as long as the clusters behind hold
what the file still lacks; and a search that is given up goes on where it has got to.
-/

namespace Unearth
open Bytes Word Loop

namespace Source

/-- A read that succeeds also does when it asks for less. -/
def ReadsLess (src : Source) : Prop := ∀ off n m, n ≤ m → src.fails off n = true → src.fails off m = true

theorem ReadsLess.readAt {src : Source} (h : src.ReadsLess) {off n m : ℕ} (hle : n ≤ m) {bytes : List UInt8}
    (hread : src.readAt off m = .ok bytes) : src.readAt off n = .ok (bytes.take n) := by
  have hfits : ¬ (n ≠ 0 ∧ (2 ^ 63 ≤ off ∨ src.fails off n = true)) := by
    rintro ⟨hn, hbad⟩
    unfold Source.readAt at hread
    rw [if_pos ⟨by omega, hbad.imp_right (h off n m hle)⟩] at hread
    cases hread
  rw [readAt_ok hread, Source.readAt, if_neg hfits, window, window, List.take_take, min_eq_left hle]

end Source

namespace Reassembly

section Supply

variable (src : Source) (offset : ℕ → Exec ℕ) (clusterBytes : ℕ)

/-- What clusters hold of the bytes that a file lacks, up to the first one that cannot be read
or is empty. -/
def supply : ℕ → List ℕ → List UInt8
  | _, [] => []
  | remaining, c :: clusters =>
    match Copy.readCluster src offset c (min remaining clusterBytes) with
    | .error _ => []
    | .ok data => if data = [] then [] else data ++ supply (remaining - data.length) clusters

variable {src offset clusterBytes} {c remaining : ℕ} {clusters : List ℕ}

theorem supply_error {e : Fault} (h : Copy.readCluster src offset c (min remaining clusterBytes) = .error e) :
    supply src offset clusterBytes remaining (c :: clusters) = [] := by
  rw [supply, h]

theorem supply_empty (h : Copy.readCluster src offset c (min remaining clusterBytes) = .ok []) :
    supply src offset clusterBytes remaining (c :: clusters) = [] := by
  rw [supply, h]
  exact if_pos rfl

theorem supply_cons {data : List UInt8} (h : Copy.readCluster src offset c (min remaining clusterBytes) = .ok data)
    (hdata : data ≠ []) : supply src offset clusterBytes remaining (c :: clusters) =
      data ++ supply src offset clusterBytes (remaining - data.length) clusters := by
  rw [supply, h]
  exact if_neg hdata

theorem length_readCluster {want : ℕ} {data : List UInt8} (h : Copy.readCluster src offset c want = .ok data) :
    data.length ≤ want := by
  obtain ⟨off, -, hread⟩ := exec_bind_ok h
  rw [Source.readAt_ok hread, length_window]
  exact min_le_left _ _

theorem readCluster_less (hless : src.ReadsLess) {n m : ℕ} (hle : n ≤ m) {data : List UInt8}
    (h : Copy.readCluster src offset c m = .ok data) : Copy.readCluster src offset c n = .ok (data.take n) := by
  obtain ⟨off, hoff, hread⟩ := exec_bind_ok h
  unfold Copy.readCluster
  rw [hoff, exec_ok_bind, hless.readAt hle hread]

theorem supply_zero (clusters : List ℕ) : supply src offset clusterBytes 0 clusters = [] := by
  cases clusters with
  | nil => rfl
  | cons c clusters =>
    cases h : Copy.readCluster src offset c (min 0 clusterBytes) with
    | error e => exact supply_error h
    | ok data =>
      have hlength := length_readCluster h
      rw [Nat.zero_min, Nat.le_zero, List.length_eq_zero_iff] at hlength
      rw [hlength] at h
      exact supply_empty h

/-- Clusters that hold all the bytes that a file lacks hold fewer of them as well. -/
theorem supply_less (hless : src.ReadsLess) (clusters : List ℕ) {n m : ℕ} (hle : n ≤ m)
    (h : m ≤ (supply src offset clusterBytes m clusters).length) :
    n ≤ (supply src offset clusterBytes n clusters).length := by
  induction clusters generalizing n m with
  | nil => exact hle.trans h
  | cons c clusters ih =>
    cases hread : Copy.readCluster src offset c (min m clusterBytes) with
    | error e =>
      rw [supply_error hread] at h
      exact hle.trans (h.trans (Nat.zero_le _))
    | ok data =>
      by_cases hdata : data = []
      · rw [hdata] at hread
        rw [supply_empty hread] at h
        exact hle.trans (h.trans (Nat.zero_le _))
      by_cases hzero : n = 0
      · rw [hzero]
        exact Nat.zero_le _
      have hlength := length_readCluster hread
      have hpos := List.length_pos_of_ne_nil hdata
      have hshort := readCluster_less hless (min_le_min_right clusterBytes hle) hread
      rw [supply_cons hread hdata, List.length_append] at h
      have hsome : data.take (min n clusterBytes) ≠ [] := by
        rw [← List.length_pos_iff, List.length_take]
        omega
      rw [supply_cons hshort hsome, List.length_append]
      have hrest := ih (n := n - (data.take (min n clusterBytes)).length) (m := m - data.length)
        (by rw [List.length_take]; omega) (by omega)
      omega

end Supply

namespace Copy

variable {σ : Type}

/-- The cluster of a copy and those that its walk has still to come to. -/
def ahead (b : Build) (hasMap : Bool) (s : Copy σ) : List ℕ :=
  match s.cluster with
  | none => []
  | some c => c :: s.walk.rest b hasMap c

/-- The copy from here on without the check. -/
def unchecked (s : Copy σ) : Copy σ := { s with jpeg := none }

section Steps

variable (src : Source) (offset : ℕ → Exec ℕ) (clusterBytes : ℕ) (hasMap : Bool)
  (accept : σ → List UInt8 → Option σ)

/-- The bytes of the cluster that is tried, when there are some and the file lacks some. -/
def Tries (s : Copy σ) (c : ℕ) (data : List UInt8) : Prop :=
  0 < s.remaining ∧ s.cluster = some c ∧
    readCluster src offset c (min s.remaining clusterBytes) = .ok data ∧ data ≠ []

/-- The cluster is passed over. -/
def Passes (s : Copy σ) : Prop :=
  ∃ c data, s.Tries src offset clusterBytes c data ∧ s.judge hasMap accept data = .retry

/-- The cluster does not fit, and the check is given up. -/
def Abandons (s : Copy σ) : Prop :=
  ∃ c data state, s.Tries src offset clusterBytes c data ∧ s.jpeg = some state ∧ accept state data = none ∧
    s.judge hasMap accept data = .write none

end Steps

section Bodies

variable {b : Build} {src : Source} {offset : ℕ → Exec ℕ} {clusterBytes size : ℕ} {hasMap : Bool}
  {accept : σ → List UInt8 → Option σ} {isFree : ℕ → Bool} {max start : ℕ} {s : Copy σ}

theorem ahead_some {c : ℕ} (h : s.cluster = some c) : s.ahead b hasMap = c :: s.walk.rest b hasMap c := by
  unfold ahead
  rw [h]

/-- Going on leads to the next of the clusters that are ahead, and changes nothing else. It
fails only where the end of the walk cannot be told. -/
theorem go_cases (b : Build) (size : ℕ) (hasMap : Bool) (s : Copy σ) (c : ℕ) (hstart : s.walk.start < 2 ^ 32) :
    (∃ e, s.go b size c hasMap = .done (s.leave size (.error e)) ∧ s.walk.stop b = .error e ∧
      s.walk.rest b hasMap c = []) ∨
    ∃ s' : Copy σ, s.go b size c hasMap = .next s' ∧ s'.ahead b hasMap = s.walk.rest b hasMap c ∧
      s' = { s with cluster := s'.cluster, walk := s'.walk } := by
  unfold go
  obtain ⟨e, hstop, hnext, hrest⟩ | ⟨w', hnext, hrest⟩ := FreeWalk.nextAfter_rest b hasMap c hstart
  · rw [hnext]
    exact .inl ⟨e, rfl, hstop, hrest⟩
  · rw [hnext]
    refine .inr ⟨{ s with cluster := (s.walk.rest b hasMap c).head?, walk := w' }, rfl, ?_, rfl⟩
    cases hhead : (s.walk.rest b hasMap c).head? with
    | none => exact (List.head?_eq_none_iff.mp hhead).symm
    | some d => exact (hrest d hhead).symm

theorem body_passes (b : Build) (size : ℕ) {c : ℕ} {data : List UInt8} (h : s.Tries src offset clusterBytes c data)
    (hjudge : s.judge hasMap accept data = .retry) :
    body b src offset clusterBytes size hasMap accept s = { s with tries := s.tries + 1 }.go b size c true := by
  obtain ⟨hremaining, hc, hread, hdata⟩ := h
  unfold body
  rw [if_neg hremaining.ne', hc]
  dsimp only
  rw [hread]
  dsimp only
  rw [if_neg hdata, hjudge]

theorem body_writes {c : ℕ} {data : List UInt8} {jpeg : Option σ} (h : s.Tries src offset clusterBytes c data)
    (hjudge : s.judge hasMap accept data = .write jpeg) :
    body b src offset clusterBytes size hasMap accept s = (s.write c data jpeg).go b size c hasMap := by
  obtain ⟨hremaining, hc, hread, hdata⟩ := h
  unfold body
  rw [if_neg hremaining.ne', hc]
  dsimp only
  rw [hread]
  dsimp only
  rw [if_neg hdata, hjudge]

theorem judge_retry_map {data : List UInt8} (h : s.judge hasMap accept data = .retry) : hasMap = true := by
  unfold judge at h
  split at h
  · cases h
  · split at h
    · cases h
    · split_ifs at h with hwritten hmap
      exact (Bool.and_eq_true_iff.mp hmap).1

theorem judge_unchecked (data : List UInt8) (h : s.jpeg = none) : s.judge hasMap accept data = .write none := by
  unfold judge
  rw [h]

theorem body_error {c : ℕ} {e : Fault} (hremaining : s.remaining ≠ 0) (hc : s.cluster = some c)
    (hread : readCluster src offset c (min s.remaining clusterBytes) = .error e) :
    body b src offset clusterBytes size hasMap accept s = .done (s.leave size (.error e)) := by
  unfold body
  rw [if_neg hremaining, hc]
  dsimp only
  rw [hread]

theorem body_empty {c : ℕ} (hremaining : s.remaining ≠ 0) (hc : s.cluster = some c)
    (hread : readCluster src offset c (min s.remaining clusterBytes) = .ok []) :
    body b src offset clusterBytes size hasMap accept s = .done (s.leave size (.ok ())) := by
  unfold body
  rw [if_neg hremaining, hc]
  dsimp only
  rw [hread]
  exact if_pos rfl

/-- A round either ends the copy, as nothing is lacking or nothing is left to be read, or tries a
cluster that holds something. -/
theorem body_cases (b : Build) (src : Source) (offset : ℕ → Exec ℕ) (clusterBytes size : ℕ) (hasMap : Bool)
    (accept : σ → List UInt8 → Option σ) (s : Copy σ) :
    (∃ result, body b src offset clusterBytes size hasMap accept s = .done (s.leave size result) ∧
      (s.remaining = 0 → result = .ok ()) ∧
      supply src offset clusterBytes s.remaining (s.ahead b hasMap) = []) ∨
    ∃ c data, s.Tries src offset clusterBytes c data ∧
      supply src offset clusterBytes s.remaining (s.ahead b hasMap) =
        data ++ supply src offset clusterBytes (s.remaining - data.length) (s.walk.rest b hasMap c) := by
  by_cases hremaining : s.remaining = 0
  · refine .inl ⟨.ok (), if_pos hremaining, fun _ => rfl, ?_⟩
    rw [hremaining]
    exact supply_zero _
  cases hc : s.cluster with
  | none =>
    refine .inl ⟨.ok (), body_none hc, fun _ => rfl, ?_⟩
    unfold ahead
    rw [hc]
    rfl
  | some c =>
    rw [ahead_some hc]
    cases hread : readCluster src offset c (min s.remaining clusterBytes) with
    | error e =>
      exact .inl ⟨.error e, body_error hremaining hc hread, fun h => absurd h hremaining, supply_error hread⟩
    | ok data =>
      by_cases hdata : data = []
      · rw [hdata] at hread
        exact .inl ⟨.ok (), body_empty hremaining hc hread, fun _ => rfl, supply_empty hread⟩
      · exact .inr ⟨c, data, ⟨Nat.pos_of_ne_zero hremaining, hc, hread, hdata⟩, supply_cons hread hdata⟩

end Bodies

section Runs

variable {b : Build} {src : Source} {offset : ℕ → Exec ℕ} {clusterBytes size : ℕ} {hasMap : Bool}
  {accept : σ → List UInt8 → Option σ} {isFree : ℕ → Bool} {max start : ℕ} {s : Copy σ}

theorem Inv.start_lt (hi : Inv src offset clusterBytes size isFree max start s) (hstart : start ≤ max)
    (hmax : max < 2 ^ 32) : s.walk.start < 2 ^ 32 := by
  rw [hi.kept.2.2]
  omega

/-- The end of the walk can be told. -/
def Walkable (b : Build) (max : ℕ) : Prop := ∃ stop, plus32 b max 1 = .ok stop

theorem Inv.stop_ne_error (hi : Inv src offset clusterBytes size isFree max start s) (hwalk : Walkable b max)
    (e : Fault) : s.walk.stop b ≠ .error e := by
  obtain ⟨stop, hstop⟩ := hwalk
  unfold FreeWalk.stop
  rw [hi.kept.2.1, hstop]
  cases s.walk.wrapped with
  | true =>
    intro h
    cases h
  | false =>
    intro h
    cases h

/-- A round that writes goes on with what is behind the cluster. -/
theorem Inv.writes (b : Build) (hi : Inv src offset clusterBytes size isFree max start s) (hstart : start ≤ max)
    (hmax : max < 2 ^ 32) {c : ℕ} {data : List UInt8} {jpeg : Option σ}
    (h : s.Tries src offset clusterBytes c data) (hjudge : s.judge hasMap accept data = .write jpeg) :
    (∃ e, body b src offset clusterBytes size hasMap accept s =
          .done ((s.write c data jpeg).leave size (.error e)) ∧
      s.walk.stop b = .error e ∧ s.walk.rest b hasMap c = []) ∨
    ∃ s', body b src offset clusterBytes size hasMap accept s = .next s' ∧
      Inv src offset clusterBytes size isFree max start s' ∧ s'.ahead b hasMap = s.walk.rest b hasMap c ∧
      s'.jpeg = jpeg ∧ s'.out = s.out ++ data ∧ s'.remaining = s.remaining - data.length := by
  rw [body_writes h hjudge]
  obtain ⟨e, hgo, hstop, hrest⟩ | ⟨s', hgo, hahead, hs'⟩ :=
    go_cases b size hasMap (s.write c data jpeg) c (hi.start_lt hstart hmax)
  · exact .inl ⟨e, hgo, hstop, hrest⟩
  · refine .inr ⟨s', hgo, inv_body hstart hi ((body_writes h hjudge).trans hgo), hahead, ?_, ?_, ?_⟩
    · rw [hs']
      rfl
    · rw [hs']
      rfl
    · rw [hs']
      rfl

/-- So does a round that passes the cluster over, with all that it lacked. -/
theorem Inv.passes (b : Build) (hi : Inv src offset clusterBytes size isFree max start s) (hstart : start ≤ max)
    (hmax : max < 2 ^ 32) {c : ℕ} {data : List UInt8} (h : s.Tries src offset clusterBytes c data)
    (hjudge : s.judge hasMap accept data = .retry) :
    (∃ e, body b src offset clusterBytes size hasMap accept s = .done (s.leave size (.error e)) ∧
      s.walk.stop b = .error e) ∨
    ∃ s', body b src offset clusterBytes size hasMap accept s = .next s' ∧
      Inv src offset clusterBytes size isFree max start s' ∧ s'.ahead b hasMap = s.walk.rest b hasMap c ∧
      s'.remaining = s.remaining := by
  have hbody := body_passes b size h hjudge
  rw [judge_retry_map hjudge] at hbody ⊢
  obtain ⟨e, hgo, hstop, -⟩ | ⟨s', hgo, hahead, hs'⟩ :=
    go_cases b size true { s with tries := s.tries + 1 } c (hi.start_lt hstart hmax)
  · exact .inl ⟨e, hbody.trans hgo, hstop⟩
  · refine .inr ⟨s', hbody.trans hgo, inv_body hstart hi (hbody.trans hgo), hahead, ?_⟩
    rw [hs']

theorem Inv.leave_full (hi : Inv src offset clusterBytes size isFree max start s) {result : Exec Unit}
    (h : (s.leave size result).result = .ok size) : s.remaining = 0 := by
  cases result with
  | error e => cases h
  | ok u =>
    have hleft : size - s.remaining = size := Except.ok.inj h
    have hsize := hi.remaining
    omega

/-- A copy without the check writes what is ahead of it. -/
theorem Inv.out_unchecked (hi : Inv src offset clusterBytes size isFree max start s)
    (hstart : start ≤ max) (hmax : max < 2 ^ 32) (hplain : s.jpeg = none) :
    ((loop b src offset clusterBytes size hasMap accept).eval s).out =
      s.out ++ supply src offset clusterBytes s.remaining (s.ahead b hasMap) := by
  induction s using (loop b src offset clusterBytes size hasMap accept).induct with
  | step s ih =>
    obtain ⟨result, hbody, -, hsupply⟩ | ⟨c, data, htries, hsupply⟩ :=
      body_cases b src offset clusterBytes size hasMap accept s
    · rw [While.eval_done _ hbody, hsupply, List.append_nil]
      rfl
    · obtain ⟨e, hbody, -, hrest⟩ | ⟨s', hbody, hi', hrest, hjpeg, hout, hremaining⟩ :=
        hi.writes b hstart hmax htries (judge_unchecked _ hplain)
      · rw [While.eval_done _ hbody, hsupply, hrest]
        exact congrArg (s.out ++ ·) (List.append_nil data).symm
      · rw [While.eval_next _ hbody, ih s' hbody hi' hjpeg, hout, hrest, hremaining, hsupply, List.append_assoc]

/-- A copy writes all that was lacking when it has found that ahead, and when enough is left
behind each cluster that it passes over. -/
theorem Inv.full_of_room (hi : Inv src offset clusterBytes size isFree max start s)
    (hstart : start ≤ max) (hmax : max < 2 ^ 32) (hwalk : Walkable b max)
    (hroom : ∀ t, Reaches (body b src offset clusterBytes size hasMap accept) s t →
      t.Passes src offset clusterBytes hasMap accept →
      t.remaining ≤ (supply src offset clusterBytes t.remaining (t.ahead b hasMap).tail).length)
    (h : s.remaining ≤ (supply src offset clusterBytes s.remaining (s.ahead b hasMap)).length) :
    ((loop b src offset clusterBytes size hasMap accept).eval s).result = .ok size := by
  induction s using (loop b src offset clusterBytes size hasMap accept).induct with
  | step s ih =>
    obtain ⟨result, hbody, hend, hsupply⟩ | ⟨c, data, htries, hsupply⟩ :=
      body_cases b src offset clusterBytes size hasMap accept s
    · rw [hsupply] at h
      have hzero : s.remaining = 0 := Nat.le_zero.mp h
      rw [While.eval_done _ hbody, hend hzero]
      change Except.ok (size - s.remaining) = _
      rw [hzero, Nat.sub_zero]
    · cases hjudge : s.judge hasMap accept data with
      | retry =>
        obtain ⟨e, -, hstop⟩ | ⟨s', hbody, hi', hrest, hremaining⟩ := hi.passes b hstart hmax htries hjudge
        · exact absurd hstop (hi.stop_ne_error hwalk e)
        · have hleft := hroom s .refl ⟨c, data, htries, hjudge⟩
          rw [ahead_some htries.2.1, List.tail_cons, ← hrest, ← hremaining] at hleft
          rw [While.eval_next _ hbody]
          exact ih s' hbody hi' (fun t ht => hroom t (.head hbody ht)) hleft
      | write jpeg =>
        obtain ⟨e, -, hstop, -⟩ | ⟨s', hbody, hi', hrest, -, -, hremaining⟩ :=
          hi.writes b hstart hmax htries hjudge
        · exact absurd hstop (hi.stop_ne_error hwalk e)
        · rw [hsupply, List.length_append] at h
          rw [While.eval_next _ hbody]
          refine ih s' hbody hi' (fun t ht => hroom t (.head hbody ht)) ?_
          rw [hrest, hremaining]
          omega

/-- A copy that has written all that was lacking has found it ahead. -/
theorem Inv.room_of_full (hi : Inv src offset clusterBytes size isFree max start s) (hless : src.ReadsLess)
    (hstart : start ≤ max) (hmax : max < 2 ^ 32)
    (h : ((loop b src offset clusterBytes size hasMap accept).eval s).result = .ok size) :
    s.remaining ≤ (supply src offset clusterBytes s.remaining (s.ahead b hasMap)).length := by
  induction s using (loop b src offset clusterBytes size hasMap accept).induct with
  | step s ih =>
    obtain ⟨result, hbody, -, -⟩ | ⟨c, data, htries, hsupply⟩ :=
      body_cases b src offset clusterBytes size hasMap accept s
    · rw [While.eval_done _ hbody] at h
      rw [hi.leave_full h]
      exact Nat.zero_le _
    · rw [hsupply, List.length_append]
      cases hjudge : s.judge hasMap accept data with
      | retry =>
        obtain ⟨e, hbody, -⟩ | ⟨s', hbody, hi', hrest, hremaining⟩ := hi.passes b hstart hmax htries hjudge
        · rw [While.eval_done _ hbody] at h
          cases h
        · rw [While.eval_next _ hbody] at h
          have hleft := ih s' hbody hi' h
          rw [hrest, hremaining] at hleft
          have hfewer := supply_less hless _ (Nat.sub_le s.remaining data.length) hleft
          omega
      | write jpeg =>
        obtain ⟨e, hbody, -, -⟩ | ⟨s', hbody, hi', hrest, -, -, hremaining⟩ :=
          hi.writes b hstart hmax htries hjudge
        · rw [While.eval_done _ hbody] at h
          cases h
        · rw [While.eval_next _ hbody] at h
          have hleft := ih s' hbody hi' h
          rw [hrest, hremaining] at hleft
          omega

end Runs

section Statement

variable (b : Build) (src : Source) (offset : ℕ → Exec ℕ) (clusterBytes size : ℕ) (hasMap : Bool)
  (accept : σ → List UInt8 → Option σ) (isFree : ℕ → Bool) (max start : ℕ) (state : σ)

/-- The states that the copy with the check comes to. -/
def Reached (s : Copy σ) : Prop :=
  Reaches (body b src offset clusterBytes size hasMap accept) (ofStart size isFree max start (some state)) s

/-- A search that has begun in one state, with nothing passed over, is given up in another. -/
structure GivenUp (s₀ s : Copy σ) : Prop where
  begun : Reached b src offset clusterBytes size hasMap accept isFree max start state s₀
  searched : Reaches (body b src offset clusterBytes size hasMap accept) s₀ s
  tries : s₀.tries = 0
  used : s.used = s₀.used
  abandons : s.Abandons src offset clusterBytes hasMap accept

/-- Where a search is given up, the file is that of the copy without the check from the point
where the search began. -/
def Undone : Prop :=
  ∀ s₀ s, GivenUp b src offset clusterBytes size hasMap accept isFree max start state s₀ s →
    ((loop b src offset clusterBytes size hasMap accept).eval s).out =
      ((loop b src offset clusterBytes size hasMap accept).eval s₀.unchecked).out

/-- If the walk holds the file, what is behind each cluster that is passed over holds what the
file lacks there; and where a search is given up, the clusters from there on hold the bytes
that those from its beginning on hold. -/
structure EnoughBehind : Prop where
  passed : size ≤ (supply src offset clusterBytes size
      ((ofStart size isFree max start (some state)).ahead b hasMap)).length →
    ∀ s, Reached b src offset clusterBytes size hasMap accept isFree max start state s →
      s.Passes src offset clusterBytes hasMap accept →
      s.remaining ≤ (supply src offset clusterBytes s.remaining (s.ahead b hasMap).tail).length
  givenUp : ∀ s₀ s, GivenUp b src offset clusterBytes size hasMap accept isFree max start state s₀ s →
    supply src offset clusterBytes s.remaining (s.ahead b hasMap) =
      supply src offset clusterBytes s₀.remaining (s₀.ahead b hasMap)

end Statement

section Exact

variable {b : Build} {src : Source} {offset : ℕ → Exec ℕ} {clusterBytes size : ℕ} {hasMap : Bool}
  {accept : σ → List UInt8 → Option σ} {isFree : ℕ → Bool} {max start : ℕ} {state : σ} {s s₀ : Copy σ}

theorem Inv.unchecked (hi : Inv src offset clusterBytes size isFree max start s) :
    Inv src offset clusterBytes size isFree max start s.unchecked :=
  ⟨hi.kept, hi.located, hi.used, hi.first, hi.next, hi.written, hi.ordered, hi.out, hi.remaining, hi.begun⟩

/-- Giving up goes on as a copy without the check does. -/
theorem Abandons.eval_eq (h : s.Abandons src offset clusterBytes hasMap accept) :
    (loop b src offset clusterBytes size hasMap accept).eval s =
      (loop b src offset clusterBytes size hasMap accept).eval s.unchecked := by
  obtain ⟨c, data, state, htries, -, -, hjudge⟩ := h
  have htries' : s.unchecked.Tries src offset clusterBytes c data := htries
  have hbody : body b src offset clusterBytes size hasMap accept s =
      body b src offset clusterBytes size hasMap accept s.unchecked := by
    rw [body_writes htries hjudge, body_writes htries' (judge_unchecked data rfl)]
    rfl
  cases hb : body b src offset clusterBytes size hasMap accept s.unchecked with
  | done r => rw [While.eval_done (loop b src offset clusterBytes size hasMap accept) hb,
      While.eval_done (loop b src offset clusterBytes size hasMap accept) (hbody.trans hb)]
  | next s' => rw [While.eval_next (loop b src offset clusterBytes size hasMap accept) hb,
      While.eval_next (loop b src offset clusterBytes size hasMap accept) (hbody.trans hb)]

/-- A round that passes nothing over is that of a copy without the check. -/
theorem body_unchecked (b : Build) (size : ℕ) (h : ¬ s.Passes src offset clusterBytes hasMap accept) :
    (∃ r, body b src offset clusterBytes size hasMap accept s = .done r ∧
      body b src offset clusterBytes size hasMap accept s.unchecked = .done r) ∨
    ∃ s', body b src offset clusterBytes size hasMap accept s = .next s' ∧
      body b src offset clusterBytes size hasMap accept s.unchecked = .next s'.unchecked := by
  by_cases hremaining : s.remaining = 0
  · exact .inl ⟨_, if_pos hremaining, if_pos hremaining⟩
  cases hc : s.cluster with
  | none =>
    have hc' : s.unchecked.cluster = none := hc
    exact .inl ⟨_, body_none hc, body_none hc'⟩
  | some c =>
    cases hread : readCluster src offset c (min s.remaining clusterBytes) with
    | error e => exact .inl ⟨_, body_error hremaining hc hread, body_error (s := s.unchecked) hremaining hc hread⟩
    | ok data =>
      by_cases hdata : data = []
      · rw [hdata] at hread
        exact .inl ⟨_, body_empty hremaining hc hread, body_empty (s := s.unchecked) hremaining hc hread⟩
      have htries : s.Tries src offset clusterBytes c data := ⟨Nat.pos_of_ne_zero hremaining, hc, hread, hdata⟩
      have htries' : s.unchecked.Tries src offset clusterBytes c data := htries
      cases hjudge : s.judge hasMap accept data with
      | retry => exact absurd ⟨c, data, htries, hjudge⟩ h
      | write jpeg =>
        rw [body_writes htries hjudge, body_writes htries' (judge_unchecked data rfl)]
        unfold go
        rw [show (s.write c data jpeg).walk = s.walk from rfl,
          show (s.unchecked.write c data none).walk = s.walk from rfl]
        cases s.walk.nextAfter b c hasMap with
        | error e => exact .inl ⟨_, rfl, rfl⟩
        | ok next => exact .inr ⟨_, rfl, rfl⟩

/-- A check that passes nothing over changes nothing. -/
theorem eval_unchecked
    (h : ∀ t, Reaches (body b src offset clusterBytes size hasMap accept) s t →
      ¬ t.Passes src offset clusterBytes hasMap accept) :
    (loop b src offset clusterBytes size hasMap accept).eval s =
      (loop b src offset clusterBytes size hasMap accept).eval s.unchecked := by
  induction s using (loop b src offset clusterBytes size hasMap accept).induct with
  | step s ih =>
    obtain ⟨r, hbody, hbody'⟩ | ⟨s', hbody, hbody'⟩ :=
      body_unchecked b size (h s .refl)
    · rw [While.eval_done _ hbody, While.eval_done (loop b src offset clusterBytes size hasMap accept) hbody']
    · rw [While.eval_next _ hbody, While.eval_next (loop b src offset clusterBytes size hasMap accept) hbody']
      exact ih s' hbody fun t ht => h t (.head hbody ht)

/-- Nothing is copied from a start that is no cluster of the volume. -/
theorem cluster_outside (hrange : ¬ (2 ≤ start ∧ start ≤ max))
    (h : Reached b src offset clusterBytes size hasMap accept isFree max start state s) : s.cluster = none := by
  have hcluster : (ofStart size isFree max start (some state)).cluster = none := if_neg hrange
  rcases Relation.ReflTransGen.cases_head h with rfl | ⟨s', hnext, -⟩
  · exact hcluster
  · rw [body_none hcluster] at hnext
    cases hnext

theorem Reached.inv (hrange : 2 ≤ start ∧ start ≤ max)
    (h : Reached b src offset clusterBytes size hasMap accept isFree max start state s) :
    Inv src offset clusterBytes size isFree max start s :=
  Reaches.inv (fun _ _ hi hb => inv_body hrange.2 hi hb) h (inv_ofStart hrange (some state))

theorem GivenUp.reached (h : GivenUp b src offset clusterBytes size hasMap accept isFree max start state s₀ s) :
    Reached b src offset clusterBytes size hasMap accept isFree max start state s :=
  Relation.ReflTransGen.trans h.begun h.searched

/-- Where the end of the walk cannot be told the copy ends with its first cluster, and nothing is
passed over. -/
theorem not_passes (hwalk : ¬ Walkable b max)
    (h : Reached b src offset clusterBytes size hasMap accept isFree max start state s) :
    ¬ s.Passes src offset clusterBytes hasMap accept := by
  have hinv : (s.walk.max = max ∧ s.walk.wrapped = false) ∧ (s.written = 0 ∨ s.cluster = none) := by
    refine Reaches.inv (I := fun s : Copy σ =>
      (s.walk.max = max ∧ s.walk.wrapped = false) ∧ (s.written = 0 ∨ s.cluster = none)) (fun t t' ht hnext => ?_)
      h ⟨⟨rfl, rfl⟩, .inl rfl⟩
    obtain ⟨⟨hmax, hwrapped⟩, hbegun⟩ := ht
    obtain ⟨-, c, data, hc, -, -, ⟨hjudge, -⟩ | ⟨jpeg, -, hgo⟩⟩ := body_next hnext
    · rcases hbegun with hzero | hnone
      · exact absurd hzero (judge_retry hjudge)
      · rw [hnone] at hc
        cases hc
    · have hstop : ∀ stop, t.walk.stop b ≠ .ok stop := by
        intro stop hstop
        rw [FreeWalk.stop, hwrapped, hmax] at hstop
        exact hwalk ⟨stop, hstop⟩
      obtain ⟨cluster, walk, hafter, rfl⟩ := go_next hgo
      obtain ⟨rfl, rfl⟩ := FreeWalk.nextAfter_stuck hstop hafter
      exact ⟨⟨hmax, hwrapped⟩, .inr rfl⟩
  rintro ⟨c, data, ⟨-, hc, -⟩, hjudge⟩
  rcases hinv.2 with hzero | hnone
  · exact judge_retry hjudge hzero
  · rw [hnone] at hc
    cases hc

/-- A copy without the check passes nothing over. -/
theorem not_passes_unchecked (hs : s₀.jpeg = none)
    (h : Reaches (body b src offset clusterBytes size hasMap accept) s₀ s) :
    ¬ s.Passes src offset clusterBytes hasMap accept := by
  have hjpeg : s.jpeg = none := by
    refine Reaches.inv (I := fun s : Copy σ => s.jpeg = none) (fun t t' ht hnext => ?_) h hs
    obtain ⟨-, c, data, -, -, -, ⟨hjudge, -⟩ | ⟨jpeg, hjudge, hgo⟩⟩ := body_next hnext
    · rw [judge_unchecked data ht] at hjudge
      cases hjudge
    · rw [judge_unchecked data ht] at hjudge
      cases hjudge
      obtain ⟨cluster, walk, -, rfl⟩ := go_next hgo
      rfl
  rintro ⟨c, data, -, hjudge⟩
  rw [judge_unchecked data hjpeg] at hjudge
  cases hjudge

/-- Nothing but the check sets the two copies apart at their start. -/
theorem run_unchecked (h : ∀ s, Reached b src offset clusterBytes size hasMap accept isFree max start state s →
      ¬ s.Passes src offset clusterBytes hasMap accept) :
    run b src offset clusterBytes size hasMap accept isFree max start (some state) =
      run b src offset clusterBytes size hasMap accept isFree max start none :=
  eval_unchecked h

/-- The check takes nothing from the size of the file exactly when the clusters behind suffice. -/
theorem full_iff (hless : src.ReadsLess) (hmax : max < 2 ^ 32) :
    ((run b src offset clusterBytes size hasMap accept isFree max start none).result = .ok size →
      (run b src offset clusterBytes size hasMap accept isFree max start (some state)).result = .ok size) ↔
    (size ≤ (supply src offset clusterBytes size
        ((ofStart size isFree max start (some state)).ahead b hasMap)).length →
      ∀ s, Reached b src offset clusterBytes size hasMap accept isFree max start state s →
        s.Passes src offset clusterBytes hasMap accept →
        s.remaining ≤ (supply src offset clusterBytes s.remaining (s.ahead b hasMap).tail).length) := by
  by_cases hpasses : ∃ s, Reached b src offset clusterBytes size hasMap accept isFree max start state s ∧
    s.Passes src offset clusterBytes hasMap accept
  · obtain ⟨t, ht, htpasses⟩ := hpasses
    have hwalk : Walkable b max := by
      by_contra hwalk
      exact not_passes hwalk ht htpasses
    have hrange : 2 ≤ start ∧ start ≤ max := by
      by_contra hrange
      obtain ⟨c, data, ⟨-, hc, -⟩, -⟩ := htpasses
      rw [cluster_outside hrange ht] at hc
      cases hc
    have hinit (jpeg : Option σ) :
        Inv src offset clusterBytes size isFree max start (ofStart size isFree max start jpeg) :=
      inv_ofStart hrange jpeg
    have hplain : (run b src offset clusterBytes size hasMap accept isFree max start none).result = .ok size ↔
        size ≤ (supply src offset clusterBytes size
          ((ofStart size isFree max start (some state)).ahead b hasMap)).length :=
      ⟨fun h => (hinit none).room_of_full hless hrange.2 hmax h,
        fun h => (hinit none).full_of_room hrange.2 hmax hwalk
          (fun s hs hpass => absurd hpass (not_passes_unchecked rfl hs)) h⟩
    rw [hplain]
    refine imp_congr_right fun hroom => ⟨fun hfull s hs hpass => ?_, fun h => ?_⟩
    · obtain ⟨c, data, htries, hjudge⟩ := hpass
      unfold run at hfull
      rw [While.eval_of_reaches (loop b src offset clusterBytes size hasMap accept) hs] at hfull
      obtain ⟨e, hbody, -⟩ | ⟨s', hbody, hi', hrest, hremaining⟩ :=
        (Reached.inv hrange hs).passes b hrange.2 hmax htries hjudge
      · rw [While.eval_done (loop b src offset clusterBytes size hasMap accept) hbody] at hfull
        cases hfull
      · rw [While.eval_next (loop b src offset clusterBytes size hasMap accept) hbody] at hfull
        have hleft := hi'.room_of_full hless hrange.2 hmax hfull
        rwa [ahead_some htries.2.1, List.tail_cons, ← hrest, ← hremaining]
    · exact (hinit (some state)).full_of_room hrange.2 hmax hwalk h hroom
  · have hnone := not_exists.mp hpasses
    rw [run_unchecked fun s hs hpass => hnone s ⟨hs, hpass⟩]
    exact iff_of_true id fun _ s hs hpass => absurd ⟨hs, hpass⟩ (hnone s)

/-- Where a search is given up nothing changes exactly when the clusters from there on hold what
those from its beginning on hold. -/
theorem undone_iff (hmax : max < 2 ^ 32) :
    Undone b src offset clusterBytes size hasMap accept isFree max start state ↔
    ∀ s₀ s, GivenUp b src offset clusterBytes size hasMap accept isFree max start state s₀ s →
      supply src offset clusterBytes s.remaining (s.ahead b hasMap) =
        supply src offset clusterBytes s₀.remaining (s₀.ahead b hasMap) := by
  refine forall₃_congr fun s₀ s h => ?_
  by_cases hrange : 2 ≤ start ∧ start ≤ max
  · have hi₀ := Reached.inv hrange h.begun
    have hi := Reached.inv hrange h.reached
    have hout : s.out = s₀.out := by rw [hi.out, hi₀.out, h.used]
    rw [h.abandons.eval_eq, hi.unchecked.out_unchecked hrange.2 hmax rfl,
      hi₀.unchecked.out_unchecked hrange.2 hmax rfl]
    change s.out ++ _ = s₀.out ++ _ ↔ _
    rw [hout, List.append_cancel_left_eq]
    rfl
  · obtain ⟨c, data, state', ⟨-, hc, -⟩, -⟩ := h.abandons
    rw [cluster_outside hrange h.reached] at hc
    cases hc

/-- The check never costs anything exactly when enough is behind what it passes over. -/
theorem enoughBehind_iff (hless : src.ReadsLess) (hmax : max < 2 ^ 32) :
    (((run b src offset clusterBytes size hasMap accept isFree max start none).result = .ok size →
        (run b src offset clusterBytes size hasMap accept isFree max start (some state)).result = .ok size) ∧
      Undone b src offset clusterBytes size hasMap accept isFree max start state) ↔
    EnoughBehind b src offset clusterBytes size hasMap accept isFree max start state := by
  rw [full_iff hless hmax, undone_iff hmax]
  exact ⟨fun h => ⟨h.1, h.2⟩, fun h => ⟨h.passed, h.givenUp⟩⟩

end Exact

end Copy

end Reassembly

open Reassembly

section Volumes

variable (b : Build) (src : Source) (start size : ℕ)

/-- Where the check of a copy is given up, the file is as if the check had never begun there. -/
def Fat.Volume.Undone (v : Fat.Volume) (fat : Option (List UInt8)) : Prop :=
  ∀ max, v.maxValidCluster b = .ok max →
    Copy.Undone b src (v.clusterOffset b) v.clusterBytes size fat.isSome JpegScan.accept
      (fun c => (fat.map (Fat.clusterIsFree v.fatType · c)).getD true) max start .new

/-- The clusters of the volume hold enough behind those that the check passes over. -/
def Fat.Volume.EnoughBehind (v : Fat.Volume) (fat : Option (List UInt8)) : Prop :=
  ∀ max, v.maxValidCluster b = .ok max →
    Copy.EnoughBehind b src (v.clusterOffset b) v.clusterBytes size fat.isSome JpegScan.accept
      (fun c => (fat.map (Fat.clusterIsFree v.fatType · c)).getD true) max start .new

def Exfat.Volume.Undone (v : Exfat.Volume) (bitmap : Option (List UInt8)) : Prop :=
  ∀ clusterBytes < 2 ^ 63, v.clusterBytes b = .ok clusterBytes →
    Copy.Undone b src (fun c => .ok (v.clusterOffset c)) clusterBytes size bitmap.isSome JpegScan.accept
      (fun c => (bitmap.map fun m => !Exfat.clusterAllocated m c).getD true) v.maxValidCluster start .new

def Exfat.Volume.EnoughBehind (v : Exfat.Volume) (bitmap : Option (List UInt8)) : Prop :=
  ∀ clusterBytes < 2 ^ 63, v.clusterBytes b = .ok clusterBytes →
    Copy.EnoughBehind b src (fun c => .ok (v.clusterOffset c)) clusterBytes size bitmap.isSome JpegScan.accept
      (fun c => (bitmap.map fun m => !Exfat.clusterAllocated m c).getD true) v.maxValidCluster start .new

variable {b src start size}

theorem Fat.Volume.maxValidCluster_lt {v : Fat.Volume} {max : ℕ} (h : v.maxValidCluster b = .ok max) :
    max < 2 ^ 32 :=
  plus32_lt h

theorem Fat.Volume.enoughBehind_iff (v : Fat.Volume) (fat : Option (List UInt8)) (hless : src.ReadsLess) :
    (((v.writeFile b src JpegScan.accept start size none fat).result = .ok size →
        (v.writeFile b src JpegScan.accept start size (some .new) fat).result = .ok size) ∧
      v.Undone b src start size fat) ↔
    v.EnoughBehind b src start size fat := by
  unfold Fat.Volume.writeFile Fat.Volume.Undone Fat.Volume.EnoughBehind
  cases hmax : v.maxValidCluster b with
  | error e =>
    exact iff_of_true ⟨fun h => (by cases h), fun m hm => by cases hm⟩ fun m hm => by cases hm
  | ok max =>
    have hiff := @Copy.enoughBehind_iff _ b src (v.clusterOffset b) v.clusterBytes size fat.isSome JpegScan.accept
      (fun c => (fat.map (Fat.clusterIsFree v.fatType · c)).getD true) max start .new hless
      (Fat.Volume.maxValidCluster_lt hmax)
    constructor
    · rintro ⟨hfull, hundone⟩ m hm
      cases hm
      exact hiff.mp ⟨hfull, hundone max rfl⟩
    · intro henough
      obtain ⟨hfull, hundone⟩ := hiff.mpr (henough max rfl)
      refine ⟨hfull, fun m hm => ?_⟩
      cases hm
      exact hundone

theorem Exfat.Volume.enoughBehind_iff (v : Exfat.Volume) (bitmap : Option (List UInt8)) (hless : src.ReadsLess) :
    (((v.copySkippingAllocated b src JpegScan.accept start size none bitmap).result = .ok size →
        (v.copySkippingAllocated b src JpegScan.accept start size (some .new) bitmap).result = .ok size) ∧
      v.Undone b src start size bitmap) ↔
    v.EnoughBehind b src start size bitmap := by
  unfold Exfat.Volume.copySkippingAllocated Exfat.Volume.Undone Exfat.Volume.EnoughBehind
  cases hbytes : v.clusterBytes b with
  | error e =>
    exact iff_of_true ⟨fun h => (by cases h), fun n _ hn => by cases hn⟩ fun n _ hn => by cases hn
  | ok clusterBytes =>
    dsimp only
    by_cases hcapacity : 2 ^ 63 ≤ clusterBytes
    · rw [if_pos hcapacity, if_pos hcapacity]
      have hfits : ∀ n < 2 ^ 63, (.ok clusterBytes : Exec ℕ) ≠ .ok n := by
        rintro n hn heq
        cases heq
        omega
      exact iff_of_true ⟨fun h => (by cases h), fun n hn hbytes => absurd hbytes (hfits n hn)⟩
        fun n hn hbytes => absurd hbytes (hfits n hn)
    · rw [if_neg hcapacity, if_neg hcapacity]
      have hiff := @Copy.enoughBehind_iff _ b src (fun c => .ok (v.clusterOffset c)) clusterBytes size bitmap.isSome
        JpegScan.accept (fun c => (bitmap.map fun m => !Exfat.clusterAllocated m c).getD true) v.maxValidCluster
        start .new hless (satAdd32_lt v.clusterCount 1)
      constructor
      · rintro ⟨hfull, hundone⟩ n hn hm
        cases hm
        exact hiff.mp ⟨hfull, hundone clusterBytes hn rfl⟩
      · intro henough
        obtain ⟨hfull, hundone⟩ := hiff.mpr (henough clusterBytes (not_le.mp hcapacity) rfl)
        refine ⟨hfull, fun n hn hm => ?_⟩
        cases hm
        exact hundone

end Volumes

namespace Reassembly

/-- For the copies of both kinds of volumes, the check of a JPEG costs no data exactly when enough
is behind what it passes over. -/
theorem jpeg_check_iff (b : Build) (src : Source) (hless : src.ReadsLess) (start size : ℕ) :
    (∀ (v : Fat.Volume) (fat : Option (List UInt8)),
      (((v.writeFile b src JpegScan.accept start size none fat).result = .ok size →
          (v.writeFile b src JpegScan.accept start size (some .new) fat).result = .ok size) ∧
        v.Undone b src start size fat) ↔
      v.EnoughBehind b src start size fat) ∧
    ∀ (v : Exfat.Volume) (bitmap : Option (List UInt8)),
      (((v.copySkippingAllocated b src JpegScan.accept start size none bitmap).result = .ok size →
          (v.copySkippingAllocated b src JpegScan.accept start size (some .new) bitmap).result = .ok size) ∧
        v.Undone b src start size bitmap) ↔
      v.EnoughBehind b src start size bitmap :=
  ⟨fun v fat => v.enoughBehind_iff fat hless, fun v bitmap => v.enoughBehind_iff bitmap hless⟩

/-- A volume of two free clusters: a JPEG begins in the first one, and the other one holds nothing
that fits behind it. -/
def halfJpeg : Source where
  data := [0xEB, 0, 0, 0, 0, 0, 0, 0, 0, 0, 0, 0, 2, 1, 1, 0, 1, 0, 0, 4, 0, 0, 1, 0] ++
    List.replicate 488 0 ++ [0xF8, 0xFF, 0xFF, 0, 0, 0] ++ List.replicate 506 0 ++
    [0xFF, 0xD8, 0xFF, 0xE0, 1, 0xFC] ++ List.replicate 506 0 ++ List.replicate 512 0
  size_lt := by decide +kernel

def halfTable : List UInt8 := [0xF8, 0xFF, 0xFF, 0, 0, 0] ++ List.replicate 506 0

/-- What is copied of a deleted file of 600 bytes that started at cluster 2. -/
def copyOfHalf (v : Fat.Volume) (jpeg : Option JpegScan) : Exec ℕ :=
  (v.writeFile .release halfJpeg JpegScan.accept 2 600 jpeg (some halfTable)).result

/-- The check passes the second cluster over and finds no other, so that the file is cut short. -/
theorem second_cluster_lost :
    ∃ v, Fat.Volume.parse halfJpeg 0 = .ok v ∧ v.loadFat .release halfJpeg = .ok (some halfTable) ∧
      copyOfHalf v none = .ok 600 ∧ copyOfHalf v (some .new) = .ok 512 ∧
      ¬ ∀ (w : Fat.Volume) (b : Build) (src : Source) (start size : ℕ) (fat : Option (List UInt8)),
        (w.writeFile b src JpegScan.accept start size none fat).result = .ok size →
        (w.writeFile b src JpegScan.accept start size (some .new) fat).result = .ok size := by
  have hrun : (Fat.Volume.parse halfJpeg 0).toOption.map (fun v =>
      (v.loadFat .release halfJpeg, copyOfHalf v none, copyOfHalf v (some .new))) =
        some (.ok (some halfTable), .ok 600, .ok 512) := by decide +kernel
  obtain ⟨v, hparse, hfields⟩ := Option.map_eq_some_iff.mp hrun
  obtain ⟨hfat, hplain, hchecked⟩ : v.loadFat .release halfJpeg = .ok (some halfTable) ∧
      copyOfHalf v none = .ok 600 ∧ copyOfHalf v (some .new) = .ok 512 := by
    simpa only [Prod.mk.injEq] using hfields
  refine ⟨v, ok_of_toOption hparse, hfat, hplain, hchecked, fun h => ?_⟩
  have hfull : copyOfHalf v (some .new) = .ok 600 := h v .release halfJpeg 2 600 (some halfTable) hplain
  rw [hchecked] at hfull
  cases hfull

/-- Nothing is behind the second cluster. -/
theorem nothing_behind_second :
    ∃ v, Fat.Volume.parse halfJpeg 0 = .ok v ∧ ¬ v.EnoughBehind .release halfJpeg 2 600 (some halfTable) := by
  have hrun : (Fat.Volume.parse halfJpeg 0).toOption.map (fun v =>
      (copyOfHalf v none, copyOfHalf v (some .new))) = some (.ok 600, .ok 512) := by decide +kernel
  obtain ⟨v, hparse, hfields⟩ := Option.map_eq_some_iff.mp hrun
  obtain ⟨hplain, hchecked⟩ : copyOfHalf v none = .ok 600 ∧ copyOfHalf v (some .new) = .ok 512 := by
    simpa only [Prod.mk.injEq] using hfields
  have hless : halfJpeg.ReadsLess := fun _ _ _ _ hfails => by cases hfails
  refine ⟨v, ok_of_toOption hparse, fun henough => ?_⟩
  have hfull : copyOfHalf v (some .new) = .ok 600 :=
    (((jpeg_check_iff .release halfJpeg hless 2 600).1 v (some halfTable)).mpr henough).1 hplain
  rw [hchecked] at hfull
  cases hfull

end Reassembly

end Unearth
