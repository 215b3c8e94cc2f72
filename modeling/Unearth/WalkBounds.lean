import Unearth.ExfatWalk
import Unearth.FatWalk

/-!
# Walks over directories end

However the directories of a volume are linked, a walk over them ends, reads none of them
twice, and leads to paths of bounded length made of sanitized components.
-/

namespace Unearth
open Lines Bytes Word Loop TreeWalk

/-- A path of at most `n` components, each of which was made out of a name. -/
def Sanitized (windows : Bool) (n : ℕ) (path : Path) : Prop :=
  path.length ≤ n ∧ ∀ c ∈ path, Component c ∧ ∃ name, c = sanitizeComponent windows name

theorem Sanitized.child {windows : Bool} {n : ℕ} {path : Path} (h : Sanitized windows n path)
    (name : Text) : Sanitized windows (n + 1) (path ++ [sanitizeComponent windows name]) := by
  constructor
  · rw [List.length_append]
    exact Nat.add_le_add_right h.1 1
  · intro c hc
    rcases List.mem_append.mp hc with hc | hc
    · exact h.2 c hc
    · cases List.mem_singleton.mp hc
      exact ⟨sanitizeComponent_component windows name, name, rfl⟩

theorem Sanitized.mono {windows : Bool} {m n : ℕ} {path : Path} (h : Sanitized windows m path)
    (hmn : m ≤ n) : Sanitized windows n path :=
  ⟨h.1.trans hmn, h.2⟩

namespace Fat

variable {windows : Bool} {identify : List UInt8 → Option Text} {b : Build} {v : Volume} {src : Source}

/-- The clusters that were read are new ones of the volume, and there is nothing without them. -/
structure NewReads (v : Volume) (before after : Finset ℕ) (reads : List ℕ) (bytes : List UInt8) : Prop where
  grows : before ⊆ after
  nodup : reads.Nodup
  new : ∀ k ∈ reads, k < v.countOfClusters + 2 ∧ k ∉ before ∧ k ∈ after
  bytes : bytes ≠ [] → reads ≠ []

theorem NewReads.none (v : Volume) (visited : Finset ℕ) : NewReads v visited visited [] [] :=
  ⟨Finset.Subset.refl _, List.nodup_nil, nofun, fun h => absurd rfl h⟩

theorem NewReads.visit {before after : Finset ℕ} {reads : List ℕ} {bytes : List UInt8}
    (h : NewReads v before after reads bytes) (c : ℕ) : NewReads v before (insert c after) reads bytes := by
  refine ⟨h.grows.trans (Finset.subset_insert _ _), h.nodup, fun k hk => ?_, h.bytes⟩
  obtain ⟨hlt, hbefore, hafter⟩ := h.new k hk
  exact ⟨hlt, hbefore, Finset.mem_insert_of_mem hafter⟩

theorem NewReads.read {before : Finset ℕ} {s : Reading src}
    (h : NewReads v before s.visited s.reads s.content.bytes) (hlink : v.Linked s) (bytes : List UInt8) :
    NewReads v before (insert s.cluster s.visited) (s.reads ++ [s.cluster]) bytes := by
  refine ⟨(h.visit _).grows, ?_, ?_, fun _ => List.append_ne_nil_of_right_ne_nil _ (List.cons_ne_nil _ _)⟩
  · rw [List.nodup_append]
    refine ⟨h.nodup, List.nodup_singleton _, fun k hk c hc heq => hlink.new ?_⟩
    cases List.mem_singleton.mp hc
    exact heq ▸ (h.new k hk).2.2
  · intro k hk
    rcases List.mem_append.mp hk with hk | hk
    · exact (h.visit _).new k hk
    · cases List.mem_singleton.mp hk
      exact ⟨hlink.high, fun hbefore => hlink.new (h.grows hbefore), Finset.mem_insert_self _ _⟩

theorem chainBody_newReads {before : Finset ℕ} {limit : ℕ} (s : Reading src)
    (h : NewReads v before s.visited s.reads s.content.bytes) :
    (v.chainBody b src limit s).Sat (fun s' => NewReads v before s'.visited s'.reads s'.content.bytes)
      (fun d => NewReads v before d.visited d.reads d.content.bytes) := by
  cases hbody : v.chainBody b src limit s with
  | next s' =>
    obtain ⟨hlink, hvisited, hreads⟩ := Volume.chainBody_next hbody
    dsimp only [Ctl.Sat]
    rw [hvisited, hreads]
    exact h.read hlink _
  | done d =>
    dsimp only [Ctl.Sat]
    obtain ⟨hvisited, hreads, hcontent⟩ | ⟨hlink, hvisited, ⟨hreads, hcontent⟩ | hreads⟩ :=
      Volume.chainBody_done hbody
    · rw [hvisited, hreads, hcontent]
      exact h
    · rw [hvisited, hreads, hcontent]
      exact h.visit _
    · rw [hvisited, hreads]
      exact h.read hlink _

theorem chain_newReads (v : Volume) (b : Build) (src : Source) (start : ℕ) (visited : Finset ℕ) :
    let d := v.readDirectory b src (.cluster start) visited
    NewReads v visited d.visited d.reads d.content.bytes :=
  (v.chain b src maxDirBytes).eval_inv
    (I := fun s => NewReads v visited s.visited s.reads s.content.bytes)
    (Q := fun d => NewReads v visited d.visited d.reads d.content.bytes)
    (fun s hs => chainBody_newReads s hs) (NewReads.none v visited)

theorem rootRegion_reads (visited : Finset ℕ) :
    (v.readDirectory b src .rootRegion visited).visited = visited ∧
      (v.readDirectory b src .rootRegion visited).reads = [] := by
  unfold Volume.readDirectory Volume.readUpTo
  dsimp only
  split <;> exact ⟨rfl, rfl⟩

theorem visit_fresh : Fresh (v.visit windows identify b src) := by
  constructor
  · intro visited frame
    rw [Volume.visit_reads.1]
    cases frame.loc with
    | rootRegion => rw [(rootRegion_reads visited).1]
    | cluster start => exact (chain_newReads v b src start visited).grows
  · intro visited frame
    rw [Volume.visit_reads.2]
    cases frame.loc with
    | rootRegion =>
      rw [(rootRegion_reads visited).2]
      exact List.nodup_nil
    | cluster start => exact (chain_newReads v b src start visited).nodup
  · intro visited frame
    rw [Volume.visit_reads.1, Volume.visit_reads.2]
    cases frame.loc with
    | rootRegion =>
      rw [(rootRegion_reads visited).2]
      exact nofun
    | cluster start => exact fun k hk => ((chain_newReads v b src start visited).new k hk).2

theorem visit_bounded (windows : Bool) (identify : List UInt8 → Option Text) (b : Build) (v : Volume)
    (src : Source) : Bounded (v.visit windows identify b src) (v.countOfClusters + 2)
    (fun frame => ∃ start, frame.loc = .cluster start) := by
  constructor
  · exact visit_fresh.grows
  · intro visited frame g hg
    obtain ⟨hnone, -⟩ | ⟨-, -, list, hlist, hpushed, -⟩ :=
      Volume.visit_lists windows identify b v src visited frame
    · rw [hnone] at hg
      cases hg
    · rw [hpushed, hlist] at hg
      obtain ⟨entry, -, hg⟩ := Volume.mem_pushed hg
      obtain ⟨-, start, hloc, -⟩ := Volume.listEntry_pushed hg
      exact ⟨start, hloc⟩
  · rintro visited frame ⟨start, hloc⟩ hne
    obtain ⟨hnone, -⟩ | ⟨-, -, list, hlist, hpushed, -⟩ :=
      Volume.visit_lists windows identify b v src visited frame
    · exact absurd hnone hne
    · rw [hpushed, hlist] at hne
      obtain ⟨g, hg⟩ := List.exists_mem_of_ne_nil _ hne
      obtain ⟨entry, hentry, -⟩ := Volume.mem_pushed hg
      have hlength := (mem_parseEntries hentry).1
      rw [Volume.visit_reads.1]
      rw [hloc] at hlength ⊢
      have hreads := (chain_newReads v b src start visited).bytes fun hnil => by
        rw [hnil, List.length_nil] at hlength
        exact absurd hlength (by simp [entrySize])
      obtain ⟨k, hk⟩ := List.exists_mem_of_ne_nil _ hreads
      exact ⟨k, (chain_newReads v b src start visited).new k hk⟩

/-- A frame at a depth has a path of that length. -/
def Framed (windows : Bool) (frame : Frame) : Prop :=
  Sanitized windows frame.depth frame.path ∧ frame.depth ≤ maxDirDepth

theorem framed_pushed (visited : Finset ℕ) (frame : Frame) (hframe : Framed windows frame) :
    ∀ g ∈ (v.visit windows identify b src visited frame).pushed, Framed windows g := by
  intro g hg
  obtain ⟨hnone, -⟩ | ⟨-, -, list, hlist, hpushed, -⟩ :=
    Volume.visit_lists windows identify b v src visited frame
  · rw [hnone] at hg
    cases hg
  · rw [hpushed, hlist] at hg
    obtain ⟨entry, -, hg⟩ := Volume.mem_pushed hg
    obtain ⟨hdepth, start, -, hpath, hdeeper⟩ := Volume.listEntry_pushed hg
    unfold Framed
    rw [hpath, hdeeper]
    exact ⟨hframe.1.child _, hdepth⟩

theorem sanitized_reports (visited : Finset ℕ) (frame : Frame) (hframe : Framed windows frame) :
    ∀ p ∈ (v.visit windows identify b src visited frame).reports,
      Sanitized windows (maxDirDepth + 1) p.file.path := by
  intro p hp
  obtain ⟨-, hnone⟩ | ⟨-, -, list, hlist, -, hreports⟩ :=
    Volume.visit_lists windows identify b v src visited frame
  · rw [hnone] at hp
    cases hp
  · rw [hreports, hlist] at hp
    obtain ⟨entry, -, hp⟩ := Volume.mem_reports.mp hp
    obtain ⟨-, -, -, hpath⟩ := Volume.listEntry_reports hp
    rw [hpath]
    exact (hframe.1.child _).mono (Nat.add_le_add_right hframe.2 1)

/-- The walk over a volume ends, and so does each reading of a directory. No data cluster is
read twice as part of a directory, and the paths are sanitized and not too long. -/
structure WalkBounded (windows : Bool) (identify : List UInt8 → Option Text) (b : Build) (v : Volume)
    (src : Source) : Prop where
  directory_ends : ∀ start visited, ∃ n, run (v.chainBody b src maxDirBytes) n
    ⟨start, visited, [], .empty src⟩ = some (v.readDirectory b src (.cluster start) visited)
  ends : ∃ fuel r, v.walk windows identify b src fuel = some r
  once : ∀ fuel r, v.walk windows identify b src fuel = some r → r.reads.Nodup
  paths : ∀ fuel r, v.walk windows identify b src fuel = some r → ∀ p ∈ r.reports,
    Sanitized windows (maxDirDepth + 1) p.file.path

theorem walk_bounded (windows : Bool) (identify : List UInt8 → Option Text) (b : Build) (v : Volume)
    (src : Source) : WalkBounded windows identify b v src := by
  constructor
  · exact fun start visited => ⟨_, (v.chain b src maxDirBytes).run_eval _⟩
  · exact exists_walk (visit_bounded windows identify b v src) _
  · exact fun fuel r h => reads_nodup visit_fresh h
  · intro fuel r h
    have hroot : Framed windows v.rootFrame :=
      ⟨⟨Nat.zero_le _, fun c hc => absurd hc List.not_mem_nil⟩, Nat.zero_le _⟩
    exact reports_inv framed_pushed sanitized_reports hroot h

end Fat

namespace Exfat

variable {windows : Bool} {b : Build} {v : Volume} {src : Source}

/-- The clusters of a chain that were read are the ones that the guard has seen, once each. -/
theorem chainBody_nodup {limit clusterBytes : ℕ} {len : Option ℕ} (s : Reading src)
    (h : s.reads.Nodup ∧ ∀ k ∈ s.reads, k ∈ s.guard) :
    (v.chainBody src limit clusterBytes len s).Sat
      (fun s' => s'.reads.Nodup ∧ ∀ k ∈ s'.reads, k ∈ s'.guard) (fun d => d.reads.Nodup) := by
  have hread : v.Linked s → (s.reads ++ [s.cluster]).Nodup := by
    intro hlink
    rw [List.nodup_append]
    refine ⟨h.1, List.nodup_singleton _, fun k hk c hc heq => hlink.new ?_⟩
    cases List.mem_singleton.mp hc
    exact heq ▸ h.2 k hk
  cases hbody : v.chainBody src limit clusterBytes len s with
  | next s' =>
    obtain ⟨hlink, hguard, hreads⟩ := Volume.chainBody_next hbody
    dsimp only [Ctl.Sat]
    rw [hguard, hreads]
    refine ⟨hread hlink, fun k hk => ?_⟩
    rcases List.mem_append.mp hk with hk | hk
    · exact Finset.mem_insert_of_mem (h.2 k hk)
    · cases List.mem_singleton.mp hk
      exact Finset.mem_insert_self _ _
  | done d =>
    dsimp only [Ctl.Sat]
    obtain hreads | ⟨hlink, hreads⟩ := Volume.chainBody_done hbody
    · rw [hreads]
      exact h.1
    · rw [hreads]
      exact hread hlink

theorem pieceBody_reads {limit clusterBytes : ℕ} (s : Piece src) :
    (Volume.pieceBody src limit clusterBytes s).Sat (fun _ => True) (fun d => d.reads = []) := by
  unfold Volume.pieceBody
  split
  · rfl
  · dsimp only
    split
    · rfl
    · split
      · rfl
      · split
        · rfl
        · trivial

theorem readDirectory_nodup (firstCluster : ℕ) (len : Option ℕ) (contiguous : Bool) :
    (v.readDirectory src b firstCluster len contiguous).reads.Nodup := by
  unfold Volume.readDirectory Volume.readUpTo
  split
  · exact List.nodup_nil
  · rename_i clusterBytes hbytes
    split
    · have hnone := (Volume.piece src maxDirBytes clusterBytes).eval_inv (I := fun _ => True)
        (Q := fun d => d.reads = []) (fun s _ => pieceBody_reads s)
        (s := ⟨.empty src, len.getD clusterBytes, v.clusterOffset firstCluster⟩) trivial
      rw [hnone]
      exact List.nodup_nil
    · exact (v.chain src maxDirBytes clusterBytes len).eval_inv
        (I := fun s => s.reads.Nodup ∧ ∀ k ∈ s.reads, k ∈ s.guard) (Q := fun d => d.reads.Nodup)
        (fun s hs => chainBody_nodup s hs) ⟨List.nodup_nil, fun k hk => absurd hk List.not_mem_nil⟩

theorem visit_fresh : Fresh (v.visit windows b src) := by
  constructor
  · intro visited frame
    obtain ⟨-, hvisited, -⟩ | ⟨-, hvisited, -⟩ := Volume.visit_reads windows b v src visited frame
    · rw [hvisited]
    · rw [hvisited]
      exact Finset.subset_insert _ _
  · intro visited frame
    obtain ⟨-, -, hreads⟩ | ⟨-, -, hreads⟩ := Volume.visit_reads windows b v src visited frame
    · rw [hreads]
      exact List.nodup_nil
    · rw [hreads]
      exact List.nodup_singleton _
  · intro visited frame k hk
    obtain ⟨-, -, hreads⟩ | ⟨hnew, hvisited, hreads⟩ := Volume.visit_reads windows b v src visited frame
    · rw [hreads] at hk
      cases hk
    · rw [hreads] at hk
      cases List.mem_singleton.mp hk
      rw [hvisited]
      exact ⟨hnew, Finset.mem_insert_self _ _⟩

theorem visit_bounded (windows : Bool) (b : Build) (v : Volume) (src : Source) :
    Bounded (v.visit windows b src) (v.maxValidCluster + 1) (fun frame => frame.cluster < v.maxValidCluster + 1) := by
  constructor
  · exact visit_fresh.grows
  · intro visited frame g hg
    obtain ⟨hnone, -⟩ | ⟨-, -, list, hlist, hpushed, -⟩ := Volume.visit_lists windows b v src visited frame
    · rw [hnone] at hg
      cases hg
    · rw [hpushed, hlist] at hg
      exact (Volume.mem_pushed hg).2.1
  · intro visited frame hframe hne
    obtain ⟨hseen, -⟩ | ⟨hnew, hvisited, -⟩ := Volume.visit_reads windows b v src visited frame
    · obtain ⟨hnone, -⟩ | ⟨hnew, -⟩ := Volume.visit_lists windows b v src visited frame
      · exact absurd hnone hne
      · exact absurd hseen hnew
    · rw [hvisited]
      exact ⟨frame.cluster, hframe, hnew, Finset.mem_insert_self _ _⟩

/-- A frame at a depth has a path of that length. -/
def Framed (windows : Bool) (frame : Frame) : Prop :=
  Sanitized windows frame.depth frame.path ∧ frame.depth ≤ maxDirDepth

theorem framed_pushed (visited : Finset ℕ) (frame : Frame) (hframe : Framed windows frame) :
    ∀ g ∈ (v.visit windows b src visited frame).pushed, Framed windows g := by
  intro g hg
  obtain ⟨hnone, -⟩ | ⟨-, -, list, hlist, hpushed, -⟩ := Volume.visit_lists windows b v src visited frame
  · rw [hnone] at hg
    cases hg
  · rw [hpushed, hlist] at hg
    obtain ⟨hdepth, -, item, -, hpath, hdeeper⟩ := Volume.mem_pushed hg
    unfold Framed
    rw [hpath, hdeeper]
    exact ⟨hframe.1.child _, hdepth⟩

theorem sanitized_reports (visited : Finset ℕ) (frame : Frame) (hframe : Framed windows frame) :
    ∀ p ∈ (v.visit windows b src visited frame).reports,
      Sanitized windows (maxDirDepth + 1) p.file.path := by
  intro p hp
  obtain ⟨-, hnone⟩ | ⟨-, -, list, hlist, -, hreports⟩ := Volume.visit_lists windows b v src visited frame
  · rw [hnone] at hp
    cases hp
  · rw [hreports, hlist] at hp
    obtain ⟨item, -, -, -, -, hpath⟩ := Volume.mem_reports hp
    rw [hpath]
    exact (hframe.1.child _).mono (Nat.add_le_add_right hframe.2 1)

/-- The walk over a volume ends, and so does each reading of a directory. No directory is
read twice for its first cluster, no cluster of a chain twice for the chain, and the paths
are sanitized and not too long. -/
structure WalkBounded (windows : Bool) (b : Build) (v : Volume) (src : Source) : Prop where
  pieces_end : ∀ clusterBytes (s : Piece src), ∃ n d,
    run (Volume.pieceBody src maxDirBytes clusterBytes) n s = some d
  chains_end : ∀ clusterBytes len (s : Reading src), ∃ n d,
    run (v.chainBody src maxDirBytes clusterBytes len) n s = some d
  chain_once : ∀ firstCluster len contiguous,
    (v.readDirectory src b firstCluster len contiguous).reads.Nodup
  ends : ∃ fuel r, v.walk windows b src fuel = some r
  once : ∀ fuel r, v.walk windows b src fuel = some r → r.reads.Nodup
  paths : ∀ fuel r, v.walk windows b src fuel = some r → ∀ p ∈ r.reports,
    Sanitized windows (maxDirDepth + 1) p.file.path

theorem walk_bounded (windows : Bool) (b : Build) (v : Volume) (src : Source) :
    WalkBounded windows b v src := by
  constructor
  · exact fun clusterBytes s => ⟨_, _, (Volume.piece src maxDirBytes clusterBytes).run_eval s⟩
  · exact fun clusterBytes len s => ⟨_, _, (v.chain src maxDirBytes clusterBytes len).run_eval s⟩
  · exact fun firstCluster len contiguous => readDirectory_nodup firstCluster len contiguous
  · exact exists_walk (visit_bounded windows b v src) _
  · exact fun fuel r h => reads_nodup visit_fresh h
  · intro fuel r h
    have hroot : Framed windows v.rootFrame :=
      ⟨⟨Nat.zero_le _, fun c hc => absurd hc List.not_mem_nil⟩, Nat.zero_le _⟩
    exact reports_inv framed_pushed sanitized_reports hroot h

end Exfat

/-- The walks over the directories of both kinds of volumes end, whatever is in them. -/
theorem walks_bounded (windows : Bool) (b : Build) (src : Source) :
    (∀ identify v, Fat.WalkBounded windows identify b v src) ∧
    ∀ v, Exfat.WalkBounded windows b v src :=
  ⟨fun identify v => Fat.walk_bounded windows identify b v src,
    fun v => Exfat.walk_bounded windows b v src⟩

end Unearth
