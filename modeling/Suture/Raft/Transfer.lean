import Suture.Raft.Calls
import Suture.Raft.Safety

/-!
# Sending a snapshot

`install_snapshot` replaces the log of a node that is behind; the handler of the message only
compacts it, which reaches no further than the entries it has. The leader's handler of the
answer leaves `next_index` where it is.
-/

namespace Suture.Raft
set_option autoImplicit false

/-- The log is the one the snapshot stands for, with nothing below it. -/
structure Installed (log : RaftLog) (s : Snapshot) : Prop where
  index : log.snapshotIndex = s.lastIncludedIndex
  term : log.snapshotTerm = s.lastIncludedTerm
  above : ∀ e ∈ log.entries, s.lastIncludedIndex < e.index

def succeeds : RaftMessage → Bool
  | .appendEntriesResponse _ success _ => success
  | _ => false

/-- The entries after the snapshot are taken. -/
def Follows (f : RaftNode) (s : Snapshot) : Prop :=
  ∀ term leaderId entries leaderCommit, f.currentTerm ≤ term →
    succeeds (f.handleAppendEntries term leaderId s.lastIncludedIndex s.lastIncludedTerm entries
      leaderCommit).2 = true

/-- What follower and leader are to have done when the answer is in. -/
structure CatchesUp (follower leader : RaftNode) (peer : NodeId) (s : Snapshot)
    (request : RaftMessage) : Prop where
  installed : Installed follower.log s
  follows : Follows follower s
  moved : (peer, request) ∉ leader.replicateLog

variable {f l : RaftNode} {s : Snapshot}

/-! ### The direct call -/

theorem installSnapshot_installed (h : f.log.Aligned)
    (hbehind : f.log.lastIndex < s.lastIncludedIndex) :
    Installed (f.installSnapshot s).1.log s := by
  have hlast := h.compact_lastIndex s.lastIncludedIndex
  have hindex : (f.log.compact s.lastIncludedIndex).snapshotIndex < s.lastIncludedIndex := by
    rw [RaftLog.lastIndex] at hlast
    omega
  rw [RaftNode.installSnapshot, if_neg (by omega)]
  simp only [if_pos hindex, RaftLog.setSnapshot]
  exact ⟨rfl, rfl, fun _ he => absurd he List.not_mem_nil⟩

theorem Installed.follows (h : Installed f.log s) (hpos : 0 < s.lastIncludedIndex) :
    Follows f s := by
  intro term leaderId entries leaderCommit hterm
  have hprev : RaftNode.prevMatches f.log s.lastIncludedIndex s.lastIncludedTerm = true := by
    have hboundary : s.lastIncludedIndex = f.log.snapshotIndex ∧ 0 < f.log.snapshotIndex :=
      ⟨h.index.symm, h.index ▸ hpos⟩
    rw [RaftNode.prevMatches, RaftLog.termFor, if_pos hboundary, h.term]
    simp
  have hfollower : RaftNode.prevMatches (f.followLeader term leaderId).log s.lastIncludedIndex
      s.lastIncludedTerm = true := hprev
  rw [RaftNode.handleAppendEntries, if_neg (by omega)]
  simp only [if_pos hfollower]
  rfl

/-! ### The message -/

theorem handleInstallSnapshot_lastIndex (h : f.log.Aligned) (term leaderId : Nat) (s : Snapshot) :
    (f.handleInstallSnapshot term leaderId s).1.log.lastIndex = f.log.lastIndex := by
  unfold RaftNode.handleInstallSnapshot
  split
  · rfl
  · have hlog : (f.followLeader term leaderId).log = f.log := rfl
    dsimp only
    rw [hlog]
    split
    · split
      · rw [(h.compact _).compact_lastIndex, h.compact_lastIndex]
      · exact h.compact_lastIndex _
    · rfl

theorem replicationMessage_installSnapshot {peer : NodeId} {term leaderId : Nat}
    (h : l.replicationMessage peer = .installSnapshotRequest term leaderId s) :
    l.currentTerm = term := by
  simp only [RaftNode.replicationMessage] at h
  split at h
  · exact (RaftMessage.installSnapshotRequest.inj h).1
  · cases h

theorem handleInstallSnapshot_response {term leaderId : Nat} (hterm : f.currentTerm ≤ term) :
    (f.handleInstallSnapshot term leaderId s).2 = .installSnapshotResponse term := by
  unfold RaftNode.handleInstallSnapshot
  rw [if_neg (by omega)]
  simp only [RaftNode.followLeader]
  split
  · rfl
  · rw [show f.currentTerm = term by omega]

/-- A log that stops before the snapshot takes nothing that follows the snapshot. -/
theorem not_succeeds (hbehind : f.log.lastIndex < s.lastIncludedIndex)
    (term leaderId : Nat) (entries : List LogEntry) (leaderCommit : Nat) :
    succeeds (f.handleAppendEntries term leaderId s.lastIncludedIndex s.lastIncludedTerm entries
      leaderCommit).2 = false := by
  unfold RaftNode.handleAppendEntries
  split
  · rfl
  · dsimp only
    split
    · rename_i hprev
      have hle : s.lastIncludedIndex ≤ f.log.lastIndex := prevMatches_le hprev
      omega
    · rfl

/-- No follower that is behind catches up: it does not take over the index of the snapshot nor
the entries after it, and the leader sends the same snapshot again. -/
theorem snapshot_transfer_never {peer src : NodeId} {term leaderId : Nat}
    (hterm : f.currentTerm ≤ term) (hbehind : f.log.lastIndex < s.lastIncludedIndex)
    (hsends : (peer, .installSnapshotRequest term leaderId s) ∈ l.replicateLog) :
    let r := f.handleMessage src (.installSnapshotRequest term leaderId s)
    ∀ answer ∈ r.2, let l' := (l.handleMessage peer answer.2).1
      ¬ CatchesUp r.1 l' peer s (.installSnapshotRequest term leaderId s) ∧
      (peer, .installSnapshotRequest term leaderId s) ∈ l'.replicateLog ∧
      (f.log.Aligned → ¬ Installed r.1.log s ∧
        ∀ term' leader' entries leaderCommit, succeeds (r.1.handleAppendEntries term' leader'
          s.lastIncludedIndex s.lastIncludedTerm entries leaderCommit).2 = false) := by
  intro r answer hanswer
  have hresponse : answer.2 = .installSnapshotResponse term := by
    rw [List.mem_singleton.mp hanswer]
    exact handleInstallSnapshot_response hterm
  obtain ⟨_, _, heq⟩ := List.mem_map.mp hsends
  have hleader := replicationMessage_installSnapshot (Prod.mk.inj heq).2
  have hsame : (l.handleMessage peer answer.2).1 = l := by
    rw [hresponse, RaftNode.handleMessage, if_neg (by omega)]
  refine ⟨?_, by rwa [hsame], fun haligned => ?_⟩
  · intro hcatch
    exact hcatch.moved (by rwa [hsame])
  · have hlast : r.1.log.lastIndex < s.lastIncludedIndex := by
      rwa [show r.1.log.lastIndex = f.log.lastIndex from handleInstallSnapshot_lastIndex haligned ..]
    refine ⟨fun hinstalled => ?_, not_succeeds hlast⟩
    have := hinstalled.index
    unfold RaftLog.lastIndex at hlast
    omega

/-- Node 1 leads term 1 and replicates a command to node 2, leads term 2, commits another one and
compacts its log; node 3 has heard nothing so far. -/
def snapshotSent : List NodeEvent :=
  (electOne ++ [.propose 1 [7], .tick 1, sendEntries 1 2 1 0 0 [⟨1, 1, [7]⟩] 0,
    answerEntries 2 1 1 true 1]).map Network.ofEvent ++
  .call 1 .startPreVote ::
  ([askVote 1 2 1 true 1 1, grantVote 2 1 1 true, askVote 1 2 2 false 1 1, grantVote 2 1 2 false,
    .propose 1 [8], .tick 1, sendEntries 1 2 2 1 1 [⟨2, 2, [8]⟩] 1,
    answerEntries 2 1 2 true 2] : List Event).map Network.ofEvent ++
  [.call 1 (.createSnapshot 2 [9] 0)]

def behind : Network := snapshotSent.foldl (Network.serve fun _ => none) (.boot trio)

def sentSnapshot : Snapshot := ⟨[9], 2, 2, 0⟩

theorem snapshot_transfer_never_trio :
    let r := (behind.node 3).handleMessage 1 (.installSnapshotRequest 2 1 sentSnapshot)
    ∀ answer ∈ r.2, let l' := ((behind.node 1).handleMessage 3 answer.2).1
      ¬ CatchesUp r.1 l' 3 sentSnapshot (.installSnapshotRequest 2 1 sentSnapshot) ∧
      (3, .installSnapshotRequest 2 1 sentSnapshot) ∈ l'.replicateLog ∧
      ((behind.node 3).log.Aligned → ¬ Installed r.1.log sentSnapshot ∧
        ∀ term' leader' entries leaderCommit, succeeds (r.1.handleAppendEntries term' leader'
          2 2 entries leaderCommit).2 = false) :=
  snapshot_transfer_never (by decide +kernel) (by decide +kernel) (by decide +kernel)

theorem follower_left_behind : ¬ ∀ (f l : RaftNode) (peer src : NodeId) (term leaderId : Nat)
    (s : Snapshot), f.currentTerm ≤ term → f.log.lastIndex < s.lastIncludedIndex →
    (peer, .installSnapshotRequest term leaderId s) ∈ l.replicateLog →
    ∀ answer ∈ (f.handleMessage src (.installSnapshotRequest term leaderId s)).2,
      CatchesUp (f.handleMessage src (.installSnapshotRequest term leaderId s)).1
        (l.handleMessage peer answer.2).1 peer s (.installSnapshotRequest term leaderId s) := by
  intro h
  have hcatch := h (behind.node 3) (behind.node 1) 3 1 2 1 sentSnapshot (by decide +kernel)
    (by decide +kernel) (by decide +kernel) (1, .installSnapshotResponse 2) (by decide +kernel)
  exact absurd hcatch.installed.index (by decide +kernel)

end Suture.Raft
