import Suture.Raft.Compaction

/-!
# What a leader sends after it compacted its log

A leader asks its log for the entries from a peer's next index on. A next index of 1 passes
for one before the first entry, so it is not compared with the snapshot: once the log is
compacted, no peer may be left there.
-/

namespace Suture.Raft
set_option autoImplicit false
open Foundation

namespace RaftNode

/-- The next index of a peer as the leader reads it. -/
def nextFor (n : RaftNode) (peer : NodeId) : Nat := (n.nextIndex peer).getD 1

/-- Each peer is sent the snapshot, or entries from an index that the snapshot does not cover,
the first of them next to the previous index. -/
def ReplicatesStored (n : RaftNode) : Prop := ∀ peer ∈ n.peers,
  match n.replicationMessage peer with
  | .installSnapshotRequest _ _ _ => True
  | .appendEntriesRequest _ _ prevLogIndex _ entries _ =>
    n.log.snapshotIndex < n.nextFor peer ∧ ∀ e, entries.head? = some e → e.index = prevLogIndex + 1
  | _ => False

theorem replicatesStored_iff {n : RaftNode} (h : LogOk n) : n.ReplicatesStored ↔
    (0 < n.log.snapshotIndex → ∀ peer ∈ n.peers, n.nextFor peer ≠ 1) := by
  unfold ReplicatesStored
  constructor
  · intro hsent hsnap peer hpeer hone
    have hmessage := hsent peer hpeer
    unfold replicationMessage at hmessage
    unfold nextFor at hone hmessage
    rw [hone] at hmessage
    have := hmessage.1
    omega
  · intro hsight peer hpeer
    have hnext := h.getD_next peer
    have hnumbered := h.replicationMessage peer
    have hsight := fun hsnap => hsight hsnap peer hpeer
    unfold nextFor at hsight ⊢
    unfold replicationMessage at hnumbered ⊢
    dsimp only at hnumbered ⊢
    by_cases hcovered : 0 < (n.nextIndex peer).getD 1 - 1 ∧
        (n.nextIndex peer).getD 1 - 1 ≤ n.log.snapshotIndex
    · rw [if_pos hcovered]
      trivial
    · rw [if_neg hcovered] at hnumbered ⊢
      refine ⟨by omega, fun e he => ?_⟩
      have hfirst := hnumbered 0 e (by rwa [← List.head?_eq_getElem?])
      omega

end RaftNode

/-- A leader with a compacted log has no peer at the start of the log. -/
def InSight (n : RaftNode) : Prop :=
  n.state = .leader → 0 < n.log.snapshotIndex → ∀ peer ∈ n.peers, n.nextFor peer ≠ 1

namespace InSight
open RaftNode
variable {n n' : RaftNode}

theorem of_state (h : n'.state ≠ .leader) : InSight n' := fun hleader => absurd hleader h

theorem of_eq (h : InSight n) (hstate : n'.state = n.state) (hlog : n'.log = n.log)
    (hpeers : n'.peers = n.peers) (hnext : n'.nextIndex = n.nextIndex) : InSight n' := by
  intro hleader hsnap peer hpeer
  have := h (hstate ▸ hleader) (hlog ▸ hsnap) peer (hpeers ▸ hpeer)
  unfold nextFor at this ⊢
  rwa [hnext]

/-- One next index is set to another value. -/
theorem setNext (h : InSight n) {p : NodeId} {v : Nat} (hstate : n'.state = n.state)
    (hsnap : n'.log.snapshotIndex = n.log.snapshotIndex) (hpeers : n'.peers = n.peers)
    (hnext : n'.nextIndex = Function.update n.nextIndex p (some v))
    (hv : n.state = .leader → 0 < n.log.snapshotIndex → p ∈ n.peers → v ≠ 1) : InSight n' := by
  intro hleader hpos peer hpeer
  rw [hstate] at hleader
  rw [hsnap] at hpos
  rw [hpeers] at hpeer
  unfold nextFor
  rw [hnext, Function.update_apply]
  split
  · rename_i heq
    subst peer
    exact hv hleader hpos hpeer
  · exact h hleader hpos peer hpeer

theorem becomeLeader (n : RaftNode) : InSight n.becomeLeader := by
  intro _ hsnap peer hpeer
  have hpeer : peer ∈ n.peers := hpeer
  have hpos : 0 < n.log.snapshotIndex := hsnap
  unfold nextFor RaftNode.becomeLeader
  dsimp only
  rw [if_pos hpeer, Option.getD_some]
  unfold RaftLog.lastIndex
  omega

theorem tryCommit (h : InSight n) : InSight n.tryCommit := by
  unfold RaftNode.tryCommit
  dsimp only
  split
  · exact h
  · exact h.of_eq rfl rfl rfl rfl

theorem startElection (n : RaftNode) : InSight n.startElection.1 := by
  unfold RaftNode.startElection
  dsimp only
  split
  · exact becomeLeader _
  · exact of_state nofun

theorem startPreVote (n : RaftNode) : InSight n.startPreVote.1 := by
  unfold RaftNode.startPreVote
  dsimp only
  split
  · exact startElection _
  · exact of_state nofun

theorem stepDown (n : RaftNode) (term : Nat) : InSight (n.stepDown term) := of_state nofun

theorem handlePreVoteResponse (h : InSight n) (src term : Nat) (granted : Bool) :
    InSight (n.handlePreVoteResponse src term granted).1 := by
  unfold RaftNode.handlePreVoteResponse
  split
  · exact h
  · split
    · exact stepDown _ _
    · split
      · exact h.of_eq rfl rfl rfl rfl
      · split
        · dsimp only
          split
          · exact startElection _
          · exact h.of_eq rfl rfl rfl rfl
        · exact h

theorem handleAppendEntries (h : InSight n) (term leaderId prevLogIndex prevLogTerm : Nat)
    (entries : List LogEntry) (leaderCommit : Nat) :
    InSight (n.handleAppendEntries term leaderId prevLogIndex prevLogTerm entries leaderCommit).1 := by
  unfold RaftNode.handleAppendEntries
  split
  · exact h
  · dsimp only
    split <;> exact of_state nofun

/-- An acknowledgement puts a peer back to the start only where it acknowledges nothing. -/
theorem handleAppendEntriesResponse (h : InSight n) {src term : Nat} {success : Bool}
    {matchIndex : Nat} (hack : ¬ (success = true ∧ matchIndex = 0 ∧ n.state = .leader ∧
      term ≤ n.currentTerm ∧ src ∈ n.peers ∧ 0 < n.log.snapshotIndex)) :
    InSight (n.handleAppendEntriesResponse src term success matchIndex) := by
  unfold RaftNode.handleAppendEntriesResponse
  split
  · exact stepDown _ _
  · rename_i hterm
    split
    · exact h
    · split
      · rename_i hsuccess
        refine tryCommit (h.setNext rfl rfl rfl rfl fun hleader hsnap hpeer hone => ?_)
        exact hack ⟨hsuccess, by omega, hleader, Nat.le_of_not_lt hterm, hpeer, hsnap⟩
      · dsimp only
        split
        · rename_i hmin
          refine h.setNext rfl rfl rfl rfl fun _ hsnap _ => ?_
          omega
        · exact h

theorem handleRequestVote (h : InSight n) (term candidateId lastLogIndex lastLogTerm : Nat)
    (isPreVote : Bool) :
    InSight (n.handleRequestVote term candidateId lastLogIndex lastLogTerm isPreVote).1 := by
  unfold RaftNode.handleRequestVote
  split
  · exact h
  · dsimp only
    have hm : InSight (if (!isPreVote && decide (n.currentTerm < term)) = true then
        n.adoptTerm term else n) := by
      split
      · exact of_state nofun
      · exact h
    generalize (if (!isPreVote && decide (n.currentTerm < term)) = true then
      n.adoptTerm term else n) = m at hm ⊢
    split
    · exact hm.of_eq rfl rfl rfl rfl
    · exact hm

theorem handleRequestVoteResponse (h : InSight n) (src term : Nat) (voteGranted : Bool) :
    InSight (n.handleRequestVoteResponse src term voteGranted) := by
  unfold RaftNode.handleRequestVoteResponse
  split
  · exact stepDown _ _
  · split
    · exact h
    · rename_i hcandidate
      split
      · dsimp only
        split
        · exact becomeLeader _
        · exact h.of_eq rfl rfl rfl rfl
      · exact h

theorem handleInstallSnapshot (h : InSight n) (term leaderId : Nat) (snapshot : Snapshot) :
    InSight (n.handleInstallSnapshot term leaderId snapshot).1 := by
  unfold RaftNode.handleInstallSnapshot
  split
  · exact h
  · exact of_state nofun

theorem heartbeat (h : InSight n) : InSight n.heartbeat.1 := by
  unfold RaftNode.heartbeat
  dsimp only
  split
  · exact h
  · split
    · exact h.of_eq rfl rfl rfl rfl
    · exact h

theorem tick (h : InSight n) : InSight n.tick.1 := by
  unfold RaftNode.tick
  dsimp only
  split
  · split
    · exact of_state nofun
    · exact h.of_eq rfl rfl rfl rfl
  · split
    · exact startPreVote _
    · exact h.of_eq rfl rfl rfl rfl
  · split
    · exact startPreVote _
    · exact h.of_eq rfl rfl rfl rfl
  · split
    · apply heartbeat
      exact h.of_eq rfl rfl rfl rfl
    · exact h.of_eq rfl rfl rfl rfl

theorem propose (h : InSight n) (command : List UInt8) : InSight (n.propose command).1 := by
  unfold RaftNode.propose
  split
  · exact h
  · refine tryCommit (h.setNext rfl rfl rfl rfl fun _ _ _ => ?_)
    show n.log.snapshotIndex + n.log.entries.length + 1 + 1 ≠ 1
    omega

theorem transferLeadership (h : InSight n) (target : NodeId) :
    InSight (n.transferLeadership target).1 := by
  unfold RaftNode.transferLeadership
  split
  · exact h
  · split
    · exact h
    · split
      · refine h.setNext rfl rfl rfl rfl fun hleader hsnap hpeer hone => ?_
        have hnext : min (n.nextFor target) (n.log.lastIndex + 1) = 1 := hone
        have := h hleader hsnap target hpeer
        unfold RaftLog.lastIndex at hnext
        omega
      · exact stepDown _ _

end InSight

/-! ### Calls that compact the log -/

/-- The call moves the log's snapshot. -/
def CompactsLog (n : RaftNode) : Call → Prop
  | .createSnapshot lastIndex _ _ => lastIndex ≤ n.commitIndex ∧ n.log.termFor lastIndex ≠ none
  | .compactLog lastIndex _ _ _ => 0 < lastIndex ∧ lastIndex ≤ n.commitIndex
  | .installSnapshot snapshot => n.log.lastIndex < snapshot.lastIncludedIndex
  | _ => False

instance (n : RaftNode) : DecidablePred (CompactsLog n)
  | .createSnapshot lastIndex _ _ =>
    inferInstanceAs (Decidable (lastIndex ≤ n.commitIndex ∧ n.log.termFor lastIndex ≠ none))
  | .compactLog lastIndex _ _ _ =>
    inferInstanceAs (Decidable (0 < lastIndex ∧ lastIndex ≤ n.commitIndex))
  | .installSnapshot snapshot => inferInstanceAs (Decidable (n.log.lastIndex < snapshot.lastIncludedIndex))
  | .tick | .propose _ | .transferLeadership _ | .startPreVote | .advanceApplied _
  | .proposeMembershipChange _ | .finalizeMembershipChange => inferInstanceAs (Decidable False)

section Serve
variable (toVec : ClusterConfig → Option (List UInt8)) {n n' : RaftNode}

theorem InSight.of_ahead (h : ∀ peer ∈ n.peers, n.nextFor peer ≠ 1) (hpeers : n'.peers = n.peers)
    (hnext : n'.nextIndex = n.nextIndex) : InSight n' := by
  intro _ _ peer hpeer
  have := h peer (hpeers ▸ hpeer)
  unfold RaftNode.nextFor at this ⊢
  rwa [hnext]

theorem InSight.serve (h : InSight n) {c : Call}
    (hcompacts : ¬ (n.state = .leader ∧ (∃ peer ∈ n.peers, n.nextFor peer = 1) ∧ CompactsLog n c)) :
    InSight (n.serve toVec c).1 := by
  -- a call that moves the snapshot finds no peer at the start, or no leader
  have hmoved : CompactsLog n c → ∀ {n' : RaftNode}, n'.state = n.state → n'.peers = n.peers →
      n'.nextIndex = n.nextIndex → InSight n' := by
    intro hc n' hstate hpeers hnext
    by_cases hleader : n.state = .leader
    · apply InSight.of_ahead (n := n) _ hpeers hnext
      intro peer hpeer hone
      exact hcompacts ⟨hleader, ⟨peer, hpeer, hone⟩, hc⟩
    · exact of_state (hstate ▸ hleader)
  cases c with
  | tick => exact h.tick
  | propose command => exact h.propose command
  | transferLeadership target => exact h.transferLeadership target
  | startPreVote => exact InSight.startPreVote n
  | advanceApplied count => exact h.of_eq rfl rfl rfl rfl
  | createSnapshot lastIndex data now =>
    simp only [RaftNode.serve, RaftNode.createSnapshot]
    split
    · exact h
    · rename_i lastTerm hterm
      split
      · exact h
      · rename_i hcommit
        exact hmoved ⟨Nat.le_of_not_lt hcommit, by rw [hterm]; exact Option.some_ne_none _⟩ rfl rfl rfl
  | compactLog lastIndex lastTerm data now =>
    simp only [RaftNode.serve, RaftNode.compactLog]
    split
    · exact h
    · rename_i hcommit
      split
      · exact h
      · by_cases hpos : 0 < lastIndex
        · exact hmoved ⟨hpos, Nat.le_of_not_lt hcommit⟩ rfl rfl rfl
        · refine h.of_eq rfl ?_ rfl rfl
          rw [RaftLog.compact, if_pos (by omega)]
  | installSnapshot snapshot =>
    simp only [RaftNode.serve, RaftNode.installSnapshot]
    split
    · exact h
    · rename_i hbehind
      exact hmoved (Nat.lt_of_not_le hbehind) rfl rfl rfl
  | proposeMembershipChange newNodes =>
    simp only [RaftNode.serve, RaftNode.proposeMembershipChange]
    split
    · exact h
    · split
      · exact h
      · apply InSight.propose
        exact h.of_eq rfl rfl rfl rfl
  | finalizeMembershipChange =>
    simp only [RaftNode.serve, RaftNode.finalizeMembershipChange]
    split
    · exact h
    · apply InSight.propose
      exact h.of_eq rfl rfl rfl rfl

theorem InSight.handleMessage (h : InSight n) {src : NodeId} {message : RaftMessage}
    (hack : ∀ term, message = .appendEntriesResponse term true 0 → ¬ (n.state = .leader ∧
      term ≤ n.currentTerm ∧ src ∈ n.peers ∧ 0 < n.log.snapshotIndex)) :
    InSight (n.handleMessage src message).1 := by
  have hlater : ∀ term, InSight (if n.currentTerm < term then n.stepDown term else n) := by
    intro term
    split
    · exact InSight.stepDown _ _
    · exact h
  cases message with
  | appendEntriesRequest term leaderId prevLogIndex prevLogTerm entries leaderCommit =>
    exact h.handleAppendEntries term leaderId prevLogIndex prevLogTerm entries leaderCommit
  | appendEntriesResponse term success matchIndex =>
    apply h.handleAppendEntriesResponse
    intro ⟨hsuccess, hzero, hrest⟩
    exact hack term (by rw [hsuccess, hzero]) hrest
  | requestVoteRequest term candidateId lastLogIndex lastLogTerm isPreVote =>
    exact h.handleRequestVote term candidateId lastLogIndex lastLogTerm isPreVote
  | requestVoteResponse term voteGranted isPreVote =>
    simp only [RaftNode.handleMessage]
    split
    · exact h.handlePreVoteResponse src term voteGranted
    · exact h.handleRequestVoteResponse src term voteGranted
  | installSnapshotRequest term leaderId snapshot => exact h.handleInstallSnapshot term leaderId snapshot
  | installSnapshotResponse term => exact hlater term
  | readIndexRequest term index => exact h
  | readIndexResponse term => exact hlater term
  | timeoutNow term =>
    simp only [RaftNode.handleMessage]
    split
    · exact InSight.startElection n
    · exact h
  | configChangeRequest term leaderId newNodes =>
    simp only [RaftNode.handleMessage]
    split
    · exact of_state nofun
    · exact h

end Serve

/-! ### Runs -/

namespace Network
variable (toVec : ClusterConfig → Option (List UInt8)) {net net' : Network}

/-- A leader compacts its log while a peer is at the start of it, or is told by a peer, with its
log compacted, that the peer holds nothing. -/
def LosesPeer (net : Network) : NodeEvent → Prop
  | .call i c => (net.node i).state = .leader ∧
      (∃ peer ∈ (net.node i).peers, (net.node i).nextFor peer = 1) ∧ CompactsLog (net.node i) c
  | .deliver ⟨src, dst, .appendEntriesResponse term true 0⟩ => (net.node dst).state = .leader ∧
      term ≤ (net.node dst).currentTerm ∧ src ∈ (net.node dst).peers ∧
        0 < (net.node dst).log.snapshotIndex
  | _ => False

instance (net : Network) : DecidablePred net.LosesPeer
  | .call i c => inferInstanceAs (Decidable ((net.node i).state = .leader ∧
      (∃ peer ∈ (net.node i).peers, (net.node i).nextFor peer = 1) ∧ CompactsLog (net.node i) c))
  | .deliver ⟨src, dst, .appendEntriesResponse term true 0⟩ =>
    inferInstanceAs (Decidable ((net.node dst).state = .leader ∧ term ≤ (net.node dst).currentTerm ∧
      src ∈ (net.node dst).peers ∧ 0 < (net.node dst).log.snapshotIndex))
  | .deliver ⟨_, _, .appendEntriesResponse _ true (_ + 1)⟩
  | .deliver ⟨_, _, .appendEntriesResponse _ false _⟩
  | .deliver ⟨_, _, .appendEntriesRequest ..⟩ | .deliver ⟨_, _, .requestVoteRequest ..⟩
  | .deliver ⟨_, _, .requestVoteResponse ..⟩ | .deliver ⟨_, _, .installSnapshotRequest ..⟩
  | .deliver ⟨_, _, .installSnapshotResponse ..⟩ | .deliver ⟨_, _, .readIndexRequest ..⟩
  | .deliver ⟨_, _, .readIndexResponse ..⟩ | .deliver ⟨_, _, .timeoutNow ..⟩
  | .deliver ⟨_, _, .configChangeRequest ..⟩ => inferInstanceAs (Decidable False)

/-- What the replication of stored entries needs of a step. -/
def KeepsPeers (net : Network) (e : NodeEvent) : Prop := net.Placed e ∧ ¬ net.LosesPeer e

instance (net : Network) : DecidablePred net.KeepsPeers := fun e =>
  inferInstanceAs (Decidable (net.Placed e ∧ ¬ net.LosesPeer e))

theorem inSight_post (h : ∀ i, InSight (net.node i)) {i : NodeId} {r : RaftNode × List Outgoing}
    (hr : InSight r.1) (j : NodeId) : InSight ((net.post i r).node j) := by
  by_cases hji : j = i
  · subst j
    rwa [post_node_self]
  · rw [post_node_ne net hji]
    exact h j

theorem inSight_serve (h : ∀ i, InSight (net.node i)) {e : NodeEvent} (he : ¬ net.LosesPeer e)
    (j : NodeId) : InSight ((net.serve toVec e).node j) := by
  cases e with
  | call i c => exact inSight_post h ((h i).serve toVec he) j
  | deliver p =>
    refine inSight_post h ((h p.dst).handleMessage fun term hm => ?_) j
    obtain ⟨src, dst, message⟩ := p
    have hm : message = .appendEntriesResponse term true 0 := hm
    subst message
    exact he

end Network

/-- Node 1 leads and both of its peers hold its entry, which it then compacts away. -/
def compactStored : List NodeEvent :=
  (electOne ++ [.propose 1 [7], .tick 1, sendEntries 1 2 1 0 0 [⟨1, 1, [7]⟩] 0,
    answerEntries 2 1 1 true 1, sendEntries 1 3 1 0 0 [⟨1, 1, [7]⟩] 0,
    answerEntries 3 1 1 true 1]).map Network.ofEvent ++ [.call 1 (.createSnapshot 1 [] 0)]

/-- Node 1 commits two entries with node 2 alone and compacts the first away, and node 3 has
never answered. -/
def compactAhead : List NodeEvent :=
  commitTwo.map Network.ofEvent ++ [.call 1 (.createSnapshot 1 [] 0)]

end Suture.Raft
