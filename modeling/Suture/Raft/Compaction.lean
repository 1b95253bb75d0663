import Suture.Foundation.Run
import Suture.Raft.Calls
import Suture.Raft.Safety

/-!
# Logs that are compacted

Every call keeps a log aligned, and so does every message but one: entries sent from the
beginning of the log reach a node that has compacted its own. The entries committed but not
applied are found only in a log that was never compacted.
-/

namespace Suture.Raft
set_option autoImplicit false
open Foundation

structure LogOk (n : RaftNode) : Prop where
  aligned : n.log.Aligned
  next : ∀ p v, n.nextIndex p = some v → 1 ≤ v

def SentOk : RaftMessage → Prop
  | .appendEntriesRequest _ _ prevLogIndex _ entries _ => NumberedFrom prevLogIndex entries
  | _ => True

/-- A state a node may move to, with the messages it sends. -/
structure Served (r : RaftNode × List Outgoing) : Prop where
  log : LogOk r.1
  sent : ∀ m ∈ r.2, SentOk m.2

variable {n : RaftNode}

namespace LogOk

theorem of_eq {n' : RaftNode} (h : LogOk n) (hlog : n'.log = n.log)
    (hnext : n'.nextIndex = n.nextIndex) : LogOk n' where
  aligned := hlog ▸ h.aligned
  next := hnext ▸ h.next

theorem of_log {n' : RaftNode} (h : LogOk n) (hlog : n'.log.Aligned)
    (hnext : n'.nextIndex = n.nextIndex) : LogOk n' where
  aligned := hlog
  next := hnext ▸ h.next

theorem setNext (h : LogOk n) {n' : RaftNode} {p : NodeId} {v : Nat} (hv : 1 ≤ v)
    (hlog : n'.log.Aligned) (hnext : n'.nextIndex = Function.update n.nextIndex p (some v)) :
    LogOk n' where
  aligned := hlog
  next q u hq := by
    rw [hnext, Function.update_apply] at hq
    split at hq
    · cases hq
      exact hv
    · exact h.next q u hq

theorem getD_next (h : LogOk n) (p : NodeId) : 1 ≤ (n.nextIndex p).getD 1 := by
  cases hp : n.nextIndex p with
  | none => exact Nat.le_refl 1
  | some v => exact h.next p v hp

theorem quiet (h : LogOk n) : Served (n, []) := ⟨h, nofun⟩

theorem send (h : LogOk n) {dst : NodeId} {message : RaftMessage} (hm : SentOk message) :
    Served (n, [(dst, message)]) where
  log := h
  sent m hin := by
    rw [List.mem_singleton.mp hin]
    exact hm

theorem replicationMessage (h : LogOk n) (peer : NodeId) : SentOk (n.replicationMessage peer) := by
  have hnext := h.getD_next peer
  simp only [RaftNode.replicationMessage]
  split
  · trivial
  · rename_i hsnap
    show NumberedFrom _ (n.log.entriesFrom _)
    generalize (n.nextIndex peer).getD 1 = next at *
    unfold RaftLog.entriesFrom
    split
    · exact .nil _
    · split
      · exact .nil _
      · have hdrop := h.aligned.drop (next - n.log.snapshotIndex - 1)
        rwa [show n.log.snapshotIndex + (next - n.log.snapshotIndex - 1) = next - 1 by omega]
          at hdrop

theorem replicateLog (h : LogOk n) : ∀ m ∈ n.replicateLog, SentOk m.2 := by
  intro m hm
  obtain ⟨peer, _, rfl⟩ := List.mem_map.mp hm
  exact h.replicationMessage peer

theorem becomeLeader (h : LogOk n) : LogOk n.becomeLeader where
  aligned := h.aligned
  next p v hp := by
    simp only [RaftNode.becomeLeader] at hp
    split at hp
    · cases hp
      omega
    · exact h.next p v hp

theorem stepDown (h : LogOk n) (term : Nat) : LogOk (n.stepDown term) := h.of_eq rfl rfl

theorem tryCommit (h : LogOk n) : LogOk n.tryCommit := by
  unfold RaftNode.tryCommit
  dsimp only
  split
  · exact h
  · exact h.of_eq rfl rfl

theorem voteRequests (h : LogOk n) (isPreVote : Bool) : Served (n, n.voteRequests isPreVote) where
  log := h
  sent m hm := by
    obtain ⟨peer, _, rfl⟩ := List.mem_map.mp hm
    trivial

theorem startElection (h : LogOk n) : Served n.startElection := by
  have hc : LogOk n.newCandidate := h.of_eq rfl rfl
  unfold RaftNode.startElection
  dsimp only
  split
  · exact ⟨hc.becomeLeader, hc.becomeLeader.replicateLog⟩
  · exact hc.voteRequests false

theorem startPreVote (h : LogOk n) : Served n.startPreVote := by
  unfold RaftNode.startPreVote
  dsimp only
  split
  · exact startElection (h.of_eq rfl rfl)
  · refine voteRequests ?_ true
    exact h.of_eq rfl rfl

theorem handlePreVoteResponse (h : LogOk n) (src term : Nat) (granted : Bool) :
    Served (n.handlePreVoteResponse src term granted) := by
  unfold RaftNode.handlePreVoteResponse
  split
  · exact h.quiet
  · split
    · exact quiet (h.of_eq rfl rfl)
    · split
      · exact quiet (h.of_eq rfl rfl)
      · split
        · dsimp only
          split
          · exact startElection (h.of_eq rfl rfl)
          · exact quiet (h.of_eq rfl rfl)
        · exact h.quiet

theorem handleAppendEntries (h : LogOk n) (term leaderId prevLogIndex prevLogTerm : Nat)
    (entries : List LogEntry) (leaderCommit : Nat) (hnum : NumberedFrom prevLogIndex entries)
    (hfits : n.currentTerm ≤ term → RaftNode.prevMatches n.log prevLogIndex prevLogTerm = true →
      ∀ e ∈ entries, n.log.Fits e) :
    LogOk (n.handleAppendEntries term leaderId prevLogIndex prevLogTerm entries leaderCommit).1 ∧
      SentOk (n.handleAppendEntries term leaderId prevLogIndex prevLogTerm entries leaderCommit).2 := by
  unfold RaftNode.handleAppendEntries
  split
  · exact ⟨h, trivial⟩
  · rename_i hterm
    dsimp only
    split
    · rename_i hprev
      have hlog := foldl_storeEntry_aligned h.aligned hnum (prevMatches_le hprev)
        (hfits (by omega) hprev)
      exact ⟨h.of_log hlog rfl, trivial⟩
    · exact ⟨h.of_eq rfl rfl, trivial⟩

theorem handleAppendEntriesResponse (h : LogOk n) (src term : Nat) (success : Bool)
    (matchIndex : Nat) : LogOk (n.handleAppendEntriesResponse src term success matchIndex) := by
  unfold RaftNode.handleAppendEntriesResponse
  split
  · exact h.stepDown term
  · split
    · exact h
    · split
      · exact tryCommit (h.setNext (by omega) h.aligned rfl)
      · dsimp only
        split
        · exact h.setNext (by omega) h.aligned rfl
        · exact h

theorem handleRequestVote (h : LogOk n) (term candidateId lastLogIndex lastLogTerm : Nat)
    (isPreVote : Bool) :
    LogOk (n.handleRequestVote term candidateId lastLogIndex lastLogTerm isPreVote).1 ∧
      SentOk (n.handleRequestVote term candidateId lastLogIndex lastLogTerm isPreVote).2 := by
  unfold RaftNode.handleRequestVote
  split
  · exact ⟨h, trivial⟩
  · dsimp only
    refine ⟨?_, trivial⟩
    have hm : LogOk (if (!isPreVote && decide (n.currentTerm < term)) = true then
        n.adoptTerm term else n) := by
      split
      · exact h.of_eq rfl rfl
      · exact h
    generalize (if (!isPreVote && decide (n.currentTerm < term)) = true then
      n.adoptTerm term else n) = m at hm ⊢
    split
    · exact hm.of_eq rfl rfl
    · exact hm

theorem handleRequestVoteResponse (h : LogOk n) (src term : Nat) (voteGranted : Bool) :
    LogOk (n.handleRequestVoteResponse src term voteGranted) := by
  unfold RaftNode.handleRequestVoteResponse
  split
  · exact h.stepDown term
  · split
    · exact h
    · split
      · dsimp only
        split
        · exact becomeLeader (h.of_eq rfl rfl)
        · exact h.of_eq rfl rfl
      · exact h

theorem handleInstallSnapshot (h : LogOk n) (term leaderId : Nat) (snapshot : Snapshot) :
    LogOk (n.handleInstallSnapshot term leaderId snapshot).1 ∧
      SentOk (n.handleInstallSnapshot term leaderId snapshot).2 := by
  unfold RaftNode.handleInstallSnapshot
  split
  · exact ⟨h, trivial⟩
  · refine ⟨h.of_log ?_ rfl, trivial⟩
    have hlog : (n.followLeader term leaderId).log.Aligned := h.aligned
    dsimp only
    split
    · split
      · exact (hlog.compact _).compact _
      · exact hlog.compact _
    · exact hlog

theorem heartbeat (h : LogOk n) : Served n.heartbeat := by
  unfold RaftNode.heartbeat
  dsimp only
  split
  · exact ⟨h, h.replicateLog⟩
  · split
    · refine ⟨h.of_eq rfl rfl, fun m hm => ?_⟩
      rcases List.mem_append.mp hm with hm | hm
      · exact h.replicateLog m hm
      · rw [List.mem_singleton.mp hm]
        trivial
    · exact ⟨h, h.replicateLog⟩

theorem tick (h : LogOk n) : Served n.tick := by
  unfold RaftNode.tick
  dsimp only
  split
  · split
    · exact quiet (h.of_eq rfl rfl)
    · exact quiet (h.of_eq rfl rfl)
  · split
    · exact startPreVote (h.of_eq rfl rfl)
    · exact quiet (h.of_eq rfl rfl)
  · split
    · exact startPreVote (h.of_eq rfl rfl)
    · exact quiet (h.of_eq rfl rfl)
  · split
    · exact heartbeat (h.of_eq rfl rfl)
    · exact quiet (h.of_eq rfl rfl)

theorem handleMessage (h : LogOk n) (src : NodeId) {message : RaftMessage} (hm : SentOk message)
    (hfits : ∀ term leaderId prevLogIndex prevLogTerm entries leaderCommit,
      message = .appendEntriesRequest term leaderId prevLogIndex prevLogTerm entries leaderCommit →
      n.currentTerm ≤ term → RaftNode.prevMatches n.log prevLogIndex prevLogTerm = true →
      ∀ e ∈ entries, n.log.Fits e) : Served (n.handleMessage src message) := by
  cases message with
  | appendEntriesRequest term leaderId prevLogIndex prevLogTerm entries leaderCommit =>
    obtain ⟨hlog, hsent⟩ := h.handleAppendEntries term leaderId prevLogIndex prevLogTerm entries
      leaderCommit hm (hfits _ _ _ _ _ _ rfl)
    exact hlog.send hsent
  | appendEntriesResponse term success matchIndex =>
    exact (h.handleAppendEntriesResponse src term success matchIndex).quiet
  | requestVoteRequest term candidateId lastLogIndex lastLogTerm isPreVote =>
    obtain ⟨hlog, hsent⟩ := h.handleRequestVote term candidateId lastLogIndex lastLogTerm isPreVote
    exact hlog.send hsent
  | requestVoteResponse term voteGranted isPreVote =>
    unfold RaftNode.handleMessage
    cases isPreVote with
    | true => exact h.handlePreVoteResponse src term voteGranted
    | false => exact (h.handleRequestVoteResponse src term voteGranted).quiet
  | installSnapshotRequest term leaderId snapshot =>
    obtain ⟨hlog, hsent⟩ := h.handleInstallSnapshot term leaderId snapshot
    exact hlog.send hsent
  | installSnapshotResponse term | readIndexResponse term =>
    unfold RaftNode.handleMessage
    dsimp only
    split
    · exact (h.stepDown term).quiet
    · exact h.quiet
  | readIndexRequest term index => exact h.send trivial
  | timeoutNow term =>
    unfold RaftNode.handleMessage
    dsimp only
    split
    · exact h.startElection
    · exact h.quiet
  | configChangeRequest term leaderId newNodes =>
    unfold RaftNode.handleMessage
    dsimp only
    split
    · exact quiet (h.of_eq rfl rfl)
    · exact h.quiet

/-! ### Calls -/

theorem propose (h : LogOk n) (command : List UInt8) : LogOk (n.propose command).1 := by
  unfold RaftNode.propose
  split
  · exact h
  · refine tryCommit ?_
    exact h.setNext (Nat.le_add_left 1 _) (h.aligned.append _ _) rfl

theorem transferLeadership (h : LogOk n) (target : NodeId) :
    LogOk (n.transferLeadership target).1 := by
  unfold RaftNode.transferLeadership
  split
  · exact h
  · split
    · exact h
    · split
      · have := h.getD_next target
        exact h.setNext (Nat.le_min.mpr ⟨this, Nat.le_add_left 1 _⟩) h.aligned rfl
      · exact h.stepDown _

theorem createSnapshot (h : LogOk n) (lastIndex : Nat) (data : List UInt8) (now : Nat) :
    LogOk (n.createSnapshot lastIndex data now).1 := by
  unfold RaftNode.createSnapshot
  split
  · exact h
  · split
    · exact h
    · exact h.of_log (h.aligned.compact lastIndex) rfl

theorem compactLog (h : LogOk n) (index term : Nat) (data : List UInt8) (now : Nat) :
    LogOk (n.compactLog index term data now).1 := by
  unfold RaftNode.compactLog
  split
  · exact h
  · dsimp only
    split
    · exact h
    · exact h.of_log (h.aligned.compact index) rfl

theorem installSnapshot (h : LogOk n) (snapshot : Snapshot) :
    LogOk (n.installSnapshot snapshot).1 := by
  unfold RaftNode.installSnapshot
  split
  · exact h
  · refine h.of_log ?_ rfl
    dsimp only
    split
    · exact (h.aligned.compact _).setSnapshot _ _
    · exact h.aligned.compact _

variable (toVec : ClusterConfig → Option (List UInt8))

theorem proposeMembershipChange (h : LogOk n) (newNodes : List NodeId) :
    LogOk (n.proposeMembershipChange toVec newNodes).1 := by
  unfold RaftNode.proposeMembershipChange
  split
  · exact h
  · split
    · exact h
    · refine propose ?_ _
      exact h.of_eq rfl rfl

theorem finalizeMembershipChange (h : LogOk n) :
    LogOk (n.finalizeMembershipChange toVec).1 := by
  unfold RaftNode.finalizeMembershipChange
  split
  · exact h
  · refine propose ?_ _
    exact h.of_eq rfl rfl

theorem serve (h : LogOk n) (c : Call) : Served (n.serve toVec c) := by
  cases c with
  | tick => exact h.tick
  | propose command => exact (h.propose command).quiet
  | transferLeadership target => exact (h.transferLeadership target).quiet
  | startPreVote => exact h.startPreVote
  | advanceApplied count => exact quiet (h.of_eq rfl rfl)
  | createSnapshot lastIndex data now => exact (h.createSnapshot lastIndex data now).quiet
  | compactLog index term data now => exact (h.compactLog index term data now).quiet
  | installSnapshot snapshot => exact (h.installSnapshot snapshot).quiet
  | proposeMembershipChange newNodes => exact (h.proposeMembershipChange toVec newNodes).quiet
  | finalizeMembershipChange => exact (h.finalizeMembershipChange toVec).quiet

end LogOk

/-! ### Runs -/

variable (toVec : ClusterConfig → Option (List UInt8))

namespace Network

/-- A node that has compacted its log is sent entries from the beginning of the log, one of
them swallowed by the snapshot. -/
def SwallowedEntry (net : Network) : NodeEvent → Bool
  | .deliver ⟨_, dst, .appendEntriesRequest term _ prevLogIndex _ entries _⟩ =>
    let n := net.node dst
    decide (prevLogIndex = 0 ∧ 0 < n.log.snapshotIndex ∧ n.currentTerm ≤ term) &&
      entries.any fun e => !decide (n.log.Fits e)
  | _ => false

/-- What the numbering of the logs needs of a step. -/
def Placed (net : Network) (e : NodeEvent) : Prop :=
  net.Delivers e ∧ net.SwallowedEntry e = false

instance (net : Network) : DecidablePred net.Placed := fun e =>
  inferInstanceAs (Decidable (net.Delivers e ∧ _))

structure LogsOk (net : Network) : Prop where
  node : ∀ i, LogOk (net.node i)
  sent : ∀ p ∈ net.sent, SentOk p.message

variable {net net' : Network}

theorem Fresh.logsOk (h : net.Fresh) : net.LogsOk where
  node i := by
    obtain ⟨peers, electionTimeout, heartbeatInterval, initialOffset, hnode⟩ := h.node i
    rw [hnode]
    exact ⟨.new, nofun⟩
  sent p hp := by
    rw [h.sent] at hp
    cases hp

theorem LogsOk.post (h : net.LogsOk) {i : NodeId} {r : RaftNode × List Outgoing} (hr : Served r) :
    (net.post i r).LogsOk where
  node j := by
    by_cases hji : j = i
    · subst j
      rw [post_node_self]
      exact hr.log
    · rw [post_node_ne net hji]
      exact h.node j
  sent p hp := by
    rw [post_sent] at hp
    rcases List.mem_append.mp hp with hp | hp
    · exact h.sent p hp
    · obtain ⟨m, hm, rfl⟩ := List.mem_map.mp hp
      exact hr.sent m hm

theorem LogsOk.serve (h : net.LogsOk) {e : NodeEvent} (he : net.Placed e) :
    (net.serve toVec e).LogsOk := by
  obtain ⟨hsent, hplaced⟩ := he
  cases e with
  | call i c => exact h.post ((h.node i).serve toVec c)
  | deliver p =>
    obtain ⟨src, dst, message⟩ := p
    have hm := h.sent _ hsent
    refine h.post ((h.node dst).handleMessage src hm ?_)
    rintro term leaderId prevLogIndex prevLogTerm entries leaderCommit rfl hterm hprev
    by_cases hstart : 0 < prevLogIndex ∨ (net.node dst).log.snapshotIndex = 0
    · exact fits_of_prevMatches hprev hstart hm
    · intro e he
      by_contra hfits
      have hguard : prevLogIndex = 0 ∧ 0 < (net.node dst).log.snapshotIndex ∧
          (net.node dst).currentTerm ≤ term := by omega
      simp only [SwallowedEntry, hguard, and_self, decide_true, Bool.true_and, List.any_eq_false,
        Bool.not_eq_true', decide_eq_false_iff_not, not_not] at hplaced
      exact hfits (hplaced e he)

theorem LogsOk.run (h : net.LogsOk) (hrun : Run (Network.serve toVec) (fun s => s.Placed) net net')
    (i : NodeId) : LogOk (net'.node i) :=
  (hrun.invariant Network.LogsOk (fun _ _ hs he => hs.serve toVec he) h).node i

end Network

/-- However the calls and messages are interleaved, the place of an entry in a log tells its
index. -/
theorem log_index_invariant {net net' : Network} (hfresh : net.Fresh)
    (hrun : Run (Network.serve toVec) (fun s => s.Placed) net net') (i : NodeId) :
    (net'.node i).log.Aligned ∧ (net'.node i).log.Addressed := by
  have haligned := (hfresh.logsOk.run toVec hrun i).aligned
  exact ⟨haligned, haligned.addressed⟩

/-- Node 1 leads and commits two commands, and node 2 learns of it. -/
def commitTwo : List Event :=
  electOne ++ [.propose 1 [7], .propose 1 [8], .tick 1,
    sendEntries 1 2 1 0 0 [⟨1, 1, [7]⟩, ⟨2, 1, [8]⟩] 0, answerEntries 2 1 1 true 2,
    .tick 1, sendEntries 1 2 1 2 1 [] 2]

/-- Node 2 then compacts its log up to an index. -/
def compactAt (lastIndex : Nat) : List NodeEvent :=
  commitTwo.map Network.ofEvent ++ [.call 2 (.createSnapshot lastIndex [] 0)]

theorem log_index_invariant_trio :
    let s := (compactAt 1).foldl (Network.serve fun _ => none) (.boot trio)
    (s.node 2).log.Aligned ∧ (s.node 2).log.Addressed :=
  log_index_invariant (fun _ => none) (Network.boot_fresh trio)
    (Run.of_allows (compactAt 1) (by decide +kernel)) 2

/-- The entries node 2 has compacted arrive again: the first is put behind the log, where
index 3 belongs. -/
def lateEntries : List NodeEvent :=
  compactAt 2 ++ [Network.ofEvent (sendEntries 1 2 1 0 0 [⟨1, 1, [7]⟩, ⟨2, 1, [8]⟩] 0)]

theorem late_entry_misplaced : ¬ ∀ (toVec : ClusterConfig → Option (List UInt8))
    (net net' : Network) (i : NodeId), net.Fresh →
    Run (Network.serve toVec) (fun s => s.Delivers) net net' →
    (net'.node i).log.Aligned ∧ (net'.node i).log.Addressed := by
  intro h
  have hlate := (h (fun _ => none) _ _ 2 (Network.boot_fresh trio)
    (Run.of_allows lateEntries (by decide +kernel))).1
  exact absurd (hlate 0 ⟨1, 1, [7]⟩ (by decide +kernel)) (by decide +kernel)

/-! ### Committed entries -/

/-- The entries returned are those committed and not yet applied or in the snapshot. -/
def ReturnsCommitted (n : RaftNode) : Prop :=
  n.committedEntries = some (n.log.entries.filter fun e =>
    decide (max n.lastApplied n.log.snapshotIndex < e.index ∧ e.index ≤ n.commitIndex))

instance : DecidablePred ReturnsCommitted := fun _ => inferInstanceAs (Decidable (_ = _))

theorem committedEntries_of_applied (h : n.commitIndex ≤ n.lastApplied) : ReturnsCommitted n := by
  rw [ReturnsCommitted, RaftNode.committedEntries, if_pos h, Option.some.injEq, eq_comm,
    List.filter_eq_nil_iff]
  intro e _
  rw [decide_eq_true_iff]
  omega

/-- Without a snapshot, positions are indices. -/
theorem committedEntries_of_uncompacted (h : n.log.Aligned) (hsnap : n.log.snapshotIndex = 0)
    (hlen : n.commitIndex ≤ n.log.lastIndex) : ReturnsCommitted n := by
  rcases Nat.lt_or_ge n.lastApplied n.commitIndex with hlt | hle
  · have hbound : n.commitIndex ≤ n.log.entries.length := by
      rwa [RaftLog.lastIndex, hsnap, Nat.zero_add] at hlen
    have htake := h.filter_lt (n.commitIndex + 1)
    have hdrop := (h.take n.commitIndex).filter_ge (n.lastApplied + 1)
    simp only [hsnap, Nat.sub_zero, Nat.add_sub_cancel] at htake hdrop
    rw [ReturnsCommitted, RaftNode.committedEntries, if_neg (by omega), if_pos hbound, ← hdrop,
      ← htake, List.filter_filter, hsnap]
    congr 1
    refine List.filter_congr fun e _ => ?_
    rw [Nat.max_zero, ← Bool.decide_and, decide_eq_decide]
    omega
  · exact committedEntries_of_applied hle

/-- With a snapshot, the slice ends at an entry that is not committed. -/
theorem not_returnsCommitted (h : n.log.Aligned) (hlt : n.lastApplied < n.commitIndex)
    (hsnap : 0 < n.log.snapshotIndex) : ¬ ReturnsCommitted n := by
  intro hret
  rw [ReturnsCommitted, RaftNode.committedEntries, if_neg (by omega)] at hret
  split at hret
  · rename_i hbound
    have hlast : n.commitIndex - 1 < n.log.entries.length := by omega
    have hget := List.getElem?_eq_getElem hlast
    have hindex := h _ _ hget
    have hmem : n.log.entries[n.commitIndex - 1] ∈
        (n.log.entries.take n.commitIndex).drop n.lastApplied := by
      refine List.mem_iff_getElem?.mpr ⟨n.commitIndex - 1 - n.lastApplied, ?_⟩
      rw [List.getElem?_drop, List.getElem?_take, if_pos (by omega),
        show n.lastApplied + (n.commitIndex - 1 - n.lastApplied) = n.commitIndex - 1 by omega]
      exact hget
    rw [Option.some.inj hret, List.mem_filter, decide_eq_true_iff] at hmem
    omega
  · cases hret

theorem returnsCommitted_iff (h : n.log.Aligned) : ReturnsCommitted n ↔
    n.commitIndex ≤ n.lastApplied ∨
      (n.log.snapshotIndex = 0 ∧ n.commitIndex ≤ n.log.lastIndex) := by
  constructor
  · intro hret
    by_contra hnot
    obtain ⟨hlt, hshort⟩ := not_or.mp hnot
    rcases Nat.eq_zero_or_pos n.log.snapshotIndex with hsnap | hsnap
    · have hlong : n.log.entries.length < n.commitIndex := by
        rw [RaftLog.lastIndex] at hshort
        omega
      rw [ReturnsCommitted, RaftNode.committedEntries, if_neg hlt, if_neg (by omega)] at hret
      cases hret
    · exact not_returnsCommitted h (by omega) hsnap hret
  · rintro (happlied | ⟨hsnap, hlen⟩)
    · exact committedEntries_of_applied happlied
    · exact committedEntries_of_uncompacted h hsnap hlen

/-- In every state reached, the right entries are returned as long as nothing is pending or the
log was never compacted. -/
theorem committed_entries_survive_iff {net net' : Network} (hfresh : net.Fresh)
    (hrun : Run (Network.serve toVec) (fun s => s.Placed) net net') (i : NodeId) :
    ReturnsCommitted (net'.node i) ↔ (net'.node i).commitIndex ≤ (net'.node i).lastApplied ∨
      ((net'.node i).log.snapshotIndex = 0 ∧
        (net'.node i).commitIndex ≤ (net'.node i).log.lastIndex) :=
  returnsCommitted_iff (hfresh.logsOk.run toVec hrun i).aligned

theorem committed_entries_survive_iff_trio :
    let n := ((commitTwo.map Network.ofEvent).foldl (Network.serve fun _ => none) (.boot trio)).node 2
    ReturnsCommitted n ↔ n.commitIndex ≤ n.lastApplied ∨
      (n.log.snapshotIndex = 0 ∧ n.commitIndex ≤ n.log.lastIndex) :=
  committed_entries_survive_iff (fun _ => none) (Network.boot_fresh trio)
    (Run.of_allows (commitTwo.map Network.ofEvent) (by decide +kernel)) 2

/-- Node 2 applies the first of two committed entries and compacts it away: the second one is
asked for past the end. -/
def appliedOne : List NodeEvent :=
  commitTwo.map Network.ofEvent ++ [.call 2 (.advanceApplied 1), .call 2 (.createSnapshot 1 [] 0)]

theorem committed_entry_lost : ¬ ∀ (toVec : ClusterConfig → Option (List UInt8))
    (net net' : Network) (i : NodeId), net.Fresh →
    Run (Network.serve toVec) (fun s => s.Delivers) net net' → ReturnsCommitted (net'.node i) := by
  intro h
  have hlost := h (fun _ => none) _ _ 2 (Network.boot_fresh trio)
    (Run.of_allows appliedOne (by decide +kernel))
  exact absurd hlost (by decide +kernel)

end Suture.Raft
