import Mathlib.Data.Finset.Powerset
import Suture.Foundation.Quorum
import Suture.Foundation.Run
import Suture.Raft.Calls

/-!
# Membership changes

While a change is under way an entry is committed by a majority of the old and the new nodes
taken together, counted among the fixed peers. Whether that is a majority of each of the two
sets is a matter of the sets alone.
-/

namespace Suture.Raft
set_option autoImplicit false
open Foundation

/-- The leader and the peers that acknowledged entry `k`. -/
def RaftNode.Stores (n : RaftNode) (k : Nat) (p : NodeId) : Prop :=
  p = n.id ∨ k ≤ (n.matchIndex p).getD 0

instance (n : RaftNode) (k : Nat) : DecidablePred (n.Stores k) := fun _ =>
  inferInstanceAs (Decidable (_ ∨ _))

/-- Peers that make up a joint majority with the leader make up a majority of the old nodes and
one of the new nodes with it. -/
def JointSafe (id : NodeId) (peers : List NodeId) (old new : Finset NodeId) : Prop :=
  ∀ acked ⊆ peers.toFinset,
    (old ∪ new).card / 2 + 1 ≤ 1 + (peers.filter fun p => decide (p ∈ acked)).length →
    Majority old (fun p => p = id ∨ p ∈ acked) ∧ Majority new (fun p => p = id ∨ p ∈ acked)

instance (id : NodeId) (peers : List NodeId) (old new : Finset NodeId) :
    Decidable (JointSafe id peers old new) :=
  decidable_of_iff (∀ acked ∈ peers.toFinset.powerset,
    (old ∪ new).card / 2 + 1 ≤ 1 + (peers.filter fun p => decide (p ∈ acked)).length →
    Majority old (fun p => p = id ∨ p ∈ acked) ∧ Majority new (fun p => p = id ∨ p ∈ acked))
    (forall_congr' fun _ => by rw [Finset.mem_powerset])

/-! ### What a step counts -/

/-- A step that leaves the membership alone and commits by count only. -/
structure Counts (n n' : RaftNode) : Prop where
  id : n'.id = n.id
  peers : n'.peers = n.peers
  config : n'.config = n.config
  commit : n'.state = .leader → n'.commitIndex ≠ n.commitIndex →
    n'.majority ≤ n'.replicaCount n'.commitIndex

namespace Counts
variable {n n' : RaftNode}

theorem refl (n : RaftNode) : Counts n n := ⟨rfl, rfl, rfl, fun _ h => absurd rfl h⟩

theorem of_commit (hid : n'.id = n.id) (hpeers : n'.peers = n.peers)
    (hconfig : n'.config = n.config) (hcommit : n'.commitIndex = n.commitIndex) : Counts n n' :=
  ⟨hid, hpeers, hconfig, fun _ h => absurd hcommit h⟩

theorem of_follower (hid : n'.id = n.id) (hpeers : n'.peers = n.peers)
    (hconfig : n'.config = n.config) (hstate : n'.state = .follower) : Counts n n' :=
  ⟨hid, hpeers, hconfig, fun h => by rw [hstate] at h; cases h⟩

theorem tryCommit (n : RaftNode) : Counts n n.tryCommit := by
  unfold RaftNode.tryCommit
  dsimp only
  split
  · exact refl n
  · rename_i i hfind
    have hfound := List.find?_some hfind
    rw [decide_eq_true_iff] at hfound
    exact ⟨rfl, rfl, rfl, fun _ _ => hfound.2⟩

theorem stepDown (n : RaftNode) (term : Nat) : Counts n (n.stepDown term) :=
  of_commit rfl rfl rfl rfl

theorem startElection (n : RaftNode) : Counts n n.startElection.1 := by
  unfold RaftNode.startElection
  dsimp only
  split
  · exact of_commit rfl rfl rfl rfl
  · exact of_commit rfl rfl rfl rfl

/-- The state an election starts from differs in what the counting does not see. -/
theorem of_startElection (hid : n'.id = n.id) (hpeers : n'.peers = n.peers)
    (hconfig : n'.config = n.config) (hcommit : n'.commitIndex = n.commitIndex) :
    Counts n n'.startElection.1 := by
  have h := startElection n'
  refine ⟨h.id.trans hid, h.peers.trans hpeers, h.config.trans hconfig, fun hs hne => ?_⟩
  exact h.commit hs (hcommit ▸ hne)

theorem startPreVote (n : RaftNode) : Counts n n.startPreVote.1 := by
  unfold RaftNode.startPreVote
  dsimp only
  split
  · exact of_startElection rfl rfl rfl rfl
  · exact of_commit rfl rfl rfl rfl

theorem handlePreVoteResponse (n : RaftNode) (src term : Nat) (granted : Bool) :
    Counts n (n.handlePreVoteResponse src term granted).1 := by
  unfold RaftNode.handlePreVoteResponse
  split
  · exact refl n
  · split
    · exact of_commit rfl rfl rfl rfl
    · split
      · exact of_commit rfl rfl rfl rfl
      · split
        · dsimp only
          split
          · exact of_startElection rfl rfl rfl rfl
          · exact of_commit rfl rfl rfl rfl
        · exact refl n

theorem handleAppendEntries (n : RaftNode) (term leaderId prevLogIndex prevLogTerm : Nat)
    (entries : List LogEntry) (leaderCommit : Nat) :
    Counts n (n.handleAppendEntries term leaderId prevLogIndex prevLogTerm entries
      leaderCommit).1 := by
  unfold RaftNode.handleAppendEntries
  split
  · exact refl n
  · dsimp only
    split
    · exact of_follower rfl rfl rfl rfl
    · exact of_follower rfl rfl rfl rfl

theorem handleAppendEntriesResponse (n : RaftNode) (src term : Nat) (success : Bool)
    (matchIndex : Nat) : Counts n (n.handleAppendEntriesResponse src term success matchIndex) := by
  unfold RaftNode.handleAppendEntriesResponse
  split
  · exact stepDown n term
  · split
    · exact refl n
    · split
      · have h := tryCommit { n with
          nextIndex := Function.update n.nextIndex src (some (matchIndex + 1))
          matchIndex := Function.update n.matchIndex src (some matchIndex) }
        exact ⟨h.id, h.peers, h.config, h.commit⟩
      · dsimp only
        split
        · exact of_commit rfl rfl rfl rfl
        · exact refl n

theorem handleRequestVote (n : RaftNode) (term candidateId lastLogIndex lastLogTerm : Nat)
    (isPreVote : Bool) :
    Counts n (n.handleRequestVote term candidateId lastLogIndex lastLogTerm isPreVote).1 := by
  unfold RaftNode.handleRequestVote
  split
  · exact refl n
  · dsimp only
    split
    · split
      · exact of_commit rfl rfl rfl rfl
      · exact of_commit rfl rfl rfl rfl
    · split
      · exact of_commit rfl rfl rfl rfl
      · exact refl n

theorem handleRequestVoteResponse (n : RaftNode) (src term : Nat) (voteGranted : Bool) :
    Counts n (n.handleRequestVoteResponse src term voteGranted) := by
  unfold RaftNode.handleRequestVoteResponse
  split
  · exact stepDown n term
  · split
    · exact refl n
    · split
      · dsimp only
        split
        · exact of_commit rfl rfl rfl rfl
        · exact of_commit rfl rfl rfl rfl
      · exact refl n

theorem handleInstallSnapshot (n : RaftNode) (term leaderId : Nat) (snapshot : Snapshot) :
    Counts n (n.handleInstallSnapshot term leaderId snapshot).1 := by
  unfold RaftNode.handleInstallSnapshot
  split
  · exact refl n
  · exact of_commit rfl rfl rfl rfl

theorem handleMessage (n : RaftNode) (src : NodeId) (message : RaftMessage) :
    Counts n (n.handleMessage src message).1 := by
  cases message with
  | appendEntriesRequest term leaderId prevLogIndex prevLogTerm entries leaderCommit =>
    exact handleAppendEntries n term leaderId prevLogIndex prevLogTerm entries leaderCommit
  | appendEntriesResponse term success matchIndex =>
    exact handleAppendEntriesResponse n src term success matchIndex
  | requestVoteRequest term candidateId lastLogIndex lastLogTerm isPreVote =>
    exact handleRequestVote n term candidateId lastLogIndex lastLogTerm isPreVote
  | requestVoteResponse term voteGranted isPreVote =>
    unfold RaftNode.handleMessage
    cases isPreVote with
    | true => exact handlePreVoteResponse n src term voteGranted
    | false => exact handleRequestVoteResponse n src term voteGranted
  | installSnapshotRequest term leaderId snapshot =>
    exact handleInstallSnapshot n term leaderId snapshot
  | installSnapshotResponse term | readIndexResponse term =>
    unfold RaftNode.handleMessage
    dsimp only
    split
    · exact stepDown n term
    · exact refl n
  | readIndexRequest term index => exact refl n
  | timeoutNow term =>
    unfold RaftNode.handleMessage
    dsimp only
    split
    · exact startElection n
    · exact refl n
  | configChangeRequest term leaderId newNodes =>
    unfold RaftNode.handleMessage
    dsimp only
    split
    · exact of_commit rfl rfl rfl rfl
    · exact refl n

theorem tick (n : RaftNode) : Counts n n.tick.1 := by
  unfold RaftNode.tick RaftNode.heartbeat
  dsimp only
  split
  · split
    · exact of_commit rfl rfl rfl rfl
    · exact of_commit rfl rfl rfl rfl
  · split
    · have h := startPreVote { n with ticksSinceReset := n.ticksSinceReset + 1 }
      exact ⟨h.id, h.peers, h.config, h.commit⟩
    · exact of_commit rfl rfl rfl rfl
  · split
    · have h := startPreVote { n with ticksSinceReset := n.ticksSinceReset + 1 }
      exact ⟨h.id, h.peers, h.config, h.commit⟩
    · exact of_commit rfl rfl rfl rfl
  · split
    · split
      · exact of_commit rfl rfl rfl rfl
      · split
        · exact of_commit rfl rfl rfl rfl
        · exact of_commit rfl rfl rfl rfl
    · exact of_commit rfl rfl rfl rfl

theorem propose (n : RaftNode) (command : List UInt8) : Counts n (n.propose command).1 := by
  unfold RaftNode.propose
  split
  · exact refl n
  · have h := tryCommit { n with
      log := (n.log.append n.currentTerm command).1
      nextIndex := Function.update n.nextIndex n.id
        (some ((n.log.append n.currentTerm command).2 + 1))
      matchIndex := Function.update n.matchIndex n.id
        (some (n.log.append n.currentTerm command).2) }
    exact ⟨h.id, h.peers, h.config, h.commit⟩

theorem transferLeadership (n : RaftNode) (target : NodeId) :
    Counts n (n.transferLeadership target).1 := by
  unfold RaftNode.transferLeadership
  split
  · exact refl n
  · split
    · exact refl n
    · split
      · exact of_commit rfl rfl rfl rfl
      · exact stepDown n _

theorem createSnapshot (n : RaftNode) (lastIndex : Nat) (data : List UInt8) (now : Nat) :
    Counts n (n.createSnapshot lastIndex data now).1 := by
  unfold RaftNode.createSnapshot
  split
  · exact refl n
  · split
    · exact refl n
    · exact of_commit rfl rfl rfl rfl

theorem compactLog (n : RaftNode) (index term : Nat) (data : List UInt8) (now : Nat) :
    Counts n (n.compactLog index term data now).1 := by
  unfold RaftNode.compactLog
  split
  · exact refl n
  · dsimp only
    split
    · exact refl n
    · exact of_commit rfl rfl rfl rfl

theorem installSnapshot (n : RaftNode) (snapshot : Snapshot) :
    Counts n (n.installSnapshot snapshot).1 := by
  unfold RaftNode.installSnapshot
  split
  · exact refl n
  · exact of_commit rfl rfl rfl rfl

end Counts

/-! ### Changes -/

section Changing
variable (toVec : ClusterConfig → Option (List UInt8))

/-- A node, with the nodes before its last change and the index of the joint entry. -/
structure Changing where
  node : RaftNode
  old : Finset NodeId
  entry : Nat

inductive ChangeEvent where
  | call (c : Call)
  | receive (src : NodeId) (message : RaftMessage)
deriving DecidableEq, Repr

namespace Changing

/-- A proposed change is accepted. -/
def Begins (n : RaftNode) : Prop := n.state = .leader ∧ n.config.transition = none

instance : DecidablePred Begins := fun _ => inferInstanceAs (Decidable (_ ∧ _))

def next (s : Changing) : ChangeEvent → Changing
  | .call (.proposeMembershipChange newNodes) =>
    let node := (s.node.proposeMembershipChange toVec newNodes).1
    if Begins s.node then ⟨node, s.node.config.nodes, s.node.log.lastIndex + 1⟩
    else { s with node }
  | .call c => { s with node := (s.node.serve toVec c).1 }
  | .receive src message => { s with node := (s.node.handleMessage src message).1 }

/-- The new nodes of a change under way. -/
def Transition (s : Changing) (new : Finset NodeId) : Prop := s.node.config.transition = some new

/-- During a change all nodes are members, and they are safe to count together. -/
def Joint (s : Changing) : Prop :=
  ∀ new, s.Transition new →
    s.node.config.nodes = s.old ∪ new ∧ JointSafe s.node.id s.node.peers s.old new

/-- A change is begun only between sets that are safe to count together, and ended only when
the joint entry is committed. -/
def Careful (s : Changing) : ChangeEvent → Prop
  | .call (.proposeMembershipChange newNodes) => Begins s.node →
    JointSafe s.node.id s.node.peers s.node.config.nodes newNodes.toFinset
  | .call .finalizeMembershipChange => s.node.config.transition.isSome = true →
    s.entry ≤ s.node.commitIndex
  | _ => True

instance (s : Changing) : DecidablePred s.Careful := fun e =>
  match e with
  | .call (.proposeMembershipChange newNodes) => inferInstanceAs (Decidable (Begins s.node →
    JointSafe s.node.id s.node.peers s.node.config.nodes newNodes.toFinset))
  | .call .finalizeMembershipChange =>
    inferInstanceAs (Decidable (s.node.config.transition.isSome = true →
      s.entry ≤ s.node.commitIndex))
  | .call .tick | .call (.propose _) | .call (.transferLeadership _) | .call .startPreVote
  | .call (.advanceApplied _) | .call (.createSnapshot _ _ _) | .call (.compactLog _ _ _ _)
  | .call (.installSnapshot _) | .receive _ _ => inferInstanceAs (Decidable True)

/-- What a leader commits during a change is stored by both majorities, and the change is not
ended before its entry is committed. -/
structure Kept (s : Changing) (e : ChangeEvent) : Prop where
  quorums : ∀ new k, (s.next toVec e).Transition new → (s.next toVec e).node.state = .leader →
    s.node.commitIndex < k → k ≤ (s.next toVec e).node.commitIndex →
    Majority (s.next toVec e).old ((s.next toVec e).node.Stores k) ∧
      Majority new ((s.next toVec e).node.Stores k)
  finalized : e = .call .finalizeMembershipChange → s.node.config.transition.isSome = true →
    s.entry ≤ s.node.commitIndex

theorem Joint.of_counts {s s' : Changing} (h : s.Joint) (hold : s'.old = s.old)
    (hcounts : Counts s.node s'.node) : s'.Joint := by
  intro new hnew
  rw [Transition, hcounts.config] at hnew
  rw [hcounts.config, hcounts.id, hcounts.peers, hold]
  exact h new hnew

theorem serve_counts {n : RaftNode} {c : Call} (hpropose : ∀ new, c ≠ .proposeMembershipChange new)
    (hfinalize : c ≠ .finalizeMembershipChange) : Counts n (n.serve toVec c).1 := by
  cases c with
  | tick => exact .tick n
  | propose command => exact .propose n command
  | transferLeadership target => exact .transferLeadership n target
  | startPreVote => exact .startPreVote n
  | advanceApplied count => exact .of_commit rfl rfl rfl rfl
  | createSnapshot lastIndex data now => exact .createSnapshot n lastIndex data now
  | compactLog index term data now => exact .compactLog n index term data now
  | installSnapshot snapshot => exact .installSnapshot n snapshot
  | proposeMembershipChange newNodes => exact absurd rfl (hpropose newNodes)
  | finalizeMembershipChange => exact absurd rfl hfinalize

/-- A step keeps the sets it counts over joint and commits by count. -/
structure Counted (s s' : Changing) : Prop where
  joint : s'.Joint
  commit : ∀ new, s'.Transition new → s'.node.state = .leader →
    s'.node.commitIndex ≠ s.node.commitIndex →
    s'.node.majority ≤ s'.node.replicaCount s'.node.commitIndex

theorem Counted.of_counts {s s' : Changing} (h : s.Joint) (hold : s'.old = s.old)
    (hcounts : Counts s.node s'.node) : Counted s s' :=
  ⟨h.of_counts hold hcounts, fun _ _ => hcounts.commit⟩

theorem proposeMembershipChange_counted {s : Changing} (h : s.Joint) {newNodes : List NodeId}
    (hsafe : s.Careful (.call (.proposeMembershipChange newNodes))) :
    Counted s (s.next toVec (.call (.proposeMembershipChange newNodes))) := by
  simp only [next]
  split
  · rename_i hbegins
    unfold RaftNode.proposeMembershipChange
    rw [if_neg (by rw [hbegins.1]; simp), if_neg (by rw [hbegins.2]; simp)]
    have hcounts := Counts.propose { s.node with
      config := ⟨s.node.config.nodes ∪ newNodes.toFinset, some newNodes.toFinset⟩ }
      (RaftNode.configCommand toVec
        ⟨s.node.config.nodes ∪ newNodes.toFinset, some newNodes.toFinset⟩)
    refine ⟨fun new hnew => ?_, fun _ _ => hcounts.commit⟩
    rw [Transition, hcounts.config, Option.some.injEq] at hnew
    subst new
    refine ⟨by rw [hcounts.config], ?_⟩
    dsimp only
    rw [hcounts.id, hcounts.peers]
    exact hsafe hbegins
  · rename_i hbegins
    have hsame : (s.node.proposeMembershipChange toVec newNodes).1 = s.node := by
      unfold RaftNode.proposeMembershipChange
      split
      · rfl
      · rename_i hleader
        rw [not_not] at hleader
        rw [if_pos]
        rw [Option.isSome_iff_ne_none]
        exact fun hnone => hbegins ⟨hleader, hnone⟩
    refine .of_counts h rfl ?_
    dsimp only
    rw [hsame]
    exact .refl _

theorem finalizeMembershipChange_counted {s : Changing} (h : s.Joint) :
    Counted s (s.next toVec (.call .finalizeMembershipChange)) := by
  cases htrans : s.node.config.transition with
  | none =>
    have hsame : (s.node.serve toVec .finalizeMembershipChange).1 = s.node := by
      simp only [RaftNode.serve, RaftNode.finalizeMembershipChange, htrans]
    refine .of_counts h rfl ?_
    dsimp only [next]
    rw [hsame]
    exact .refl _
  | some new =>
    have hnone : ∀ new', ¬ (s.next toVec (.call .finalizeMembershipChange)).Transition new' := by
      intro new' hnew'
      have hcounts := Counts.propose { s.node with config := ⟨new, none⟩ }
        (RaftNode.configCommand toVec ⟨new, none⟩)
      simp only [Transition, next, RaftNode.serve, RaftNode.finalizeMembershipChange, htrans,
        hcounts.config] at hnew'
      cases hnew'
    exact ⟨fun new' hnew' => absurd hnew' (hnone new'), fun new' hnew' => absurd hnew' (hnone new')⟩

theorem next_counted {s : Changing} (h : s.Joint) {e : ChangeEvent} (he : s.Careful e) :
    Counted s (s.next toVec e) := by
  cases e with
  | receive src message => exact .of_counts h rfl (.handleMessage s.node src message)
  | call c =>
    cases c with
    | proposeMembershipChange newNodes => exact proposeMembershipChange_counted toVec h he
    | finalizeMembershipChange => exact finalizeMembershipChange_counted toVec h
    | tick | propose | transferLeadership | startPreVote | advanceApplied | createSnapshot
    | compactLog | installSnapshot =>
      exact .of_counts h rfl (serve_counts toVec nofun nofun)

/-- The peers that acknowledged an entry count for the two sets once they count for both
together. -/
theorem Joint.majorities {s : Changing} (h : s.Joint) {new : Finset NodeId}
    (hnew : s.Transition new) {k c : Nat} (hk : k ≤ c)
    (hcount : s.node.majority ≤ s.node.replicaCount c) :
    Majority s.old (s.node.Stores k) ∧ Majority new (s.node.Stores k) := by
  obtain ⟨hnodes, hsafe⟩ := h new hnew
  have hmem : ∀ p ∈ s.node.peers, (p ∈ s.node.peers.toFinset.filter
      fun p => c ≤ (s.node.matchIndex p).getD 0) ↔ c ≤ (s.node.matchIndex p).getD 0 := by
    intro p hp
    rw [Finset.mem_filter, List.mem_toFinset]
    exact and_iff_right hp
  obtain ⟨hold, hnew'⟩ := hsafe (s.node.peers.toFinset.filter fun p =>
      c ≤ (s.node.matchIndex p).getD 0) (Finset.filter_subset _ _) (by
    rw [RaftNode.majority, hnodes, RaftNode.replicaCount] at hcount
    rwa [List.filter_congr fun p hp => decide_eq_decide.mpr (hmem p hp)])
  have himp : ∀ p, (p = s.node.id ∨ p ∈ s.node.peers.toFinset.filter
      fun p => c ≤ (s.node.matchIndex p).getD 0) → s.node.Stores k p := by
    rintro p (hid | hp)
    · exact .inl hid
    · exact .inr (hk.trans (Finset.mem_filter.mp hp).2)
  exact ⟨hold.mono fun p _ => himp p, hnew'.mono fun p _ => himp p⟩

theorem Counted.kept {s : Changing} {e : ChangeEvent} (h : Counted s (s.next toVec e))
    (he : s.Careful e) : s.Kept toVec e where
  quorums new k hnew hleader hlt hk :=
    h.joint.majorities hnew hk (h.commit new hnew hleader (by omega))
  finalized heq := by
    subst heq
    exact he

end Changing
end Changing

/-- In a run of careful changes every step keeps the quorums of both sets. -/
theorem quorums_intersect (toVec : ClusterConfig → Option (List UInt8)) {s s' : Changing}
    (hstart : s.Joint) (hrun : Run (Changing.next toVec) (fun s => s.Careful) s s')
    {e : ChangeEvent} (he : s'.Careful e) : s'.Kept toVec e := by
  have hjoint : s'.Joint :=
    hrun.invariant Changing.Joint (fun _ _ h he => (Changing.next_counted toVec h he).joint) hstart
  exact (Changing.next_counted toVec hjoint he).kept toVec he

/-- Node 1 of three leads, and a node 4 is to join. -/
def joins : List ChangeEvent :=
  [.call .tick, .receive 2 (.requestVoteResponse 0 true true),
    .receive 2 (.requestVoteResponse 1 true false),
    .call (.proposeMembershipChange [1, 2, 3, 4]), .receive 2 (.appendEntriesResponse 1 true 1)]

def leaderOfThree : Changing := ⟨.withTimeouts 1 [2, 3] 1 1 0, ∅, 0⟩

theorem quorums_intersect_joins :
    (joins.foldl (Changing.next fun _ => none) leaderOfThree).Kept (fun _ => none)
      (.receive 3 (.appendEntriesResponse 1 true 1)) :=
  quorums_intersect (s := leaderOfThree) (fun _ => none)
    (fun new (h : (none : Option (Finset NodeId)) = some new) => nomatch h)
    (Run.of_allows joins (by decide +kernel)) trivial

/-- Node 3 is to leave, and acknowledges its leaving: with the leader it is a majority of the
three, while the other remaining node has nothing. -/
def leaves : List ChangeEvent :=
  [.call .tick, .receive 2 (.requestVoteResponse 0 true true),
    .receive 2 (.requestVoteResponse 1 true false), .call (.proposeMembershipChange [1, 2])]

theorem minority_of_new_nodes : ¬ ∀ (toVec : ClusterConfig → Option (List UInt8)) (s s' : Changing)
    (e : ChangeEvent), (∃ peers timeout interval offset, s.node =
      .withTimeouts 1 peers timeout interval offset) →
    Run (Changing.next toVec) (fun _ _ => True) s s' → s'.Kept toVec e := by
  intro h
  have hkept := h (fun _ => none) leaderOfThree _ (.receive 3 (.appendEntriesResponse 1 true 1))
    ⟨_, _, _, _, rfl⟩ (Run.of_allows leaves (Run.allows_true leaves))
  have hquorums := hkept.quorums {1, 2} 1 (by unfold Changing.Transition; decide +kernel)
    (by decide +kernel) (by decide +kernel) (by decide +kernel)
  exact absurd hquorums.2 (by decide +kernel)

/-! ### Which sets are safe -/

/-- A leader whose peers that acknowledged the only entry are given. -/
def acknowledged (id : NodeId) (peers : List NodeId) (old new acked : Finset NodeId) : Changing where
  node := { RaftNode.new id peers 0 with
    state := .leader
    currentTerm := 1
    log := ⟨[⟨1, 1, []⟩], 0, 0⟩
    matchIndex := fun p => if p ∈ acked then some 1 else none
    config := ⟨old ∪ new, some new⟩ }
  old := old
  entry := 1

/-- Sets that are not safe to count together are miscounted in some state. -/
theorem jointSafe_iff_kept (toVec : ClusterConfig → Option (List UInt8)) (id : NodeId)
    (peers : List NodeId) (old new : Finset NodeId) : JointSafe id peers old new ↔
      ∀ s : Changing, s.node.id = id → s.node.peers = peers → s.old = old → s.Transition new →
        s.node.config.nodes = old ∪ new → ∀ src message, s.Kept toVec (.receive src message) := by
  constructor
  · rintro hsafe s rfl rfl rfl hnew hnodes src message
    have hjoint : s.Joint := by
      intro new' hnew'
      obtain rfl := Option.some.inj (hnew.symm.trans hnew')
      exact ⟨hnodes, hsafe⟩
    have he : s.Careful (.receive src message) := trivial
    exact (Changing.next_counted toVec hjoint he).kept toVec he
  · intro hkept acked _ hcount
    let n := (acknowledged id peers old new acked).node
    let counted : RaftNode := { n with
      nextIndex := Function.update n.nextIndex id (some 2)
      matchIndex := Function.update n.matchIndex id (some 1) }
    have hstores : ∀ p, counted.Stores 1 p ↔ p = id ∨ p ∈ acked := by
      intro p
      rw [RaftNode.Stores, show counted.matchIndex = Function.update n.matchIndex id (some 1) from rfl,
        Function.update_apply]
      by_cases hp : p = id
      · exact ⟨fun _ => .inl hp, fun _ => .inl hp⟩
      · by_cases hacked : p ∈ acked <;>
          simp [hp, hacked, n, counted, acknowledged, RaftNode.new]
    have hreplicas : counted.majority ≤ counted.replicaCount 1 := by
      refine Nat.le_trans hcount (Nat.add_le_add_left (List.Sublist.length_le ?_) 1)
      refine List.monotone_filter_right peers fun p hp => ?_
      rw [decide_eq_true_iff] at hp ⊢
      rcases (hstores p).mpr (.inr hp) with hid | hle
      · rw [hid]
        show 1 ≤ (Function.update n.matchIndex id (some 1) id).getD 0
        rw [Function.update_self]
        exact Nat.le_refl 1
      · exact hle
    have hcommit : counted.tryCommit = { counted with commitIndex := 1 } := by
      have hfind : [1].find? (fun i => decide (counted.log.termFor i = some counted.currentTerm ∧
          counted.majority ≤ counted.replicaCount i)) = some 1 :=
        List.find?_cons_of_pos (by rw [decide_eq_true_iff]; exact ⟨rfl, hreplicas⟩)
      unfold RaftNode.tryCommit
      dsimp only
      rw [show (List.range' (counted.commitIndex + 1)
        (counted.log.lastIndex - counted.commitIndex)).reverse = [1] from rfl, hfind]
    have hnext : ((acknowledged id peers old new acked).next toVec
        (.receive id (.appendEntriesResponse 1 true 1))).node = { counted with commitIndex := 1 } :=
      hcommit
    have hquorums := (hkept (acknowledged id peers old new acked) rfl rfl rfl rfl rfl id
      (.appendEntriesResponse 1 true 1)).quorums new 1
    rw [Changing.Transition, hnext] at hquorums
    obtain ⟨hold, hnew⟩ := hquorums rfl rfl Nat.zero_lt_one (Nat.le_refl 1)
    exact ⟨hold.mono fun p _ hp => (hstores p).mp hp, hnew.mono fun p _ hp => (hstores p).mp hp⟩

theorem filter_mem_length {peers : List NodeId} (hnodup : peers.Nodup) {acked : Finset NodeId}
    (hacked : acked ⊆ peers.toFinset) :
    (peers.filter fun p => decide (p ∈ acked)).length = acked.card := by
  rw [← List.toFinset_card_of_nodup (hnodup.filter _), List.toFinset_filter]
  congr 1
  ext p
  simp only [Finset.mem_filter, decide_eq_true_eq]
  exact ⟨fun h => h.2, fun h => ⟨hacked h, h⟩⟩

theorem filter_insert_card {id : NodeId} {acked X : Finset NodeId} (hid : id ∉ acked) :
    (X.filter fun p => p = id ∨ p ∈ acked).card =
      (if id ∈ X then 1 else 0) + (acked ∩ X).card := by
  have hmem : (X.filter fun p => p = id ∨ p ∈ acked) =
      (if id ∈ X then {id} else ∅) ∪ acked ∩ X := by
    ext p
    by_cases hp : p = id
    · subst p
      by_cases hX : id ∈ X <;> simp [hX]
    · by_cases hX : id ∈ X <;> simp [hp, hX, and_comm]
  have hdisj : Disjoint (if id ∈ X then {id} else ∅) (acked ∩ X) := by
    split
    · rw [Finset.disjoint_singleton_left]
      exact fun h => hid (Finset.mem_inter.mp h).1
    · exact Finset.disjoint_empty_left _
  rw [hmem, Finset.card_union_of_disjoint hdisj]
  split <;> rfl

/-- How many of a set are sure to be among the leader and `needed` of its peers. -/
def sureOf (id : NodeId) (peers : List NodeId) (needed : Nat) (X : Finset NodeId) : Nat :=
  (if id ∈ X then 1 else 0) + (needed - (peers.toFinset \ X).card)

/-- For peers listed once: no commit is possible, or enough of either set are sure to be counted. -/
theorem jointSafe_iff_card {id : NodeId} {peers : List NodeId} {old new : Finset NodeId}
    (hnodup : peers.Nodup) (hid : id ∉ peers) : JointSafe id peers old new ↔
      peers.length < (old ∪ new).card / 2 ∨
      (old.card / 2 + 1 ≤ sureOf id peers ((old ∪ new).card / 2) old ∧
        new.card / 2 + 1 ≤ sureOf id peers ((old ∪ new).card / 2) new) := by
  generalize hneeded : (old ∪ new).card / 2 = needed
  have hlen : peers.toFinset.card = peers.length := List.toFinset_card_of_nodup hnodup
  have hsure : ∀ X : Finset NodeId, needed ≤ peers.toFinset.card →
      ((∀ acked ⊆ peers.toFinset, needed ≤ acked.card →
        Majority X (fun p => p = id ∨ p ∈ acked)) ↔
        X.card / 2 + 1 ≤ sureOf id peers needed X) := by
    intro X hle
    have hcount := forall_le_card_inter_iff (X := X)
      (m := X.card / 2 + 1 - (if id ∈ X then 1 else 0)) hle
    rw [sureOf, ← Nat.sub_le_iff_le_add', ← hcount]
    refine forall_congr' fun acked => forall_congr' fun hacked => forall_congr' fun _ => ?_
    have hnot : id ∉ acked := fun h => hid (List.mem_toFinset.mp (hacked h))
    rw [Majority, filter_insert_card hnot, Nat.sub_le_iff_le_add']
  have hjoint : JointSafe id peers old new ↔ ∀ acked ⊆ peers.toFinset, needed ≤ acked.card →
      Majority old (fun p => p = id ∨ p ∈ acked) ∧
        Majority new (fun p => p = id ∨ p ∈ acked) := by
    refine forall_congr' fun acked => forall_congr' fun hacked => ?_
    rw [filter_mem_length hnodup hacked, hneeded, Nat.add_comm, Nat.add_le_add_iff_left]
  rw [hjoint]
  rcases Nat.lt_or_ge peers.length needed with hlt | hge
  · refine iff_of_true (fun acked hacked hcard => ?_) (.inl hlt)
    have := Finset.card_le_card hacked
    omega
  · rw [or_iff_right (by omega), ← hsure old (by omega), ← hsure new (by omega)]
    exact ⟨fun h => ⟨fun A hA hc => (h A hA hc).1, fun A hA hc => (h A hA hc).2⟩,
      fun h A hA hc => ⟨h.1 A hA hc, h.2 A hA hc⟩⟩

end Suture.Raft
