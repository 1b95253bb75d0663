import Suture.Foundation.Run
import Suture.Raft.Calls

/-!
# One vote in a term

A single node takes calls and messages in any order. Its term never falls. A step that stays
in its term keeps the vote of the term, with two exceptions: a hand-over to a node that has
caught up, and a change of the configuration.
-/

namespace Suture.Raft
set_option autoImplicit false
open Foundation RaftNode

inductive Input where
  | call (c : Call)
  | message (src : NodeId) (m : RaftMessage)
deriving DecidableEq, Repr

/-- The node is in a later term, or in the same one and still has its vote. -/
def KeepsVote (n n' : RaftNode) : Prop :=
  n.currentTerm < n'.currentTerm ∨
    n'.currentTerm = n.currentTerm ∧ ∀ c, n.votedFor = some c → n'.votedFor = some c

namespace KeepsVote
variable {n n' n'' : RaftNode}

theorem of_eq (hterm : n'.currentTerm = n.currentTerm) (hvote : n'.votedFor = n.votedFor) :
    KeepsVote n n' :=
  .inr ⟨hterm, fun _ hc => hvote.trans hc⟩

theorem trans (h : KeepsVote n n') (h' : KeepsVote n' n'') : KeepsVote n n'' := by
  rcases h with hlt | ⟨heq, hkeep⟩
  · left
    rcases h' with hlt' | ⟨heq', _⟩ <;> omega
  · rcases h' with hlt' | ⟨heq', hkeep'⟩
    · exact .inl (heq ▸ hlt')
    · exact .inr ⟨heq'.trans heq, fun c hc => hkeep' c (hkeep c hc)⟩

theorem term_le (h : KeepsVote n n') : n.currentTerm ≤ n'.currentTerm := by
  rcases h with hlt | ⟨heq, _⟩ <;> omega

end KeepsVote

variable {n : RaftNode}

/-! ### What the handlers do to the vote -/

theorem stepDown_keepsVote {term : Nat} (h : n.currentTerm < term) : KeepsVote n (n.stepDown term) := by
  left
  show n.currentTerm < if n.currentTerm < term then term else n.currentTerm
  rw [if_pos h]
  exact h

theorem tryCommit_keepsVote {m : RaftNode} (hterm : m.currentTerm = n.currentTerm)
    (hvote : m.votedFor = n.votedFor) : KeepsVote n m.tryCommit := by
  unfold tryCommit
  dsimp only
  split <;> exact .of_eq hterm hvote

theorem startElection_keepsVote (n : RaftNode) : KeepsVote n n.startElection.1 := by
  unfold startElection
  dsimp only
  split <;> exact .inl (Nat.lt_succ_self n.currentTerm)

theorem startPreVote_keepsVote (n : RaftNode) : KeepsVote n n.startPreVote.1 := by
  unfold startPreVote
  dsimp only
  split
  · exact startElection_keepsVote _
  · exact .of_eq rfl rfl

theorem handlePreVoteResponse_keepsVote (n : RaftNode) (src term : Nat) (granted : Bool) :
    KeepsVote n (n.handlePreVoteResponse src term granted).1 := by
  unfold handlePreVoteResponse
  split
  · exact .of_eq rfl rfl
  · split
    · rename_i hlt
      exact stepDown_keepsVote (n := { n with preVote := none, state := .follower }) hlt
    · split
      · exact .of_eq rfl rfl
      · split
        · dsimp only
          split
          · exact startElection_keepsVote _
          · exact .of_eq rfl rfl
        · exact .of_eq rfl rfl

theorem followLeader_keepsVote {term : Nat} (h : n.currentTerm ≤ term) (leaderId : Nat) :
    KeepsVote n (n.followLeader term leaderId) := by
  rcases Nat.lt_or_ge n.currentTerm term with hlt | hge
  · left
    show n.currentTerm < if n.currentTerm < term then term else n.currentTerm
    rw [if_pos hlt]
    exact hlt
  · apply KeepsVote.of_eq
    · exact if_neg (by omega)
    · exact if_neg (by omega)

theorem handleAppendEntries_keepsVote (n : RaftNode) (term leaderId prevLogIndex prevLogTerm : Nat)
    (entries : List LogEntry) (leaderCommit : Nat) :
    KeepsVote n
      (n.handleAppendEntries term leaderId prevLogIndex prevLogTerm entries leaderCommit).1 := by
  unfold handleAppendEntries
  split
  · exact .of_eq rfl rfl
  · rename_i hge
    have hfollow := followLeader_keepsVote (n := n) (Nat.le_of_not_lt hge) leaderId
    dsimp only
    split
    · exact hfollow.trans (.of_eq rfl rfl)
    · exact hfollow

theorem handleAppendEntriesResponse_keepsVote (n : RaftNode) (src term : Nat) (success : Bool)
    (matchIndex : Nat) : KeepsVote n (n.handleAppendEntriesResponse src term success matchIndex) := by
  unfold handleAppendEntriesResponse
  split
  · rename_i hlt
    exact stepDown_keepsVote hlt
  · split
    · exact .of_eq rfl rfl
    · split
      · exact tryCommit_keepsVote rfl rfl
      · dsimp only
        split <;> exact .of_eq rfl rfl

theorem adoptTerm_keepsVote {term : Nat} (h : n.currentTerm < term) : KeepsVote n (n.adoptTerm term) :=
  .inl h

theorem handleRequestVote_keepsVote (n : RaftNode)
    (term candidateId lastLogIndex lastLogTerm : Nat) (isPreVote : Bool) :
    KeepsVote n (n.handleRequestVote term candidateId lastLogIndex lastLogTerm isPreVote).1 := by
  unfold handleRequestVote
  split
  · exact .of_eq rfl rfl
  · dsimp only
    have hm : KeepsVote n (if (!isPreVote && decide (n.currentTerm < term)) = true then
        n.adoptTerm term else n) := by
      split
      · rename_i hlt
        exact adoptTerm_keepsVote (by simpa using (Bool.and_eq_true_iff.mp hlt).2)
      · exact .of_eq rfl rfl
    refine hm.trans ?_
    generalize (if (!isPreVote && decide (n.currentTerm < term)) = true then
      n.adoptTerm term else n) = m
    split
    · rename_i hvote
      simp only [Bool.and_eq_true, Bool.or_eq_true, decide_eq_true_eq, Bool.not_eq_true'] at hvote
      obtain ⟨⟨hfree, _⟩, hreal⟩ := hvote
      refine .inr ⟨rfl, fun c hc => ?_⟩
      rcases hfree with hpre | hnone | hsame
      · rw [hpre] at hreal
        cases hreal
      · rw [hnone] at hc
        cases hc
      · exact hsame.symm.trans hc
    · exact .of_eq rfl rfl

theorem handleRequestVoteResponse_keepsVote (n : RaftNode) (src term : Nat) (voteGranted : Bool) :
    KeepsVote n (n.handleRequestVoteResponse src term voteGranted) := by
  unfold handleRequestVoteResponse
  split
  · rename_i hlt
    exact stepDown_keepsVote hlt
  · split
    · exact .of_eq rfl rfl
    · split
      · dsimp only
        split <;> exact .of_eq rfl rfl
      · exact .of_eq rfl rfl

theorem handleInstallSnapshot_keepsVote (n : RaftNode) (term leaderId : Nat) (snapshot : Snapshot) :
    KeepsVote n (n.handleInstallSnapshot term leaderId snapshot).1 := by
  unfold handleInstallSnapshot
  split
  · exact .of_eq rfl rfl
  · rename_i hge
    exact (followLeader_keepsVote (Nat.le_of_not_lt hge) leaderId).trans (.of_eq rfl rfl)

theorem heartbeat_keepsVote {m : RaftNode} (hterm : m.currentTerm = n.currentTerm)
    (hvote : m.votedFor = n.votedFor) : KeepsVote n m.heartbeat.1 := by
  unfold heartbeat
  dsimp only
  split
  · exact .of_eq hterm hvote
  · split <;> exact .of_eq hterm hvote

theorem tick_keepsVote (n : RaftNode) : KeepsVote n n.tick.1 := by
  have hticked : KeepsVote n { n with ticksSinceReset := n.ticksSinceReset + 1 } := .of_eq rfl rfl
  refine hticked.trans ?_
  unfold tick
  dsimp only
  split
  · split <;> exact .of_eq rfl rfl
  · split
    · exact startPreVote_keepsVote _
    · exact .of_eq rfl rfl
  · split
    · exact startPreVote_keepsVote _
    · exact .of_eq rfl rfl
  · split
    · exact heartbeat_keepsVote rfl rfl
    · exact .of_eq rfl rfl

theorem propose_keepsVote {m : RaftNode} (hterm : m.currentTerm = n.currentTerm)
    (hvote : m.votedFor = n.votedFor) (command : List UInt8) : KeepsVote n (m.propose command).1 := by
  unfold propose
  split
  · exact .of_eq hterm hvote
  · dsimp only
    exact tryCommit_keepsVote hterm hvote

/-- The two steps that clear a vote and stay in its term. -/
def ClearsVote (n : RaftNode) : Input → Prop
  | .call (.transferLeadership target) => n.state = .leader ∧ target ∈ n.config.nodes ∧
      n.log.lastIndex ≤ (n.matchIndex target).getD 0
  | .message _ (.configChangeRequest term _ _) => term = n.currentTerm
  | _ => False

theorem transferLeadership_keepsVote {target : NodeId}
    (h : ¬ ClearsVote n (.call (.transferLeadership target))) :
    KeepsVote n (n.transferLeadership target).1 := by
  unfold transferLeadership
  split
  · exact .of_eq rfl rfl
  · split
    · exact .of_eq rfl rfl
    · split
      · exact .of_eq rfl rfl
      · rename_i hleader htarget hbehind
        exact absurd ⟨not_not.mp hleader, not_not.mp htarget, Nat.le_of_not_lt hbehind⟩ h

section Runs
variable (toVec : ClusterConfig → Option (List UInt8))

def respond (n : RaftNode) : Input → RaftNode × List Outgoing
  | .call c => n.serve toVec c
  | .message src m => n.handleMessage src m

theorem serve_keepsVote {c : Call} (h : ¬ ClearsVote n (.call c)) : KeepsVote n (n.serve toVec c).1 := by
  cases c with
  | tick => exact tick_keepsVote n
  | propose command => exact propose_keepsVote rfl rfl command
  | transferLeadership target => exact transferLeadership_keepsVote h
  | startPreVote => exact startPreVote_keepsVote n
  | advanceApplied count => exact .of_eq rfl rfl
  | createSnapshot lastIndex data now =>
    simp only [serve, createSnapshot]
    split
    · exact .of_eq rfl rfl
    · split <;> exact .of_eq rfl rfl
  | compactLog index term data now =>
    simp only [serve, compactLog]
    split
    · exact .of_eq rfl rfl
    · split <;> exact .of_eq rfl rfl
  | installSnapshot snapshot =>
    simp only [serve, installSnapshot]
    split <;> exact .of_eq rfl rfl
  | proposeMembershipChange newNodes =>
    simp only [serve, proposeMembershipChange]
    split
    · exact .of_eq rfl rfl
    · split
      · exact .of_eq rfl rfl
      · apply propose_keepsVote <;> rfl
  | finalizeMembershipChange =>
    simp only [serve, finalizeMembershipChange]
    split
    · exact .of_eq rfl rfl
    · apply propose_keepsVote <;> rfl

theorem handleMessage_keepsVote {src : NodeId} {m : RaftMessage} (h : ¬ ClearsVote n (.message src m)) :
    KeepsVote n (n.handleMessage src m).1 := by
  have hlater : ∀ term, KeepsVote n (if n.currentTerm < term then n.stepDown term else n) := by
    intro term
    split
    · rename_i hlt
      exact stepDown_keepsVote hlt
    · exact .of_eq rfl rfl
  cases m with
  | appendEntriesRequest term leaderId prevLogIndex prevLogTerm entries leaderCommit =>
    exact handleAppendEntries_keepsVote ..
  | appendEntriesResponse term success matchIndex => exact handleAppendEntriesResponse_keepsVote ..
  | requestVoteRequest term candidateId lastLogIndex lastLogTerm isPreVote =>
    exact handleRequestVote_keepsVote ..
  | requestVoteResponse term voteGranted isPreVote =>
    simp only [handleMessage]
    split
    · exact handlePreVoteResponse_keepsVote ..
    · exact handleRequestVoteResponse_keepsVote ..
  | installSnapshotRequest term leaderId snapshot => exact handleInstallSnapshot_keepsVote ..
  | installSnapshotResponse term => exact hlater term
  | readIndexRequest term index => exact .of_eq rfl rfl
  | readIndexResponse term => exact hlater term
  | timeoutNow term =>
    simp only [handleMessage]
    split
    · exact startElection_keepsVote n
    · exact .of_eq rfl rfl
  | configChangeRequest term leaderId newNodes =>
    simp only [handleMessage]
    split
    · rename_i hle
      exact .inl (Nat.lt_of_le_of_ne hle (Ne.symm h))
    · exact .of_eq rfl rfl

theorem respond_keepsVote {input : Input} (h : ¬ ClearsVote n input) :
    KeepsVote n (respond toVec n input).1 := by
  cases input with
  | call c => exact serve_keepsVote toVec h
  | message src m => exact handleMessage_keepsVote h

/-- A step that clears the vote stays in its term. -/
theorem ClearsVote.term_eq {input : Input} (h : ClearsVote n input) :
    (respond toVec n input).1.currentTerm = n.currentTerm := by
  cases input with
  | call c =>
    cases c with
    | transferLeadership target =>
      obtain ⟨hleader, htarget, hcaught⟩ := h
      simp only [respond, serve, transferLeadership]
      rw [if_neg (not_not.mpr hleader), if_neg (not_not.mpr htarget), if_neg (by omega)]
      exact if_neg (Nat.lt_irrefl _)
    | _ => exact h.elim
  | message src m =>
    cases m with
    | configChangeRequest term leaderId newNodes =>
      have heq : term = n.currentTerm := h
      simp only [respond, handleMessage]
      rw [if_pos (by omega)]
      exact heq
    | _ => exact h.elim

theorem term_le_respond (n : RaftNode) (input : Input) :
    n.currentTerm ≤ (respond toVec n input).1.currentTerm := by
  by_cases h : ClearsVote n input
  · exact Nat.le_of_eq (h.term_eq toVec).symm
  · exact (respond_keepsVote toVec h).term_le

/-! ### Runs -/

/-- A node with the votes it has granted, each with the term. -/
structure Voter where
  node : RaftNode
  granted : List (Nat × NodeId)

/-- The vote that the answer to a request grants. -/
def votesIn (input : Input) (r : RaftNode × List Outgoing) : List (Nat × NodeId) :=
  match input with
  | .message _ (.requestVoteRequest _ candidateId _ _ false) =>
    r.2.filterMap fun m =>
      match m.2 with
      | .requestVoteResponse _ true false => some (r.1.currentTerm, candidateId)
      | _ => none
  | _ => []

namespace Voter

def boot (id : NodeId) (peers : List NodeId) (electionTimeout heartbeatInterval : Nat)
    (initialOffset : Fin 10) : Voter :=
  ⟨.withTimeouts id peers electionTimeout heartbeatInterval initialOffset, []⟩

def next (s : Voter) (input : Input) : Voter :=
  ⟨(respond toVec s.node input).1, s.granted ++ votesIn input (respond toVec s.node input)⟩

/-- No vote is cleared in a term in which the node has granted one. -/
def KeepsWord (s : Voter) (input : Input) : Prop :=
  ClearsVote s.node input → ∀ c, (s.node.currentTerm, c) ∉ s.granted

def OneVote (s : Voter) : Prop := ∀ t c c', (t, c) ∈ s.granted → (t, c') ∈ s.granted → c = c'

/-- The vote granted in the current term is the one that the node remembers. -/
structure Honest (s : Voter) : Prop where
  term : ∀ t c, (t, c) ∈ s.granted → t ≤ s.node.currentTerm
  vote : ∀ c, (s.node.currentTerm, c) ∈ s.granted → s.node.votedFor = some c
  one : s.OneVote

theorem boot_honest (id : NodeId) (peers : List NodeId) (electionTimeout heartbeatInterval : Nat)
    (initialOffset : Fin 10) : (boot id peers electionTimeout heartbeatInterval initialOffset).Honest where
  term _ _ h := (List.not_mem_nil h).elim
  vote _ h := (List.not_mem_nil h).elim
  one _ _ _ h := (List.not_mem_nil h).elim

end Voter

theorem votedFor_of_votesIn {input : Input} {t : Nat} {c : NodeId}
    (h : (t, c) ∈ votesIn input (respond toVec n input)) :
    t = (respond toVec n input).1.currentTerm ∧ (respond toVec n input).1.votedFor = some c := by
  unfold votesIn at h
  split at h
  · rename_i src term candidateId lastLogIndex lastLogTerm
    obtain ⟨m, hm, hvote⟩ := List.mem_filterMap.mp h
    have hm : m = (src, (n.handleRequestVote term candidateId lastLogIndex lastLogTerm false).2) :=
      List.mem_singleton.mp hm
    subst m
    dsimp only at hvote
    split at hvote
    · rename_i hgranted
      cases hvote
      refine ⟨rfl, ?_⟩
      show (n.handleRequestVote term c lastLogIndex lastLogTerm false).1.votedFor = some c
      unfold handleRequestVote at hgranted ⊢
      split at hgranted
      · cases hgranted
      · rename_i hterm
        rw [if_neg hterm]
        simp only [Bool.not_false, Bool.and_true, RaftMessage.requestVoteResponse.injEq] at hgranted ⊢
        rw [if_pos hgranted.2.1]
    · cases hvote
  · exact (List.not_mem_nil h).elim

namespace Voter

/-- A step keeps a node honest that does not clear a vote it has granted in its term. -/
theorem Honest.next {s : Voter} (h : s.Honest) {input : Input} (hword : s.KeepsWord input) :
    (s.next toVec input).Honest := by
  have hle := term_le_respond toVec s.node input
  have hterm : ∀ t c, (t, c) ∈ (s.next toVec input).granted →
      t ≤ (respond toVec s.node input).1.currentTerm := by
    intro t c hc
    rcases List.mem_append.mp hc with hold | hnew
    · exact Nat.le_trans (h.term t c hold) hle
    · exact Nat.le_of_eq (votedFor_of_votesIn toVec hnew).1
  -- an old vote of the term the node is in after the step was kept
  have hvote : ∀ c, ((respond toVec s.node input).1.currentTerm, c) ∈ (s.next toVec input).granted →
      (respond toVec s.node input).1.votedFor = some c := by
    intro c hc
    rcases List.mem_append.mp hc with hold | hnew
    · have heq : (respond toVec s.node input).1.currentTerm = s.node.currentTerm :=
        Nat.le_antisymm (h.term _ _ hold) hle
      rw [heq] at hold
      by_cases hclears : ClearsVote s.node input
      · exact absurd hold (hword hclears c)
      · rcases respond_keepsVote toVec hclears with hlt | ⟨_, hkeep⟩
        · omega
        · exact hkeep c (h.vote c hold)
    · exact (votedFor_of_votesIn toVec hnew).2
  refine ⟨hterm, hvote, fun t c c' hc hc' => ?_⟩
  by_cases hold : (t, c) ∈ s.granted ∧ (t, c') ∈ s.granted
  · exact h.one t c c' hold.1 hold.2
  · have hcurrent : t = (respond toVec s.node input).1.currentTerm := by
      rcases not_and_or.mp hold with hnot | hnot
      · exact (votedFor_of_votesIn toVec ((List.mem_append.mp hc).resolve_left hnot)).1
      · exact (votedFor_of_votesIn toVec ((List.mem_append.mp hc').resolve_left hnot)).1
    subst t
    exact Option.some.inj ((hvote c hc).symm.trans (hvote c' hc'))

end Voter

end Runs

/-- A request of a node with an empty log. -/
def requestFrom (candidate : NodeId) (term : Nat) : Input :=
  .message candidate (.requestVoteRequest term candidate 0 0 false)

end Suture.Raft
