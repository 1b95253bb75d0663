import Suture.Raft.Calls

/-!
# Calls that are refused

A call that answers with an error should have done nothing. To finalize a change of the
members, a node puts the new members in place first and proposes them then, which only a
leader may do.
-/

namespace Suture.Raft
set_option autoImplicit false

section Refused
variable (toVec : ClusterConfig → Option (List UInt8))

/-- What a call returns. The calls of the first line return nothing. -/
def RaftNode.answer (n : RaftNode) : Call → Except RaftError Unit
  | .tick | .startPreVote | .advanceApplied _ => .ok ()
  | .propose command => (n.propose command).2
  | .transferLeadership target => (n.transferLeadership target).2
  | .createSnapshot lastIndex data now => (n.createSnapshot lastIndex data now).2
  | .compactLog index term data now => (n.compactLog index term data now).2
  | .installSnapshot snapshot => (n.installSnapshot snapshot).2
  | .proposeMembershipChange newNodes => (n.proposeMembershipChange toVec newNodes).2
  | .finalizeMembershipChange => (n.finalizeMembershipChange toVec).2

/-- The node is as it was after any error. -/
def RaftNode.Atomic (n : RaftNode) (c : Call) : Prop :=
  ∀ e, n.answer toVec c = .error e → (n.serve toVec c).1 = n

/-- The node has stepped down since the change of the members was proposed. -/
def RaftNode.FinalizesStale (n : RaftNode) (c : Call) : Prop :=
  c = .finalizeMembershipChange ∧ n.state ≠ .leader ∧ n.config.transition.isSome

variable {toVec} {n : RaftNode}

theorem propose_refused {command : List UInt8} {e : RaftError} (h : (n.propose command).2 = .error e) :
    n.state ≠ .leader ∧ (n.propose command).1 = n := by
  unfold RaftNode.propose at h ⊢
  split at h
  · rename_i hstate
    exact ⟨hstate, by rw [if_pos hstate]⟩
  · cases h

theorem propose_of_follower (h : n.state ≠ .leader) (command : List UInt8) :
    n.propose command = (n, .error .notLeader) := if_pos h

theorem transferLeadership_refused {target : NodeId} {e : RaftError}
    (h : (n.transferLeadership target).2 = .error e) : (n.transferLeadership target).1 = n := by
  unfold RaftNode.transferLeadership at h ⊢
  split at h
  · rw [if_pos ‹_›]
  · split at h
    · rw [if_neg ‹_›, if_pos ‹_›]
    · split at h <;> cases h

theorem createSnapshot_refused {lastIndex now : Nat} {data : List UInt8} {e : RaftError}
    (h : (n.createSnapshot lastIndex data now).2 = .error e) :
    (n.createSnapshot lastIndex data now).1 = n := by
  unfold RaftNode.createSnapshot at h ⊢
  cases hterm : n.log.termFor lastIndex with
  | none => rfl
  | some term =>
    rw [hterm] at h
    dsimp only at h ⊢
    split at h
    · rw [if_pos ‹_›]
    · cases h

theorem compactLog_refused {index term now : Nat} {data : List UInt8} {e : RaftError}
    (h : (n.compactLog index term data now).2 = .error e) :
    (n.compactLog index term data now).1 = n := by
  unfold RaftNode.compactLog at h ⊢
  split at h
  · rw [if_pos ‹_›]
  · rw [if_neg ‹_›]
    dsimp only at h ⊢
    split at h
    · rw [if_pos ‹_›]
    · cases h

theorem installSnapshot_accepted (snapshot : Snapshot) : (n.installSnapshot snapshot).2 = .ok () := by
  unfold RaftNode.installSnapshot
  split <;> rfl

theorem proposeMembershipChange_refused {newNodes : List NodeId} {e : RaftError}
    (h : (n.proposeMembershipChange toVec newNodes).2 = .error e) :
    (n.proposeMembershipChange toVec newNodes).1 = n := by
  unfold RaftNode.proposeMembershipChange at h ⊢
  split at h
  · rw [if_pos ‹_›]
  · rename_i hleader
    rw [if_neg hleader]
    split at h
    · rw [if_pos ‹_›]
    · exact absurd (propose_refused h).1 hleader

/-- The members are those of the change, and the change is no longer pending. -/
theorem finalizeMembershipChange_stale {newNodes : Finset NodeId} (hstate : n.state ≠ .leader)
    (h : n.config.transition = some newNodes) : n.finalizeMembershipChange toVec =
      ({ n with config := ⟨newNodes, none⟩ }, .error .notLeader) := by
  unfold RaftNode.finalizeMembershipChange
  rw [h]
  exact propose_of_follower (n := { n with config := ⟨newNodes, none⟩ }) hstate _

theorem not_leader_of_finalize_refused {newNodes : Finset NodeId} {e : RaftError}
    (h : n.config.transition = some newNodes)
    (herror : (n.finalizeMembershipChange toVec).2 = .error e) : n.state ≠ .leader := by
  unfold RaftNode.finalizeMembershipChange at herror
  rw [h] at herror
  exact (propose_refused herror).1

theorem finalizeMembershipChange_refused {e : RaftError}
    (h : (n.finalizeMembershipChange toVec).2 = .error e) :
    (n.finalizeMembershipChange toVec).1 = n ↔ n.config.transition = none := by
  cases htransition : n.config.transition with
  | none =>
    unfold RaftNode.finalizeMembershipChange
    rw [htransition]
    exact iff_of_true rfl rfl
  | some newNodes =>
    refine iff_of_false ?_ (Option.some_ne_none newNodes)
    have hstate := not_leader_of_finalize_refused htransition h
    rw [finalizeMembershipChange_stale hstate htransition]
    intro hsame
    have hnone : n.config.transition = none := by rw [← hsame]
    rw [htransition] at hnone
    cases hnone

variable (toVec n)

/-- A call fails as a whole except where a node that is no leader finalizes a change. -/
theorem refused_whole_iff (c : Call) : n.Atomic toVec c ↔ ¬ n.FinalizesStale c := by
  cases c with
  | tick | startPreVote | advanceApplied => exact iff_of_true nofun nofun
  | propose => exact iff_of_true (fun e h => (propose_refused h).2) nofun
  | transferLeadership => exact iff_of_true (fun e h => transferLeadership_refused h) nofun
  | createSnapshot => exact iff_of_true (fun e h => createSnapshot_refused h) nofun
  | compactLog => exact iff_of_true (fun e h => compactLog_refused h) nofun
  | installSnapshot snapshot =>
    refine iff_of_true (fun e h => ?_) nofun
    exact absurd ((installSnapshot_accepted snapshot).symm.trans h) nofun
  | proposeMembershipChange =>
    exact iff_of_true (fun e h => proposeMembershipChange_refused h) nofun
  | finalizeMembershipChange =>
    constructor
    · rintro hatomic ⟨-, hstate, hpending⟩
      obtain ⟨newNodes, htransition⟩ := Option.isSome_iff_exists.mp hpending
      have herror : (n.finalizeMembershipChange toVec).2 = .error .notLeader := by
        rw [finalizeMembershipChange_stale hstate htransition]
      have hnone := (finalizeMembershipChange_refused herror).mp (hatomic _ herror)
      rw [htransition] at hnone
      cases hnone
    · intro hstale e herror
      apply (finalizeMembershipChange_refused herror).mpr
      by_contra hpending
      have hsome : n.config.transition.isSome := Option.isSome_iff_ne_none.mpr hpending
      obtain ⟨newNodes, htransition⟩ := Option.isSome_iff_exists.mp hsome
      exact hstale ⟨rfl, not_leader_of_finalize_refused htransition herror, hsome⟩

end Refused

/-- A node alone becomes the leader, begins to take in two others, and hears of a later term. -/
def steppedDown : RaftNode :=
  let leader := (RaftNode.withTimeouts 1 [] 1 1 RaftNode.noOffset).tick.1
  let changing := (leader.proposeMembershipChange (fun _ => none) [1, 2, 3]).1
  (changing.handleMessage 2 (.appendEntriesResponse 5 false 0)).1

/-- The change is refused, and the members are the new ones all the same. -/
theorem finalize_half_applied :
    (steppedDown.answer (fun _ => none) .finalizeMembershipChange = .error .notLeader ∧
      (steppedDown.serve (fun _ => none) .finalizeMembershipChange).1.config.transition = none ∧
      steppedDown.config.transition = some {1, 2, 3}) ∧
    ¬ ∀ (toVec : ClusterConfig → Option (List UInt8)) (n : RaftNode) (c : Call), n.Atomic toVec c := by
  have hstate : steppedDown.state ≠ .leader := by decide
  have hpending : steppedDown.config.transition = some {1, 2, 3} := by decide +kernel
  have hrun : steppedDown.finalizeMembershipChange (fun _ => none) =
      ({ steppedDown with config := ⟨{1, 2, 3}, none⟩ }, .error .notLeader) :=
    finalizeMembershipChange_stale hstate hpending
  have hanswer : steppedDown.answer (fun _ => none) .finalizeMembershipChange =
      .error .notLeader := congrArg Prod.snd hrun
  have hafter : (steppedDown.serve (fun _ => none) .finalizeMembershipChange).1.config.transition =
      none := congrArg (fun r => r.1.config.transition) hrun
  refine ⟨⟨hanswer, hafter, hpending⟩, fun h => ?_⟩
  have hsame := h (fun _ => none) steppedDown .finalizeMembershipChange _ hanswer
  rw [hsame, hpending] at hafter
  cases hafter

end Suture.Raft
