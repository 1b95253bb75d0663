import Suture.Raft.Calls

/-!
# Adding and removing a node

The runtime passes a list of nodes to `propose_membership_change`, which takes it for the whole
new membership, and ends the change at once.
-/

namespace Suture.Runtime
set_option autoImplicit false
open Raft

structure RaftConfig where
  nodeId : NodeId
  peers : List NodeId
  electionTimeout : Nat
  heartbeatInterval : Nat
deriving DecidableEq, Repr

structure RaftHub where
  node : RaftNode
  config : RaftConfig

/-- The addresses and open connections of a `RaftTcpTransport`. -/
structure RaftTcpTransport (Addr : Type) where
  peers : NodeId → Option Addr
  connected : Finset NodeId

structure RaftRuntime (Addr : Type) where
  hub : RaftHub
  transport : Option (RaftTcpTransport Addr)

namespace RaftHub
variable (toVec : ClusterConfig → Option (List UInt8))

/-- The timeouts of the configuration are not used. -/
def new (config : RaftConfig) (initialOffset : Fin 10) : RaftHub where
  node := .new config.nodeId config.peers initialOffset
  config := config

def peers (hub : RaftHub) : List NodeId := hub.node.peers

def proposeMembershipChange (hub : RaftHub) (newNodes : List NodeId) :
    RaftHub × Except RaftError Unit :=
  let (node, result) := hub.node.proposeMembershipChange toVec newNodes
  ({ hub with node }, result)

def finalizeMembershipChange (hub : RaftHub) : RaftHub × Except RaftError Unit :=
  let (node, result) := hub.node.finalizeMembershipChange toVec
  ({ hub with node }, result)

end RaftHub

namespace RaftTcpTransport
variable {Addr : Type}

def addPeer (t : RaftTcpTransport Addr) (nodeId : NodeId) (addr : Addr) : RaftTcpTransport Addr :=
  { t with peers := Function.update t.peers nodeId (some addr) }

def removePeer (t : RaftTcpTransport Addr) (nodeId : NodeId) : RaftTcpTransport Addr where
  peers := Function.update t.peers nodeId none
  connected := t.connected.erase nodeId

end RaftTcpTransport

namespace RaftRuntime
variable {Addr : Type} (toVec : ClusterConfig → Option (List UInt8))

/-- The two calls under one lock of the hub. -/
def changeMembers (rt : RaftRuntime Addr) (newNodes : List NodeId) :
    RaftRuntime Addr × Except RaftError Unit :=
  match rt.hub.proposeMembershipChange toVec newNodes with
  | (hub, .error e) => ({ rt with hub }, .error e)
  | (hub, .ok ()) =>
    let (hub, result) := hub.finalizeMembershipChange toVec
    ({ rt with hub }, result)

def addNode (rt : RaftRuntime Addr) (nodeId : NodeId) (addr : Addr) :
    RaftRuntime Addr × Except RaftError Unit :=
  match rt.changeMembers toVec [nodeId] with
  | (rt, .error e) => (rt, .error e)
  | (rt, .ok ()) => ({ rt with transport := rt.transport.map (·.addPeer nodeId addr) }, .ok ())

def removeNode (rt : RaftRuntime Addr) (nodeId : NodeId) :
    RaftRuntime Addr × Except RaftError Unit :=
  match rt.changeMembers toVec (rt.hub.peers.filter fun id => decide (id ≠ nodeId)) with
  | (rt, .error e) => (rt, .error e)
  | (rt, .ok ()) => ({ rt with transport := rt.transport.map (·.removePeer nodeId) }, .ok ())

def members (rt : RaftRuntime Addr) : Finset NodeId := rt.hub.node.config.nodes

end RaftRuntime

/-! ### What a change leaves -/

variable {Addr : Type} (toVec : ClusterConfig → Option (List UInt8))

theorem tryCommit_kept (n : RaftNode) :
    n.tryCommit.config = n.config ∧ n.tryCommit.id = n.id := by
  unfold RaftNode.tryCommit
  dsimp only
  split <;> exact ⟨rfl, rfl⟩

theorem propose_ok {n n' : RaftNode} {command : List UInt8} (h : n.propose command = (n', .ok ())) :
    n'.config = n.config ∧ n'.id = n.id := by
  unfold RaftNode.propose at h
  split at h
  · cases h
  · cases h
    exact tryCommit_kept _

theorem proposeMembershipChange_ok {n n' : RaftNode} {newNodes : List NodeId}
    (h : n.proposeMembershipChange toVec newNodes = (n', .ok ())) :
    n'.config.transition = some newNodes.toFinset ∧ n'.id = n.id := by
  unfold RaftNode.proposeMembershipChange at h
  split at h
  · cases h
  · split at h
    · cases h
    · obtain ⟨hconfig, hid⟩ := propose_ok h
      exact ⟨by rw [hconfig], hid⟩

theorem finalizeMembershipChange_ok {n n' : RaftNode} {newNodes : Finset NodeId}
    (hnew : n.config.transition = some newNodes)
    (h : n.finalizeMembershipChange toVec = (n', .ok ())) :
    n'.config.nodes = newNodes ∧ n'.id = n.id := by
  simp only [RaftNode.finalizeMembershipChange, hnew] at h
  obtain ⟨hconfig, hid⟩ := propose_ok h
  exact ⟨by rw [hconfig], hid⟩

/-- The membership is what the list says, whatever it was before. -/
theorem changeMembers_ok {rt rt' : RaftRuntime Addr} {newNodes : List NodeId}
    (h : rt.changeMembers toVec newNodes = (rt', .ok ())) :
    rt'.members = newNodes.toFinset ∧ rt'.hub.node.id = rt.hub.node.id := by
  simp only [RaftRuntime.changeMembers, RaftHub.proposeMembershipChange,
    RaftHub.finalizeMembershipChange] at h
  cases hpropose : rt.hub.node.proposeMembershipChange toVec newNodes with
  | mk joint result =>
    rw [hpropose] at h
    cases result with
    | error e => cases h
    | ok u =>
      obtain ⟨hnew, hid⟩ := proposeMembershipChange_ok toVec hpropose
      cases hfinal : joint.finalizeMembershipChange toVec with
      | mk final result =>
        simp only [hfinal] at h
        obtain ⟨rfl, rfl⟩ := Prod.mk.inj h
        obtain ⟨hnodes, hid'⟩ := finalizeMembershipChange_ok toVec hnew hfinal
        exact ⟨hnodes, hid'.trans hid⟩

theorem addNode_ok {rt rt' : RaftRuntime Addr} {nodeId : NodeId} {addr : Addr}
    (h : rt.addNode toVec nodeId addr = (rt', .ok ())) :
    rt'.members = {nodeId} ∧ rt'.hub.node.id = rt.hub.node.id := by
  simp only [RaftRuntime.addNode] at h
  split at h
  · cases h
  · rename_i changed hchange
    obtain ⟨hmembers, hid⟩ := changeMembers_ok toVec hchange
    cases h
    exact ⟨hmembers, hid⟩

theorem removeNode_ok {rt rt' : RaftRuntime Addr} {nodeId : NodeId}
    (h : rt.removeNode toVec nodeId = (rt', .ok ())) :
    rt'.members = rt.hub.peers.toFinset.erase nodeId ∧ rt'.hub.node.id = rt.hub.node.id := by
  simp only [RaftRuntime.removeNode] at h
  split at h
  · cases h
  · rename_i changed hchange
    obtain ⟨hmembers, hid⟩ := changeMembers_ok toVec hchange
    cases h
    refine ⟨hmembers.trans ?_, hid⟩
    ext id
    simp [and_comm]

/-- The membership is the one asked for, majorities are counted in it, and the node itself is a
member if it is to be one. -/
structure EditedTo (rt : RaftRuntime Addr) (wanted : Finset NodeId) : Prop where
  members : rt.members = wanted
  majority : rt.hub.node.majority = wanted.card / 2 + 1
  self : rt.hub.node.id ∈ wanted → rt.hub.node.id ∈ rt.members

theorem editedTo_iff {rt : RaftRuntime Addr} {wanted : Finset NodeId} :
    EditedTo rt wanted ↔ rt.members = wanted := by
  refine ⟨EditedTo.members, fun h => ⟨h, ?_, fun hself => h ▸ hself⟩⟩
  rw [RaftNode.majority, ← h, RaftRuntime.members]

/-- Adding works where there was nobody else, and removing where the peers are already all the
nodes that are to stay. -/
theorem edit_members_iff (rt : RaftRuntime Addr) (nodeId : NodeId) (addr : Addr) :
    (∀ rt', rt.addNode toVec nodeId addr = (rt', .ok ()) →
      (EditedTo rt' (insert nodeId rt.members) ↔ rt.members ⊆ {nodeId})) ∧
    ∀ rt', rt.removeNode toVec nodeId = (rt', .ok ()) →
      (EditedTo rt' (rt.members.erase nodeId) ↔
        rt.hub.peers.toFinset.erase nodeId = rt.members.erase nodeId) := by
  constructor
  · intro rt' hadd
    rw [editedTo_iff, (addNode_ok toVec hadd).1]
    constructor
    · intro heq id hid
      rw [heq]
      exact Finset.mem_insert_of_mem hid
    · intro hsub
      ext id
      rw [Finset.mem_insert, Finset.mem_singleton]
      exact ⟨.inl, fun h => h.elim (fun h => h) fun hid => Finset.mem_singleton.mp (hsub hid)⟩
  · intro rt' hremove
    rw [editedTo_iff, (removeNode_ok toVec hremove).1]

/-- Where the membership is still the one the node was built with, only its own removal works. -/
theorem removeNode_iff_of_boot {rt rt' : RaftRuntime Addr} {nodeId : NodeId}
    (hboot : rt.members = insert rt.hub.node.id rt.hub.peers.toFinset)
    (hself : rt.hub.node.id ∉ rt.hub.peers) (h : rt.removeNode toVec nodeId = (rt', .ok ())) :
    EditedTo rt' (rt.members.erase nodeId) ↔ nodeId = rt.hub.node.id := by
  rw [editedTo_iff, (removeNode_ok toVec h).1, hboot]
  constructor
  · intro heq
    by_contra hne
    have hmem : rt.hub.node.id ∈ (insert rt.hub.node.id rt.hub.peers.toFinset).erase nodeId :=
      Finset.mem_erase.mpr ⟨fun heq => hne heq.symm, Finset.mem_insert_self ..⟩
    rw [← heq, Finset.mem_erase, List.mem_toFinset] at hmem
    exact hself hmem.2
  · rintro rfl
    rw [Finset.erase_insert_eq_erase]

/-- A leader of three nodes. -/
def leader : RaftRuntime Unit where
  hub := {
    node := (((RaftNode.withTimeouts 1 [2, 3] 1 1 RaftNode.noOffset).tick.1.handleMessage 2
      (.requestVoteResponse 0 true true)).1.handleMessage 2 (.requestVoteResponse 1 true false)).1
    config := ⟨1, [2, 3], 10, 3⟩ }
  transport := none

theorem edit_members_iff_leader :
    (EditedTo (leader.addNode (fun _ => none) 4 ()).1 (insert 4 leader.members) ↔
      leader.members ⊆ {4}) ∧
    (EditedTo (leader.removeNode (fun _ => none) 1).1 (leader.members.erase 1) ↔
      leader.hub.peers.toFinset.erase 1 = leader.members.erase 1) := by
  obtain ⟨hadd, _⟩ := edit_members_iff (fun _ => none) leader 4 ()
  obtain ⟨_, hremove⟩ := edit_members_iff (fun _ => none) leader 1 ()
  refine ⟨hadd _ (Prod.ext rfl ?_), hremove _ (Prod.ext rfl ?_)⟩
  · decide +kernel
  · decide +kernel

/-- Adding node 4 leaves node 4 alone, and removing node 3 removes the leader too. -/
theorem membership_shrinks : ¬ ∀ (toVec : ClusterConfig → Option (List UInt8))
    (rt : RaftRuntime Unit) (nodeId : NodeId),
    (∀ rt', rt.addNode toVec nodeId () = (rt', .ok ()) → EditedTo rt' (insert nodeId rt.members)) ∧
    ∀ rt', rt.removeNode toVec nodeId = (rt', .ok ()) →
      EditedTo rt' (rt.members.erase nodeId) := by
  intro h
  have hadd := (h (fun _ => none) leader 4).1 _ (Prod.ext rfl (by decide +kernel))
  exact absurd hadd.members (by decide +kernel)

end Suture.Runtime
