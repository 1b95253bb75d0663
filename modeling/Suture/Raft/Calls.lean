import Suture.Raft.Network

/-!
# The calls of a node

What the owner of a node may ask of it beside `handle_message`, and a cluster whose nodes
are asked in any order. `toVec` stands for the serializer of the configuration.
-/

namespace Suture.Raft
set_option autoImplicit false

namespace RaftNode

/-- The entries to apply. `none` is the panic of a slice that ends past the stored entries. -/
def committedEntries (n : RaftNode) : Option (List LogEntry) :=
  if n.commitIndex ≤ n.lastApplied then some []
  else if n.commitIndex ≤ n.log.entries.length then
    some ((n.log.entries.take n.commitIndex).drop n.lastApplied)
  else none

def advanceApplied (n : RaftNode) (count : Nat) : RaftNode :=
  { n with lastApplied := n.lastApplied + count }

/-- `now` is the clock in milliseconds. -/
def createSnapshot (n : RaftNode) (lastIndex : Nat) (stateMachineData : List UInt8) (now : Nat) :
    RaftNode × Except RaftError Unit :=
  match n.log.termFor lastIndex with
  | none => (n, .error (.invalidIndex lastIndex))
  | some lastTerm =>
    if n.commitIndex < lastIndex then (n, .error (.invalidIndex lastIndex))
    else
      ({ n with
        log := n.log.compact lastIndex
        snapshot := some ⟨stateMachineData, lastIndex, lastTerm, now⟩ }, .ok ())

def compactLog (n : RaftNode) (lastIncludedIndex lastIncludedTerm : Nat)
    (snapshotData : List UInt8) (now : Nat) : RaftNode × Except RaftError Unit :=
  if n.commitIndex < lastIncludedIndex then (n, .error (.invalidIndex lastIncludedIndex))
  else
    let actualTerm := (n.log.termFor lastIncludedIndex).getD n.log.snapshotTerm
    if actualTerm ≠ lastIncludedTerm ∧ (n.log.termFor lastIncludedIndex).isSome then
      (n, .error (.log s!"term mismatch: expected {lastIncludedTerm}, got {actualTerm}"))
    else
      ({ n with
        log := n.log.compact lastIncludedIndex
        snapshot := some ⟨snapshotData, lastIncludedIndex, lastIncludedTerm, now⟩ }, .ok ())

def installSnapshot (n : RaftNode) (snapshot : Snapshot) : RaftNode × Except RaftError Unit :=
  if snapshot.lastIncludedIndex ≤ n.log.lastIndex then (n, .ok ())
  else
    let compacted := n.log.compact snapshot.lastIncludedIndex
    let log :=
      if compacted.snapshotIndex < snapshot.lastIncludedIndex then
        compacted.setSnapshot snapshot.lastIncludedIndex snapshot.lastIncludedTerm
      else compacted
    ({ n with log, snapshot := some snapshot }, .ok ())

section Membership
variable (toVec : ClusterConfig → Option (List UInt8))

/-- The configuration as a log entry; `b"config"` where it cannot be serialized. -/
def configCommand (config : ClusterConfig) : List UInt8 :=
  (toVec config).getD [99, 111, 110, 102, 105, 103]

/-- The requests the source builds for its peers here are not sent. -/
def proposeMembershipChange (n : RaftNode) (newNodes : List NodeId) :
    RaftNode × Except RaftError Unit :=
  if n.state ≠ .leader then (n, .error .notLeader)
  else if n.config.transition.isSome then (n, .error .membershipChangeInProgress)
  else
    let config : ClusterConfig := ⟨n.config.nodes ∪ newNodes.toFinset, some newNodes.toFinset⟩
    { n with config }.propose (configCommand toVec config)

def finalizeMembershipChange (n : RaftNode) : RaftNode × Except RaftError Unit :=
  match n.config.transition with
  | none => (n, .error .noTransition)
  | some newNodes =>
    let config : ClusterConfig := ⟨newNodes, none⟩
    { n with config }.propose (configCommand toVec config)

end Membership
end RaftNode

inductive Call where
  | tick
  | propose (command : List UInt8)
  | transferLeadership (target : NodeId)
  | startPreVote
  | advanceApplied (count : Nat)
  | createSnapshot (lastIndex : Nat) (data : List UInt8) (now : Nat)
  | compactLog (lastIncludedIndex lastIncludedTerm : Nat) (data : List UInt8) (now : Nat)
  | installSnapshot (snapshot : Snapshot)
  | proposeMembershipChange (newNodes : List NodeId)
  | finalizeMembershipChange
deriving DecidableEq, Repr

inductive NodeEvent where
  | call (i : NodeId) (c : Call)
  | deliver (packet : Packet)
deriving DecidableEq, Repr

section Served
variable (toVec : ClusterConfig → Option (List UInt8))

def RaftNode.serve (n : RaftNode) : Call → RaftNode × List Outgoing
  | .tick => n.tick
  | .propose command => ((n.propose command).1, [])
  | .transferLeadership target => ((n.transferLeadership target).1, [])
  | .startPreVote => n.startPreVote
  | .advanceApplied count => (n.advanceApplied count, [])
  | .createSnapshot lastIndex data now => ((n.createSnapshot lastIndex data now).1, [])
  | .compactLog index term data now => ((n.compactLog index term data now).1, [])
  | .installSnapshot snapshot => ((n.installSnapshot snapshot).1, [])
  | .proposeMembershipChange newNodes => ((n.proposeMembershipChange toVec newNodes).1, [])
  | .finalizeMembershipChange => ((n.finalizeMembershipChange toVec).1, [])

namespace Network

/-- Every node is new and nothing has been sent. -/
structure Fresh (net : Network) : Prop where
  node : ∀ i, ∃ peers electionTimeout heartbeatInterval initialOffset,
    net.node i = .withTimeouts i peers electionTimeout heartbeatInterval initialOffset
  sent : net.sent = []

def serve (net : Network) : NodeEvent → Network
  | .call i c => net.post i ((net.node i).serve toVec c)
  | .deliver p => net.post p.dst ((net.node p.dst).handleMessage p.src p.message)

def ofEvent : Event → NodeEvent
  | .tick i => .call i .tick
  | .propose i command => .call i (.propose command)
  | .transferLeadership i target => .call i (.transferLeadership target)
  | .deliver p => .deliver p

theorem serve_ofEvent (net : Network) (e : Event) : net.serve toVec (ofEvent e) = net.next e := by
  cases e <;> rfl

theorem foldl_serve_ofEvent (net : Network) (events : List Event) :
    (events.map ofEvent).foldl (serve toVec) net = events.foldl next net := by
  rw [List.foldl_map]
  simp only [serve_ofEvent]

theorem boot_fresh (m : Membership) : (boot m).Fresh where
  node i := ⟨m.peers i, m.electionTimeout i, m.heartbeatInterval i, m.initialOffset i, rfl⟩
  sent := rfl

/-- Only what was sent is delivered; it may come late and twice. -/
def Delivers (net : Network) : NodeEvent → Prop
  | .call _ _ => True
  | .deliver p => p ∈ net.sent

instance (net : Network) : DecidablePred net.Delivers
  | .call _ _ => inferInstanceAs (Decidable True)
  | .deliver p => inferInstanceAs (Decidable (p ∈ net.sent))

end Network
end Served
end Suture.Raft
