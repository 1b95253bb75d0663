import Suture.Foundation.Run
import Suture.Raft.Node

/-!
# A cluster of nodes and the messages between them

`sent` keeps every message ever sent. Delivering one leaves it there, so a message
may arrive late, twice, after newer ones, or never.
-/

namespace Suture.Raft
set_option autoImplicit false
open Foundation

/-- A fixed membership: every node is built with the other ids as its peers, listed
once each in any order. -/
structure Membership where
  nodes : Finset NodeId
  peers : NodeId → List NodeId
  nodup : ∀ i ∈ nodes, (peers i).Nodup
  mem_peers : ∀ i ∈ nodes, ∀ p, p ∈ peers i ↔ p ∈ nodes ∧ p ≠ i
  electionTimeout : NodeId → Nat
  heartbeatInterval : NodeId → Nat
  initialOffset : NodeId → Fin 10

structure Packet where
  src : NodeId
  dst : NodeId
  message : RaftMessage
deriving DecidableEq, Repr

structure Network where
  node : NodeId → RaftNode
  sent : List Packet

inductive Event where
  | tick (i : NodeId)
  | propose (i : NodeId) (command : List UInt8)
  | transferLeadership (i target : NodeId)
  | deliver (packet : Packet)
deriving DecidableEq, Repr

namespace Network

def boot (m : Membership) : Network where
  node i := RaftNode.withTimeouts i (m.peers i) (m.electionTimeout i) (m.heartbeatInterval i)
    (m.initialOffset i)
  sent := []

/-- Node `i` moves to a new state and sends messages. -/
def post (net : Network) (i : NodeId) (r : RaftNode × List Outgoing) : Network where
  node := Function.update net.node i r.1
  sent := net.sent ++ r.2.map fun m => ⟨i, m.1, m.2⟩

def next (net : Network) : Event → Network
  | .tick i => net.post i (net.node i).tick
  | .propose i command => net.post i (((net.node i).propose command).1, [])
  | .transferLeadership i target => net.post i (((net.node i).transferLeadership target).1, [])
  | .deliver p => net.post p.dst ((net.node p.dst).handleMessage p.src p.message)

/-- Events take place at member nodes, and only what was sent is delivered. -/
def Enabled (m : Membership) (net : Network) : Event → Prop
  | .tick i | .propose i _ | .transferLeadership i _ => i ∈ m.nodes
  | .deliver p => p.dst ∈ m.nodes ∧ p ∈ net.sent

instance (m : Membership) (net : Network) : DecidablePred (Enabled m net)
  | .tick i | .propose i _ | .transferLeadership i _ => inferInstanceAs (Decidable (i ∈ m.nodes))
  | .deliver p => inferInstanceAs (Decidable (p.dst ∈ m.nodes ∧ p ∈ net.sent))

/-- A vote granted in an earlier term reaches a node that is a candidate. -/
def StaleVote (net : Network) : Event → Bool
  | .deliver ⟨_, dst, .requestVoteResponse term true false⟩ =>
    decide (term < (net.node dst).currentTerm ∧ (net.node dst).state = .candidate)
  | _ => false

/-- A leader is asked to hand over to a node it believes caught up, and so steps down
in its own term. -/
def StepsDownInTerm (net : Network) : Event → Bool
  | .transferLeadership i target =>
    let n := net.node i
    decide (n.state = .leader ∧ target ∈ n.config.nodes ∧
      n.log.lastIndex ≤ (n.matchIndex target).getD 0)
  | _ => false

/-- An acknowledgement of an earlier term reaches a leader. -/
def StaleAck (net : Network) : Event → Bool
  | .deliver ⟨_, dst, .appendEntriesResponse term true _⟩ =>
    decide (term < (net.node dst).currentTerm ∧ (net.node dst).state = .leader)
  | _ => false

/-- A node is sent entries it already holds, and holds more after them that end in
another term than the sender's. -/
def StaleSuffix (net : Network) : Event → Bool
  | .deliver ⟨_, dst, .appendEntriesRequest term _ prevLogIndex prevLogTerm entries _⟩ =>
    let n := net.node dst
    decide (n.currentTerm ≤ term) && RaftNode.prevMatches n.log prevLogIndex prevLogTerm &&
      entries.all (fun e => decide (n.log.termFor e.index = some e.term)) &&
      decide (prevLogIndex + entries.length < n.log.lastIndex ∧ n.log.lastTerm ≠ term)
  | _ => false

def IsTransfer : Event → Bool
  | .transferLeadership _ _ => true
  | _ => false

/-- What election safety needs of a step. -/
def Orderly (m : Membership) (net : Network) (e : Event) : Prop :=
  net.Enabled m e ∧ net.StaleVote e = false ∧ net.StepsDownInTerm e = false

/-- What state-machine safety needs of a step. -/
def Faithful (m : Membership) (net : Network) (e : Event) : Prop :=
  net.Enabled m e ∧ IsTransfer e = false ∧ net.StaleVote e = false ∧
    net.StaleAck e = false ∧ net.StaleSuffix e = false

instance (m : Membership) (net : Network) : DecidablePred (Orderly m net) := fun e =>
  inferInstanceAs (Decidable (net.Enabled m e ∧ _))

instance (m : Membership) (net : Network) : DecidablePred (Faithful m net) := fun e =>
  inferInstanceAs (Decidable (net.Enabled m e ∧ _))

@[simp] theorem post_node_self (net : Network) (i : NodeId) (r : RaftNode × List Outgoing) :
    (net.post i r).node i = r.1 := Function.update_self _ _ _

theorem post_node_ne (net : Network) {i j : NodeId} (h : j ≠ i)
    (r : RaftNode × List Outgoing) : (net.post i r).node j = net.node j :=
  Function.update_of_ne h _ _

@[simp] theorem post_sent (net : Network) (i : NodeId) (r : RaftNode × List Outgoing) :
    (net.post i r).sent = net.sent ++ r.2.map fun m => ⟨i, m.1, m.2⟩ := rfl

theorem Faithful.orderly {m : Membership} {net : Network} {e : Event} (h : net.Faithful m e) :
    net.Orderly m e := by
  obtain ⟨hen, htrans, hvote, _⟩ := h
  refine ⟨hen, hvote, ?_⟩
  cases e with
  | transferLeadership i target => exact absurd htrans (by simp [IsTransfer])
  | tick | propose | deliver => rfl

end Network
end Suture.Raft
