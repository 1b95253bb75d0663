import Suture.Consensus.Replication
import Suture.Raft.Network

/-!
# The nodes run the protocol

Relates nodes and packets to a `World`: `NodeOk` for one node, `PacketOk` for one
packet. `trusted` says whether logs are followed too; without it only the election
half of the protocol is claimed. Every handler is answered by acts of the node it
runs on.
-/

namespace Suture.Raft
set_option autoImplicit false
open Foundation Consensus

instance : Stamped LogEntry := ⟨LogEntry.term⟩

def roleOf : NodeState → Role
  | .follower | .preCandidate => .passive
  | .candidate => .candidate
  | .leader => .leader

/-- Entry `k` of the log carries index `k + 1`. -/
def Numbered (log : List LogEntry) : Prop := ∀ k e, log[k]? = some e → e.index = k + 1

variable (nodes : Finset NodeId) (trusted : Prop)

/-- A leader's books do not claim more than was confirmed. -/
def BooksOk (w : World NodeId LogEntry) (n : RaftNode) : Prop :=
  ∀ p ∈ n.peers, (n.matchIndex p).getD 0 ≤ w.acked p n.currentTerm ∧
    1 ≤ (n.nextIndex p).getD 1 ∧ (n.nextIndex p).getD 1 ≤ n.log.entries.length + 1

structure NodeOk (w : World NodeId LogEntry) (i : NodeId) (n : RaftNode) : Prop where
  id : n.id = i
  nodup : n.peers.Nodup
  peers : ∀ p, p ∈ n.peers ↔ p ∈ nodes ∧ p ≠ i
  config : n.config.nodes = nodes
  term : (w.replica i).term = n.currentTerm
  votedFor : (w.replica i).votedFor = n.votedFor
  role : (w.replica i).role = roleOf n.state
  log : (w.replica i).log = n.log.entries
  commit : (w.replica i).commit = n.commitIndex
  votes : n.state = .candidate → (w.replica i).votes = n.votesReceived
  plain : trusted → n.log.snapshotIndex = 0 ∧ n.log.snapshotTerm = 0
  numbered : trusted → Numbered n.log.entries
  books : trusted → n.state = .leader → BooksOk w n

def PacketOk (w : World NodeId LogEntry) (p : Packet) : Prop :=
  match p.message with
  | .requestVoteRequest t c lastLogIndex lastLogTerm false =>
    p.src = c ∧ (trusted → ∃ log, w.ballot c t = some (c, log) ∧
      lastLogIndex = log.length ∧ lastLogTerm = lastTerm log)
  | .requestVoteResponse t true false => ∃ log, w.ballot p.src t = some (p.dst, log)
  | .appendEntriesRequest t _ prevLogIndex prevLogTerm entries leaderCommit =>
    trusted → ∃ base, base.length = prevLogIndex ∧ base ++ entries <+: w.termLog t ∧
      Numbered (base ++ entries) ∧ (base = [] ∨ lastTerm base = prevLogTerm) ∧
      Chosen nodes w t (base ++ entries) leaderCommit
  | .appendEntriesResponse t true m => trusted → m ≤ w.acked p.src t
  | .installSnapshotRequest _ _ _ => ¬ trusted
  | .configChangeRequest _ _ _ => False
  | _ => True

def Guard (w : World NodeId LogEntry) (a : Act NodeId LogEntry) : Prop :=
  ElectionGuard nodes w a ∧ (trusted → LogGuard nodes w a)

def WorldInv (w : World NodeId LogEntry) : Prop :=
  ElectionInv nodes w ∧ (trusted → Inv nodes w)

/-- Acts of replica `i` lead from one world to the other. -/
def Reach (i : NodeId) : World NodeId LogEntry → World NodeId LogEntry → Prop :=
  Run World.apply fun w a => Guard nodes trusted w a ∧ a.actor = i

/-- Node `i` can be in the state and have sent the messages of `r`. -/
def Answered (w : World NodeId LogEntry) (i : NodeId) (r : RaftNode × List Outgoing) : Prop :=
  ∃ w', Reach nodes trusted i w w' ∧ NodeOk nodes trusted w' i r.1 ∧
    ∀ m ∈ r.2, PacketOk nodes trusted w' ⟨i, m.1, m.2⟩

variable {nodes trusted}

/-! ### Worlds along acts -/

theorem WorldInv.apply {w : World NodeId LogEntry} {a : Act NodeId LogEntry}
    (h : WorldInv nodes trusted w) (ha : Guard nodes trusted w a) :
    WorldInv nodes trusted (w.apply a) :=
  ⟨h.1.apply ha.1, fun ht => (h.2 ht).apply ha.1 (ha.2 ht)⟩

theorem Reach.step {w : World NodeId LogEntry} {i : NodeId} {a : Act NodeId LogEntry}
    (ha : Guard nodes trusted w a) (hi : a.actor = i) : Reach nodes trusted i w (w.apply a) :=
  (Run.refl w).tail ⟨ha, hi⟩

theorem Reach.inv {w w' : World NodeId LogEntry} {i : NodeId} (h : Reach nodes trusted i w w')
    (hw : WorldInv nodes trusted w) : WorldInv nodes trusted w' :=
  Run.invariant (WorldInv nodes trusted) (fun _ _ hs ha => hs.apply ha.1) hw h

theorem Numbered.of_isPrefix {p log : List LogEntry} (h : Numbered log) (hp : p <+: log) :
    Numbered p := by
  intro k e hk
  obtain ⟨s, rfl⟩ := hp
  exact h k e ((List.getElem?_append_left (List.getElem?_eq_some_iff.mp hk).1).trans hk)

theorem PacketOk.apply {w : World NodeId LogEntry} {a : Act NodeId LogEntry} {p : Packet}
    (hw : WorldInv nodes trusted w) (ha : Guard nodes trusted w a)
    (h : PacketOk nodes trusted w p) : PacketOk nodes trusted (w.apply a) p := by
  have hext := hw.1.extend ha.1
  have hgrow : trusted → Grows w (w.apply a) := fun ht => (hw.2 ht).grows ha.1 (ha.2 ht)
  unfold PacketOk at h ⊢
  split at h
  · refine ⟨h.1, fun ht => ?_⟩
    obtain ⟨log, hb, hrest⟩ := h.2 ht
    exact ⟨log, hext.ballot _ _ _ hb, hrest⟩
  · obtain ⟨log, hb⟩ := h
    exact ⟨log, hext.ballot _ _ _ hb⟩
  · intro ht
    obtain ⟨base, hlen, hp, hnum, hlast, hchosen⟩ := h ht
    refine ⟨base, hlen, hp.trans ((hgrow ht).termLog _), hnum, hlast, ?_⟩
    exact hchosen.grow (hgrow ht) (Nat.le_refl _) fun _ _ _ _ _ hp => hp
  · exact fun ht => (h ht).trans ((hgrow ht).acked _ _)
  · exact h
  · exact h
  · trivial

theorem NodeOk.apply_ne {w : World NodeId LogEntry} {a : Act NodeId LogEntry} {j : NodeId}
    {n : RaftNode} (hw : WorldInv nodes trusted w) (ha : Guard nodes trusted w a)
    (hj : j ≠ a.actor) (h : NodeOk nodes trusted w j n) :
    NodeOk nodes trusted (w.apply a) j n := by
  have hsame := w.apply_replica_ne a hj
  refine ⟨h.id, h.nodup, h.peers, h.config, ?_, ?_, ?_, ?_, ?_, ?_, h.plain, h.numbered, ?_⟩
  · rw [hsame, h.term]
  · rw [hsame, h.votedFor]
  · rw [hsame, h.role]
  · rw [hsame, h.log]
  · rw [hsame, h.commit]
  · exact fun hs => by rw [hsame, h.votes hs]
  · intro ht hs p hp
    obtain ⟨hmatch, hnext⟩ := h.books ht hs p hp
    exact ⟨hmatch.trans (((hw.2 ht).grows ha.1 (ha.2 ht)).acked _ _), hnext⟩

theorem Reach.packet {w w' : World NodeId LogEntry} {i : NodeId} {p : Packet}
    (h : Reach nodes trusted i w w') (hw : WorldInv nodes trusted w)
    (hp : PacketOk nodes trusted w p) : PacketOk nodes trusted w' p :=
  (Run.invariant (fun s => WorldInv nodes trusted s ∧ PacketOk nodes trusted s p)
    (fun _ _ hs ha => ⟨hs.1.apply ha.1, hs.2.apply hs.1 ha.1⟩) ⟨hw, hp⟩ h).2

theorem Reach.node_ne {w w' : World NodeId LogEntry} {i j : NodeId} {n : RaftNode}
    (h : Reach nodes trusted i w w') (hw : WorldInv nodes trusted w) (hj : j ≠ i)
    (hn : NodeOk nodes trusted w j n) : NodeOk nodes trusted w' j n :=
  (Run.invariant (fun s => WorldInv nodes trusted s ∧ NodeOk nodes trusted s j n)
    (fun _ _ hs ha => ⟨hs.1.apply ha.1, hs.2.apply_ne hs.1 ha.1 (ha.2 ▸ hj)⟩) ⟨hw, hn⟩ h).2

theorem Answered.after {w w' : World NodeId LogEntry} {i : NodeId}
    {r : RaftNode × List Outgoing} (h : Reach nodes trusted i w w')
    (h' : Answered nodes trusted w' i r) : Answered nodes trusted w i r := by
  obtain ⟨w'', hreach, hrest⟩ := h'
  exact ⟨w'', h.trans hreach, hrest⟩

theorem Answered.quiet {w : World NodeId LogEntry} {i : NodeId} {n : RaftNode}
    (h : NodeOk nodes trusted w i n) : Answered nodes trusted w i (n, []) :=
  ⟨w, .refl w, h, by simp⟩

theorem Answered.send {w : World NodeId LogEntry} {i dst : NodeId} {n : RaftNode}
    {message : RaftMessage} (h : NodeOk nodes trusted w i n)
    (hm : PacketOk nodes trusted w ⟨i, dst, message⟩) :
    Answered nodes trusted w i (n, [(dst, message)]) :=
  ⟨w, .refl w, h, by simpa using hm⟩

end Suture.Raft
