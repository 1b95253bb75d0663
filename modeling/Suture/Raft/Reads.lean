import Suture.Raft.Safety

/-!
# Reads a leader may answer

Log matching and leader completeness read off the nodes, and what they give a caller who
reads at a leader: it takes a read index, sends `read_index_messages` and waits until
`handle_read_ack` has counted a majority.
-/

namespace Suture.Raft
set_option autoImplicit false
open Foundation Consensus

variable {m : Membership} {net : Network} {w : World NodeId LogEntry}

/-! ### Logs -/

/-- Two logs with an entry of one term at one index are the same up to there. -/
theorem log_matching (m : Membership) {s : Network} {a b : NodeId} {k : Nat} {d e : LogEntry}
    (hrun : Run Network.next (fun net => net.Faithful m) (.boot m) s)
    (ha : a ∈ m.nodes) (hb : b ∈ m.nodes) (hd : (s.node a).log.get k = some d)
    (he : (s.node b).log.get k = some e) (hterm : d.term = e.term) :
    ∀ j ≤ k, (s.node a).log.get j = (s.node b).log.get j := by
  obtain ⟨w, _, hok⟩ := (boot_ok m True).run (hrun.mono fun _ _ he => ⟨he.orderly, fun _ => he⟩)
  have hnode := hok.node a ha
  have hnode' := hok.node b hb
  have hinv := hok.world.2 trivial
  have hpos : 1 ≤ k := by
    rcases Nat.eq_zero_or_pos k with rfl | hpos
    · simp [RaftLog.get] at hd
    · exact hpos
  rw [get_eq hnode hpos] at hd
  rw [get_eq hnode' hpos] at he
  have hground := hnode.log ▸ (hinv.replica a).grounded
  have hground' := hnode'.log ▸ (hinv.replica b).grounded
  have hsplit : ∀ {l : List LogEntry} {x : LogEntry}, l[k - 1]? = some x →
      l.take (k - 1) ++ [x] = l.take k := by
    intro l x hx
    obtain ⟨hlt, rfl⟩ := List.getElem?_eq_some_iff.mp hx
    rw [List.take_append_getElem, Nat.sub_add_cancel hpos]
  have htake : (s.node a).log.entries.take k = (s.node b).log.entries.take k := by
    rw [← hsplit hd, ← hsplit he]
    refine Grounded.matching (w := w) ?_ ?_ hterm ?_
    · exact hsplit hd ▸ hground.of_isPrefix (List.take_prefix _ _)
    · exact hsplit he ▸ hground'.of_isPrefix (List.take_prefix _ _)
    · have := (List.getElem?_eq_some_iff.mp hd).1
      have := (List.getElem?_eq_some_iff.mp he).1
      simp only [List.length_take]
      omega
  intro j hj
  rcases Nat.eq_zero_or_pos j with rfl | hj0
  · simp [RaftLog.get]
  · rw [get_eq hnode hj0, get_eq hnode' hj0, ← List.getElem?_take_of_lt (show j - 1 < k by omega),
      htake, List.getElem?_take_of_lt (by omega)]

theorem log_matching_trio :
    let s := (electOne ++ commitOne).foldl Network.next (.boot trio)
    ∀ j ≤ 1, (s.node 1).log.get j = (s.node 2).log.get j :=
  log_matching trio (d := ⟨1, 1, [7]⟩) (e := ⟨1, 1, [7]⟩)
    (Run.of_allows (electOne ++ commitOne) (by decide +kernel))
    (by decide) (by decide) (by decide +kernel) (by decide +kernel) rfl

/-- A leader has what was committed in its term or an earlier one. -/
theorem leader_has (hok : NetworkOk m True net w) {b : NodeId} (hb : b ∈ m.nodes)
    (hleader : (net.node b).state = .leader) {t n : Nat} (hcomm : Committed m.nodes w t n)
    (ht : t ≤ (net.node b).currentTerm) : (w.termLog t).take n <+: (net.node b).log.entries := by
  have hnode := hok.node b hb
  have hinv := hok.world.2 trivial
  have hlog := (hinv.replica b).leading (by rw [hnode.role, hleader]; rfl)
  rw [hnode.term, hnode.log] at hlog
  rcases Nat.eq_or_lt_of_le ht with rfl | hlt
  · exact hlog ▸ List.take_prefix _ _
  · rw [← hlog]
    refine Consensus.leader_completeness hinv.election hinv.history hcomm _ hlt ?_
    rw [leader_recorded hok hb hleader]
    simp

theorem run_terms {w w' : World NodeId LogEntry} {nodes : Finset NodeId} {trusted : Prop}
    (hrun : Run World.apply (Guard nodes trusted) w w') (i : NodeId) :
    (w.replica i).term ≤ (w'.replica i).term :=
  hrun.invariant (fun s => (w.replica i).term ≤ (s.replica i).term)
    (fun _ _ hs ha => hs.trans (term_apply ha.1 i)) (Nat.le_refl _)

theorem node_terms {net' : Network} {w' : World NodeId LogEntry} (hok : NetworkOk m True net w)
    (hlater : Run World.apply (Guard m.nodes True) w w') (hok' : NetworkOk m True net' w')
    {i : NodeId} (hi : i ∈ m.nodes) : (net.node i).currentTerm ≤ (net'.node i).currentTerm := by
  rw [← (hok.node i hi).term, ← (hok'.node i hi).term]
  exact run_terms hlater i

/-- What a node has committed is in the log of every leader whose term is not behind. -/
theorem leader_holds_committed (m : Membership) {s s' : Network} {a b : NodeId} {k : Nat}
    (hrun : Run Network.next (fun net => net.Faithful m) (.boot m) s)
    (hrun' : Run Network.next (fun net => net.Faithful m) s s')
    (ha : a ∈ m.nodes) (hb : b ∈ m.nodes) (hleader : (s'.node b).state = .leader)
    (hterm : (s.node a).currentTerm ≤ (s'.node b).currentTerm)
    (hpos : 1 ≤ k) (hk : k ≤ (s.node a).commitIndex) :
    ∃ e, (s.node a).log.get k = some e ∧ (s'.node b).log.get k = some e := by
  obtain ⟨w, _, hok⟩ := (boot_ok m True).run (hrun.mono fun _ _ he => ⟨he.orderly, fun _ => he⟩)
  obtain ⟨w', hlater, hok'⟩ := hok.run (hrun'.mono fun _ _ he => ⟨he.orderly, fun _ => he⟩)
  have hnode := hok.node a ha
  have hold := (run_chosen hok.world hlater (hnode.log ▸ node_chosen hok ha)).1
  rw [hnode.log] at hold
  obtain ⟨t, n, ht, hkn, hcomm, _⟩ := (hold.mono hk).resolve_left (by omega)
  have hhas := leader_has hok' hb hleader hcomm ((hnode.term ▸ ht).trans hterm)
  have hnew : Chosen m.nodes w' (w.replica a).term (s'.node b).log.entries k :=
    .inr ⟨t, n, ht, hkn, hcomm, (List.take_prefix_take_left hkn).trans hhas⟩
  exact same_entry hok' hnode (hok'.node b hb) hold hnew hpos hk (Nat.le_refl k)


theorem leader_holds_committed_trio :
    let s := (electOne ++ commitOne).foldl Network.next (.boot trio)
    ∃ e, (s.node 2).log.get 1 = some e ∧ ((s.next (.tick 1)).node 1).log.get 1 = some e :=
  leader_holds_committed trio (Run.of_allows (electOne ++ commitOne) (by decide +kernel))
    (Run.of_allows [Event.tick 1] (by decide +kernel)) (by decide) (by decide)
    (by decide +kernel) (by decide +kernel) (by decide) (by decide +kernel)

/-! ### The read index -/

structure ReadIndex where
  index : Nat
  term : Nat
  quorumAcked : Finset NodeId

namespace RaftNode

def readIndex (n : RaftNode) : Except RaftError ReadIndex :=
  if n.state ≠ .leader then .error .notLeader
  else .ok ⟨n.log.lastIndex + 1, n.currentTerm, ∅⟩

/-- Also whether a majority has answered. -/
def handleReadAck (n : RaftNode) (read : ReadIndex) (src : NodeId) : ReadIndex × Bool :=
  let read := { read with quorumAcked := insert src read.quorumAcked }
  (read, decide (n.majority ≤ read.quorumAcked.card))

def readIndexMessages (n : RaftNode) : List Outgoing :=
  n.peers.map fun peer => (peer, .readIndexRequest n.currentTerm (n.log.lastIndex + 1))

end RaftNode

/-- The cluster with the read each node's caller waits for, and how many messages had been
sent when it was asked. -/
structure Readers where
  net : Network
  read : NodeId → Option ReadIndex
  sentBefore : NodeId → Nat

inductive ReadEvent where
  | cluster (e : Event)
  | ask (i : NodeId)
  | ack (i src : NodeId)
deriving DecidableEq

namespace Readers

def boot (m : Membership) : Readers := ⟨.boot m, fun _ => none, fun _ => 0⟩

def next (s : Readers) : ReadEvent → Readers
  | .cluster e => { s with net := s.net.next e }
  | .ask i =>
    match (s.net.node i).readIndex with
    | .error _ => s
    | .ok read =>
      { net := s.net.post i (s.net.node i, (s.net.node i).readIndexMessages)
        read := Function.update s.read i (some read)
        sentBefore := Function.update s.sentBefore i s.net.sent.length }
  | .ack i src =>
    match s.read i with
    | none => s
    | some read =>
      { s with read := Function.update s.read i (some ((s.net.node i).handleReadAck read src).1) }

/-- `p` answers `i` in a term that is not past the read's. -/
def Answers (read : ReadIndex) (i src : NodeId) : Packet → Bool
  | ⟨s, d, .readIndexResponse term⟩ => decide (s = src ∧ d = i ∧ term ≤ read.term)
  | _ => false

/-- The caller counts itself, and the nodes that have answered since the read was asked. -/
def Fresh (s : Readers) (i src : NodeId) : Bool :=
  match s.read i with
  | none => false
  | some read => src = i || (s.net.sent.drop (s.sentBefore i)).any (Answers read i src)

def Served (m : Membership) (s : Readers) : ReadEvent → Prop
  | .cluster e => s.net.Faithful m e
  | .ask i => i ∈ m.nodes
  | .ack i src => i ∈ m.nodes ∧ s.Fresh i src = true

instance (m : Membership) (s : Readers) : DecidablePred (Served m s)
  | .cluster e => inferInstanceAs (Decidable (s.net.Faithful m e))
  | .ask i => inferInstanceAs (Decidable (i ∈ m.nodes))
  | .ack i src => inferInstanceAs (Decidable (i ∈ m.nodes ∧ s.Fresh i src = true))

end Readers

/-! ### Only read requests are answered with read responses -/

def NoResponse (out : List Outgoing) : Prop := ∀ o ∈ out, ∀ t, o.2 ≠ .readIndexResponse t

theorem NoResponse.nil : NoResponse [] := nofun

theorem NoResponse.append {out out' : List Outgoing} (h : NoResponse out) (h' : NoResponse out') :
    NoResponse (out ++ out') :=
  List.forall_mem_append.mpr ⟨h, h'⟩

theorem NoResponse.single {dst : NodeId} {message : RaftMessage}
    (h : ∀ t, message ≠ .readIndexResponse t) : NoResponse [(dst, message)] := by
  intro o ho
  obtain rfl := List.mem_singleton.mp ho
  exact h

section Messages
variable (n : RaftNode)

theorem replicateLog_noResponse : NoResponse n.replicateLog := by
  intro o ho t
  obtain ⟨peer, _, rfl⟩ := List.mem_map.mp ho
  simp only [RaftNode.replicationMessage]
  split <;> simp

theorem voteRequests_noResponse (isPreVote : Bool) : NoResponse (n.voteRequests isPreVote) := by
  intro o ho t
  obtain ⟨peer, _, rfl⟩ := List.mem_map.mp ho
  simp

theorem startElection_noResponse : NoResponse n.startElection.2 := by
  unfold RaftNode.startElection
  simp only
  split
  · exact replicateLog_noResponse _
  · exact voteRequests_noResponse _ _

theorem startPreVote_noResponse : NoResponse n.startPreVote.2 := by
  unfold RaftNode.startPreVote
  simp only
  split
  · exact startElection_noResponse _
  · exact voteRequests_noResponse _ _

theorem heartbeat_noResponse : NoResponse n.heartbeat.2 := by
  unfold RaftNode.heartbeat
  simp only
  split
  · exact replicateLog_noResponse _
  · split
    · exact (replicateLog_noResponse _).append (.single (by simp))
    · exact replicateLog_noResponse _

theorem tick_noResponse : NoResponse n.tick.2 := by
  unfold RaftNode.tick
  simp only
  split
  · split <;> exact .nil
  all_goals
    split
    · first | exact startPreVote_noResponse _ | exact heartbeat_noResponse _
    · exact .nil

theorem handlePreVoteResponse_noResponse (src term : Nat) (granted : Bool) :
    NoResponse (n.handlePreVoteResponse src term granted).2 := by
  unfold RaftNode.handlePreVoteResponse
  split
  · exact .nil
  · split
    · exact .nil
    · split
      · exact .nil
      · split
        · simp only
          split
          · exact startElection_noResponse _
          · exact .nil
        · exact .nil

theorem handleAppendEntries_noResponse (term leaderId prevLogIndex prevLogTerm : Nat)
    (entries : List LogEntry) (leaderCommit t : Nat) :
    (n.handleAppendEntries term leaderId prevLogIndex prevLogTerm entries leaderCommit).2 ≠
      .readIndexResponse t := by
  unfold RaftNode.handleAppendEntries
  split
  · simp
  · simp only
    split <;> simp

theorem handleRequestVote_noResponse (term candidateId lastLogIndex lastLogTerm : Nat)
    (isPreVote : Bool) (t : Nat) :
    (n.handleRequestVote term candidateId lastLogIndex lastLogTerm isPreVote).2 ≠
      .readIndexResponse t := by
  unfold RaftNode.handleRequestVote
  split <;> simp

theorem handleInstallSnapshot_noResponse (term leaderId : Nat) (snapshot : Snapshot) (t : Nat) :
    (n.handleInstallSnapshot term leaderId snapshot).2 ≠ .readIndexResponse t := by
  unfold RaftNode.handleInstallSnapshot
  split <;> simp

theorem handleMessage_response (src : NodeId) (message : RaftMessage) :
    ∀ o ∈ (n.handleMessage src message).2, ∀ t, o.2 = .readIndexResponse t →
      t = n.currentTerm := by
  have hnone : ∀ {out : List Outgoing}, NoResponse out →
      ∀ o ∈ out, ∀ t, o.2 = .readIndexResponse t → t = n.currentTerm :=
    fun h o ho t ht => absurd ht (h o ho t)
  unfold RaftNode.handleMessage
  cases message with
  | appendEntriesRequest => exact hnone (.single fun t => handleAppendEntries_noResponse _ _ _ _ _ _ _ t)
  | requestVoteRequest => exact hnone (.single fun t => handleRequestVote_noResponse _ _ _ _ _ _ t)
  | installSnapshotRequest => exact hnone (.single fun t => handleInstallSnapshot_noResponse _ _ _ _ t)
  | appendEntriesResponse | installSnapshotResponse | readIndexResponse => exact hnone .nil
  | requestVoteResponse term voteGranted isPreVote =>
    simp only
    split
    · exact hnone (handlePreVoteResponse_noResponse _ _ _ _)
    · exact hnone .nil
  | readIndexRequest term index =>
    intro o ho t ht
    obtain rfl := List.mem_singleton.mp ho
    exact (RaftMessage.readIndexResponse.inj ht).symm
  | timeoutNow term =>
    simp only
    split
    · exact hnone (startElection_noResponse _)
    · exact hnone .nil
  | configChangeRequest =>
    simp only
    split <;> exact hnone .nil

end Messages

/-- What one event adds to the messages sent. -/
theorem next_sent {e : Event} (he : net.Enabled m e) : ∃ out, (net.next e).sent = net.sent ++ out ∧
    ∀ p ∈ out, p.src ∈ m.nodes ∧
      ∀ t, p.message = .readIndexResponse t → t = (net.node p.src).currentTerm := by
  have hpost : ∀ {i : NodeId} {r : RaftNode × List Outgoing}, i ∈ m.nodes →
      (∀ o ∈ r.2, ∀ t, o.2 = .readIndexResponse t → t = (net.node i).currentTerm) →
      ∃ out, (net.post i r).sent = net.sent ++ out ∧ ∀ p ∈ out, p.src ∈ m.nodes ∧
        ∀ t, p.message = .readIndexResponse t → t = (net.node p.src).currentTerm := by
    intro i r hi hr
    refine ⟨_, rfl, fun p hp => ?_⟩
    obtain ⟨o, ho, rfl⟩ := List.mem_map.mp hp
    exact ⟨hi, hr o ho⟩
  cases e with
  | tick i => exact hpost he fun o ho t ht => absurd ht (tick_noResponse _ o ho t)
  | propose i command | transferLeadership i target => exact hpost he nofun
  | deliver p => exact hpost he.1 (handleMessage_response _ _ _)


/-! ### A read in progress -/

/-- Node `b` asked in world `w`, when the nodes were in the terms `old` and `since` messages had
been sent. -/
structure Waiting (m : Membership) (w : World NodeId LogEntry) (old : NodeId → Nat) (b : NodeId)
    (asked : ReadIndex) (since : Nat) (s : Readers) : Prop where
  world : ∃ w', Run World.apply (Guard m.nodes True) w w' ∧ NetworkOk m True s.net w'
  terms : ∀ i ∈ m.nodes, old i ≤ (s.net.node i).currentTerm
  sentBefore : s.sentBefore b = since
  length : since ≤ s.net.sent.length
  answers : ∀ p ∈ s.net.sent.drop since, p.src ∈ m.nodes ∧
    ∀ t, p.message = .readIndexResponse t → old p.src ≤ t
  read : ∃ read, s.read b = some read ∧ read.index = asked.index ∧ read.term = asked.term ∧
    read.quorumAcked ⊆ m.nodes ∧ ∀ v ∈ read.quorumAcked, old v ≤ asked.term

theorem readIndex_ok {n : RaftNode} {read : ReadIndex} (h : n.readIndex = .ok read) :
    n.state = .leader ∧ read = ⟨n.log.lastIndex + 1, n.currentTerm, ∅⟩ := by
  unfold RaftNode.readIndex at h
  split at h
  · cases h
  · rename_i hleader
    exact ⟨not_not.mp hleader, (Except.ok.inj h).symm⟩

theorem asks_answered (hok : NetworkOk m True net w) {i : NodeId} (hi : i ∈ m.nodes) :
    Answered m.nodes True w i (net.node i, (net.node i).readIndexMessages) := by
  refine ⟨w, .refl w, hok.node i hi, fun o ho => ?_⟩
  obtain ⟨peer, _, rfl⟩ := List.mem_map.mp ho
  trivial

theorem post_same_node (i j : NodeId) (out : List Outgoing) :
    (net.post i (net.node i, out)).node j = net.node j := by
  simp only [Network.post, Function.update_eq_self]

/-- The messages after the first `k`, once more are sent. -/
theorem mem_drop_append {l out : List Packet} {k : Nat} {p : Packet}
    (h : p ∈ (l ++ out).drop k) : p ∈ l.drop k ∨ p ∈ out := by
  rw [List.drop_append] at h
  exact (List.mem_append.mp h).imp_right List.mem_of_mem_drop

section Step
variable {old : NodeId → Nat} {b : NodeId} {asked : ReadIndex} {since : Nat} {s : Readers}

theorem Waiting.answers_append (h : Waiting m w old b asked since s) {out : List Packet}
    (hout : ∀ p ∈ out, p.src ∈ m.nodes ∧
      ∀ t, p.message = .readIndexResponse t → t = (s.net.node p.src).currentTerm) :
    ∀ p ∈ (s.net.sent ++ out).drop since, p.src ∈ m.nodes ∧
      ∀ t, p.message = .readIndexResponse t → old p.src ≤ t := by
  intro p hp
  rcases mem_drop_append hp with hp | hp
  · exact h.answers p hp
  · obtain ⟨hsrc, hterm⟩ := hout p hp
    exact ⟨hsrc, fun t ht => hterm t ht ▸ h.terms _ hsrc⟩

theorem Waiting.cluster (h : Waiting m w old b asked since s) {e : Event}
    (he : s.net.Faithful m e) : Waiting m w old b asked since (s.next (.cluster e)) := by
  obtain ⟨w', hrun, hok⟩ := h.world
  obtain ⟨w'', hstep, hok'⟩ := hok.next he.orderly fun _ => he
  obtain ⟨out, hsent, hout⟩ := next_sent he.1
  refine ⟨⟨w'', hrun.trans hstep, hok'⟩, fun i hi => ?_, h.sentBefore, ?_, ?_, h.read⟩
  · exact (h.terms i hi).trans (node_terms hok hstep hok' hi)
  · show since ≤ (s.net.next e).sent.length
    rw [hsent, List.length_append]
    exact h.length.trans (Nat.le_add_right _ _)
  · show ∀ p ∈ (s.net.next e).sent.drop since, _
    rw [hsent]
    exact h.answers_append hout

theorem Waiting.ask (h : Waiting m w old b asked since s) {i : NodeId} (hi : i ∈ m.nodes)
    (hne : i ≠ b) : Waiting m w old b asked since (s.next (.ask i)) := by
  unfold Readers.next
  simp only
  split
  · exact h
  · obtain ⟨w', hrun, hok⟩ := h.world
    obtain ⟨w'', hstep, hok'⟩ := hok.post (asks_answered hok hi)
    refine ⟨⟨w'', hrun.trans hstep, hok'⟩, fun j hj => ?_, ?_, ?_, ?_, ?_⟩
    · rw [post_same_node]
      exact h.terms j hj
    · simpa [Function.update_of_ne hne.symm] using h.sentBefore
    · rw [Network.post_sent, List.length_append]
      exact h.length.trans (Nat.le_add_right _ _)
    · refine h.answers_append fun p hp => ?_
      obtain ⟨o, ho, rfl⟩ := List.mem_map.mp hp
      obtain ⟨peer, _, rfl⟩ := List.mem_map.mp ho
      exact ⟨hi, nofun⟩
    · simpa [Function.update_of_ne hne.symm] using h.read

/-- A fresh answer comes from a member, in a term at least the one it was in when `b` asked. -/
theorem Waiting.fresh (h : Waiting m w old b asked since s) (hasked : old b ≤ asked.term)
    (hb : b ∈ m.nodes) {src : NodeId} (hfresh : s.Fresh b src = true) :
    src ∈ m.nodes ∧ old src ≤ asked.term := by
  obtain ⟨read, hread, _, hterm, _⟩ := h.read
  simp only [Readers.Fresh, hread, h.sentBefore, Bool.or_eq_true, decide_eq_true_eq,
    List.any_eq_true] at hfresh
  rcases hfresh with rfl | ⟨⟨psrc, dst, message⟩, hp, hans⟩
  · exact ⟨hb, hasked⟩
  · obtain ⟨hsrc, hold⟩ := h.answers _ hp
    cases message with
    | readIndexResponse t =>
      simp only [Readers.Answers, decide_eq_true_eq] at hans
      obtain ⟨rfl, _, ht⟩ := hans
      exact ⟨hsrc, (hold t rfl).trans (hterm ▸ ht)⟩
    | _ => simp [Readers.Answers] at hans

theorem Waiting.ack (h : Waiting m w old b asked since s) (hasked : old b ≤ asked.term)
    {i src : NodeId} (hi : i ∈ m.nodes) (hfresh : s.Fresh i src = true) :
    Waiting m w old b asked since (s.next (.ack i src)) := by
  unfold Readers.next
  simp only
  split
  · exact h
  · rename_i read hread
    refine ⟨h.world, h.terms, h.sentBefore, h.length, h.answers, ?_⟩
    by_cases hib : i = b
    · subst i
      obtain ⟨hsrc, hold⟩ := h.fresh hasked hi hfresh
      obtain ⟨r, hr, hindex, hterm, hsub, hpast⟩ := h.read
      obtain rfl : r = read := Option.some.inj (hr.symm.trans hread)
      refine ⟨_, Function.update_self .., hindex, hterm, Finset.insert_subset hsrc hsub,
        fun v hv => ?_⟩
      rcases Finset.mem_insert.mp hv with rfl | hv
      · exact hold
      · exact hpast v hv
    · simpa [Function.update_of_ne (Ne.symm hib)] using h.read

theorem Waiting.next (h : Waiting m w old b asked since s) (hasked : old b ≤ asked.term)
    {e : ReadEvent} (he : s.Served m e) (hne : e ≠ .ask b) :
    Waiting m w old b asked since (s.next e) := by
  cases e with
  | cluster e => exact h.cluster he
  | ask i => exact h.ask he fun hib => hne (hib ▸ rfl)
  | ack i src => exact h.ack hasked he.1 he.2


theorem Waiting.start (hok : NetworkOk m True s.net w) (hb : b ∈ m.nodes)
    (hask : (s.net.node b).readIndex = .ok asked) :
    Waiting m w (fun i => (s.net.node i).currentTerm) b asked s.net.sent.length
      (s.next (.ask b)) := by
  obtain ⟨w', hstep, hok'⟩ := hok.post (asks_answered hok hb)
  have hnext : s.next (.ask b) =
      { net := s.net.post b (s.net.node b, (s.net.node b).readIndexMessages)
        read := Function.update s.read b (some asked)
        sentBefore := Function.update s.sentBefore b s.net.sent.length } := by
    simp only [Readers.next, hask]
  rw [hnext]
  refine ⟨⟨w', hstep, hok'⟩, fun i hi => by rw [post_same_node], by simp, by simp, ?_, ?_⟩
  · simp only [Network.post_sent, List.drop_left]
    intro p hp
    obtain ⟨o, ho, rfl⟩ := List.mem_map.mp hp
    obtain ⟨peer, _, rfl⟩ := List.mem_map.mp ho
    exact ⟨hb, nofun⟩
  · obtain ⟨_, rfl⟩ := readIndex_ok hask
    exact ⟨_, Function.update_self .., rfl, rfl, Finset.empty_subset _, nofun⟩

end Step

theorem readers_ok {s : Readers} (hrun : Run Readers.next (fun s => s.Served m) (.boot m) s) :
    ∃ w, NetworkOk m True s.net w := by
  refine hrun.invariant (fun s => ∃ w, NetworkOk m True s.net w) (fun s e hs he => ?_)
    ⟨_, boot_ok m True⟩
  obtain ⟨w, hok⟩ := hs
  cases e with
  | cluster e =>
    obtain ⟨w', _, hok'⟩ := hok.next he.orderly fun _ => he
    exact ⟨w', hok'⟩
  | ask i =>
    simp only [Readers.next]
    split
    · exact ⟨w, hok⟩
    · obtain ⟨w', _, hok'⟩ := hok.post (asks_answered hok he)
      exact ⟨w', hok'⟩
  | ack i src =>
    simp only [Readers.next]
    split <;> exact ⟨w, hok⟩

/-- Node 1 reads what it has committed, and nodes 2 and 3 answer. -/
def readOne : List ReadEvent :=
  [2, 3].map (fun i => .cluster (.deliver ⟨1, i, .readIndexRequest 1 2⟩)) ++ [.ack 1 2, .ack 1 3]

def committedOne : Readers :=
  ((electOne ++ commitOne).map ReadEvent.cluster).foldl Readers.next (.boot trio)

/-- Node 2 has since won term 2 and committed with node 3. Node 1, still leader of term 1,
reads again and counts the answers to its first read. -/
def lateAnswers : List ReadEvent :=
  (electOne.map ReadEvent.cluster) ++ [.ask 1] ++
  ([2, 3].map fun i => .cluster (.deliver ⟨1, i, .readIndexRequest 1 1⟩)) ++
  ([.tick 2, askVote 2 3 1 true 0 0, grantVote 3 2 0 true, askVote 2 3 2 false 0 0,
    grantVote 3 2 2 false, .propose 2 [2], .tick 2, sendEntries 2 3 2 0 0 [⟨1, 2, [2]⟩] 0,
    answerEntries 3 2 2 true 1].map ReadEvent.cluster) ++ [.ask 1, .ack 1 2, .ack 1 3]

example : let s := lateAnswers.foldl Readers.next (.boot trio)
    (s.read 1).map (fun read => (read.index, read.quorumAcked.card)) = some (1, 2) ∧ (s.net.node 2).commitIndex = 1 ∧
      (s.net.node 1).log.get 1 = none := by
  decide +kernel

end Suture.Raft
