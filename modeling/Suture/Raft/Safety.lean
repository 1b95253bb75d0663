import Suture.Raft.Handlers

/-!
# Election safety and state-machine safety of a cluster

Both are stated for runs that avoid the steps at which the nodes leave the
protocol, and both fail on a run with such a step.
-/

namespace Suture.Raft
set_option autoImplicit false
open Foundation Consensus

variable {nodes : Finset NodeId} {trusted : Prop} {w : World NodeId LogEntry} {i : NodeId}
  {n : RaftNode}

theorem handleMessage_answered (hw : WorldInv nodes trusted w) (h : NodeOk nodes trusted w i n)
    (hi : i ∈ nodes) {net : Network} (hn : net.node i = n) {p : Packet} (hdst : p.dst = i)
    (hp : PacketOk nodes trusted w p) (hvote : net.StaleVote (.deliver p) = false)
    (hfaith : trusted → net.StaleAck (.deliver p) = false ∧ net.StaleSuffix (.deliver p) = false) :
    Answered nodes trusted w i (n.handleMessage p.src p.message) := by
  obtain ⟨src, dst, message⟩ := p
  obtain rfl : dst = i := hdst
  subst n
  cases message with
  | appendEntriesRequest term leaderId prevLogIndex prevLogTerm entries leaderCommit =>
    refine handleAppendEntries_answered hw h hp fun ht hle hprev hall hlen => ?_
    have hclean := (hfaith ht).2
    by_contra hterm
    have : net.StaleSuffix (.deliver ⟨src, dst, .appendEntriesRequest term leaderId prevLogIndex
        prevLogTerm entries leaderCommit⟩) = true := by
      simp only [Network.StaleSuffix, Bool.and_eq_true, decide_eq_true_iff, List.all_eq_true]
      exact ⟨⟨⟨hle, hprev⟩, hall⟩, hlen, hterm⟩
    rw [this] at hclean
    exact absurd hclean (by simp)
  | appendEntriesResponse term success matchIndex =>
    refine handleAppendEntriesResponse_answered hw h hi hp fun ht hs hstale => ?_
    subst success
    exact absurd (hfaith ht).1 (by simpa [Network.StaleAck] using hstale)
  | requestVoteRequest term candidateId lastLogIndex lastLogTerm isPreVote =>
    exact handleRequestVote_answered hw h hi hp
  | requestVoteResponse term voteGranted isPreVote =>
    unfold RaftNode.handleMessage
    cases isPreVote with
    | true => exact handlePreVoteResponse_answered hw h hi src term voteGranted
    | false =>
      refine handleRequestVoteResponse_answered h hp fun hgrant hstale => ?_
      subst voteGranted
      exact absurd hvote (by simpa [Network.StaleVote] using hstale)
  | installSnapshotRequest term leaderId snapshot =>
    exact handleInstallSnapshot_answered h hp src term leaderId snapshot
  | installSnapshotResponse term | readIndexResponse term =>
    unfold RaftNode.handleMessage
    simp only
    split
    · rename_i hlt
      exact stepDown_answered h hlt
    · exact .quiet h
  | readIndexRequest term index => exact .send h trivial
  | timeoutNow term =>
    unfold RaftNode.handleMessage
    simp only
    split
    · exact startElection_answered hw h hi
    · exact .quiet h
  | configChangeRequest term leaderId newNodes => exact absurd hp id

/-! ### The whole cluster -/

structure NetworkOk (m : Membership) (trusted : Prop) (net : Network)
    (w : World NodeId LogEntry) : Prop where
  world : WorldInv m.nodes trusted w
  node : ∀ i ∈ m.nodes, NodeOk m.nodes trusted w i (net.node i)
  packet : ∀ p ∈ net.sent, PacketOk m.nodes trusted w p

theorem NetworkOk.post {m : Membership} {net : Network} (h : NetworkOk m trusted net w)
    {r : RaftNode × List Outgoing} (hr : Answered m.nodes trusted w i r) :
    ∃ w', Run World.apply (Guard m.nodes trusted) w w' ∧ NetworkOk m trusted (net.post i r) w' := by
  obtain ⟨w', hreach, hnode, hsent⟩ := hr
  refine ⟨w', hreach.mono fun _ _ ha => ha.1, hreach.inv h.world, fun j hj => ?_, fun p hp => ?_⟩
  · by_cases hji : j = i
    · subst j
      rw [Network.post_node_self]
      exact hnode
    · rw [Network.post_node_ne net hji]
      exact hreach.node_ne h.world hji (h.node j hj)
  · rw [Network.post_sent] at hp
    rcases List.mem_append.mp hp with hp | hp
    · exact hreach.packet h.world (h.packet p hp)
    · obtain ⟨out, hout, rfl⟩ := List.mem_map.mp hp
      exact hsent out hout

theorem NetworkOk.next {m : Membership} {net : Network} (h : NetworkOk m trusted net w)
    {e : Event} (he : net.Orderly m e) (hfaith : trusted → net.Faithful m e) :
    ∃ w', Run World.apply (Guard m.nodes trusted) w w' ∧ NetworkOk m trusted (net.next e) w' := by
  obtain ⟨hen, hvote, hdown⟩ := he
  cases e with
  | tick i => exact h.post (tick_answered h.world (h.node i hen) hen)
  | propose i command => exact h.post (propose_answered h.world (h.node i hen) hen command)
  | transferLeadership i target =>
    refine h.post (transferLeadership_answered (h.node i hen) (fun ht => ?_) target ?_)
    · exact absurd (hfaith ht).2.1 (by simp [Network.IsTransfer])
    · simpa [Network.StepsDownInTerm] using hdown
  | deliver p =>
    refine h.post (handleMessage_answered h.world (h.node p.dst hen.1) hen.1 rfl rfl
      (h.packet p hen.2) hvote fun ht => ?_)
    exact ⟨(hfaith ht).2.2.2.1, (hfaith ht).2.2.2.2⟩

def bootWorld : World NodeId LogEntry where
  replica _ := ⟨0, none, .passive, ∅, [], 0⟩
  ballot _ _ := none
  leader _ := none
  electorate _ := ∅
  termLog _ := []
  acked _ _ := 0

theorem bootWorld_election : ElectionInv nodes bootWorld where
  voted _ _ := by simp [bootWorld]
  past _ _ _ hb := nomatch hb
  counted _ hr := nomatch hr
  reigns _ hr := nomatch hr
  fresh _ hr := nomatch hr
  reached _ _ hl := nomatch hl
  elected _ _ hl := nomatch hl

theorem bootWorld_inv : Inv nodes bootWorld where
  election := bootWorld_election
  history := {
    vacant := fun _ _ => rfl
    grounded := fun _ p e hp => absurd (List.prefix_nil.mp hp) (by simp)
    bound := nofun
    ballotLog := nofun
    newest := nofun
    ackLe := fun _ _ => Nat.le_refl _
    keptBallot := nofun
    inherited := fun _ _ _ _ _ _ hu => absurd rfl hu }
  replica i := {
    running := nofun
    leading := nofun
    holding := nofun
    grounded := fun p e hp => absurd (List.prefix_nil.mp hp) (by simp)
    bound := nofun
    ackPast := fun _ h => absurd rfl h
    kept := fun t n _ _ => by simp [bootWorld]
    chosen := .inl rfl }

theorem boot_ok (m : Membership) (trusted : Prop) :
    NetworkOk m trusted (Network.boot m) bootWorld where
  world := ⟨bootWorld_election, fun _ => bootWorld_inv⟩
  packet := nofun
  node i hi := {
    id := rfl
    nodup := m.nodup i hi
    peers := m.mem_peers i hi
    config := by
      ext p
      show p ∈ insert i (m.peers i).toFinset ↔ p ∈ m.nodes
      rw [Finset.mem_insert, List.mem_toFinset, m.mem_peers i hi]
      by_cases hp : p = i <;> simp [hp, hi]
    term := rfl
    votedFor := rfl
    role := rfl
    log := rfl
    commit := rfl
    votes := nofun
    plain := fun _ => ⟨rfl, rfl⟩
    numbered := fun _ => nofun
    books := fun _ => nofun }

/-- Every orderly run of the cluster is a run of the protocol. -/
theorem NetworkOk.run {m : Membership} {net net' : Network} (h : NetworkOk m trusted net w)
    (hrun : Run Network.next (fun s e => s.Orderly m e ∧ (trusted → s.Faithful m e)) net net') :
    ∃ w', Run World.apply (Guard m.nodes trusted) w w' ∧ NetworkOk m trusted net' w' :=
  hrun.simulate (fun w => .refl w) (fun h h' => h.trans h')
    (fun _ _ _ hR he => hR.next he.1 he.2) h

theorem leader_recorded {m : Membership} {net : Network} (h : NetworkOk m trusted net w)
    (hi : i ∈ m.nodes) (hs : (net.node i).state = .leader) :
    w.leader (net.node i).currentTerm = some i := by
  have hnode := h.node i hi
  rw [← hnode.term]
  exact h.world.1.reigns i (by rw [hnode.role, hs]; rfl)

theorem run_extends {w' : World NodeId LogEntry} (hw : WorldInv nodes trusted w)
    (hrun : Run World.apply (Guard nodes trusted) w w') : Extends w w' :=
  (hrun.invariant (fun s => WorldInv nodes trusted s ∧ Extends w s)
    (fun _ _ hs ha => ⟨hs.1.apply ha, hs.2.trans (hs.1.1.extend ha.1)⟩) ⟨hw, .refl w⟩).2

/-- At most one node is ever leader in a term. -/
theorem one_leader_per_term (m : Membership) {s s' : Network} {a b : NodeId}
    (hrun : Run Network.next (fun net => net.Orderly m) (.boot m) s)
    (hrun' : Run Network.next (fun net => net.Orderly m) s s')
    (ha : a ∈ m.nodes) (hb : b ∈ m.nodes)
    (hleader : (s.node a).state = .leader) (hleader' : (s'.node b).state = .leader)
    (hterm : (s.node a).currentTerm = (s'.node b).currentTerm) : a = b := by
  obtain ⟨w, _, hok⟩ := (boot_ok m False).run (hrun.mono fun _ _ he => ⟨he, False.elim⟩)
  obtain ⟨w', hlater, hok'⟩ := hok.run (hrun'.mono fun _ _ he => ⟨he, False.elim⟩)
  have hkept := (run_extends hok.world hlater).leader _ _ (leader_recorded hok ha hleader)
  rw [hterm, leader_recorded hok' hb hleader'] at hkept
  exact (Option.some.inj hkept).symm

/-! ### A cluster of three -/

def trio : Membership where
  nodes := {1, 2, 3}
  peers i := [1, 2, 3].filter (· ≠ i)
  nodup _ _ := (by decide : [1, 2, 3].Nodup).filter _
  mem_peers _ _ p := by simp [and_comm]
  electionTimeout _ := 1
  heartbeatInterval _ := 1
  initialOffset _ := RaftNode.noOffset

def askVote (src dst term : Nat) (isPreVote : Bool) (lastLogIndex lastLogTerm : Nat) : Event :=
  .deliver ⟨src, dst, .requestVoteRequest term src lastLogIndex lastLogTerm isPreVote⟩

def grantVote (src dst term : Nat) (isPreVote : Bool) : Event :=
  .deliver ⟨src, dst, .requestVoteResponse term true isPreVote⟩

def sendEntries (src dst term prevLogIndex prevLogTerm : Nat) (entries : List LogEntry)
    (leaderCommit : Nat) : Event :=
  .deliver ⟨src, dst,
    .appendEntriesRequest term src prevLogIndex prevLogTerm entries leaderCommit⟩

def answerEntries (src dst term : Nat) (success : Bool) (matchIndex : Nat) : Event :=
  .deliver ⟨src, dst, .appendEntriesResponse term success matchIndex⟩

/-- Node 1 wins term 1 with the vote of node 2. -/
def electOne : List Event :=
  [.tick 1, askVote 1 2 0 true 0 0, grantVote 2 1 0 true,
    askVote 1 2 1 false 0 0, grantVote 2 1 1 false]

/-- Node 1 then commits a command and tells node 2. -/
def commitOne : List Event :=
  [.propose 1 [7], .tick 1, sendEntries 1 2 1 0 0 [⟨1, 1, [7]⟩] 0, answerEntries 2 1 1 true 1,
    .tick 1, sendEntries 1 2 1 1 1 [] 1]

def elected : Network := electOne.foldl Network.next (.boot trio)

theorem one_leader_per_term_trio : (elected.node 1).state = .leader ∧
    ((commitOne.foldl Network.next elected).node 1).state = .leader ∧ (1 : NodeId) = 1 :=
  ⟨by decide +kernel, by decide +kernel,
    one_leader_per_term trio (Run.of_allows electOne (by decide +kernel))
      (Run.of_allows commitOne (by decide +kernel)) (by decide) (by decide)
      (by decide +kernel) (by decide +kernel) (by decide +kernel)⟩

/-- Nodes 1 and 2 both run in term 1. Node 1 wins with the vote of node 3 and hands over to
node 2: it steps down within the term, forgets its vote, and votes again. -/
def handOver : List Event × List Event :=
  ([.tick 1, askVote 1 2 0 true 0 0, grantVote 2 1 0 true,
    .tick 2, askVote 2 3 0 true 0 0, grantVote 3 2 0 true,
    askVote 1 3 1 false 0 0, grantVote 3 1 1 false],
   [.transferLeadership 1 2, askVote 2 1 1 false 0 0, grantVote 1 2 1 false])

/-- Node 1 gets the vote of node 3 only in its second candidacy; node 3 has since voted
for node 2. -/
def lateVote : List Event :=
  [.tick 1, askVote 1 2 0 true 0 0, grantVote 2 1 0 true,
    askVote 1 3 1 false 0 0, askVote 1 2 1 false 0 0,
    .tick 1, askVote 1 2 1 true 0 0, grantVote 2 1 1 true,
    .tick 2, askVote 2 3 1 true 0 0, grantVote 3 2 1 true,
    askVote 2 3 2 false 0 0, grantVote 3 2 2 false, grantVote 3 1 1 false]

theorem two_leaders_in_one_term : ¬ ∀ (m : Membership) (s s' : Network) (a b : NodeId),
    Run Network.next (fun net => net.Enabled m) (.boot m) s →
    Run Network.next (fun net => net.Enabled m) s s' → a ∈ m.nodes → b ∈ m.nodes →
    (s.node a).state = .leader → (s'.node b).state = .leader →
    (s.node a).currentTerm = (s'.node b).currentTerm → a = b := by
  intro h
  have := h trio _ _ 1 2 (Run.of_allows handOver.1 (by decide +kernel))
    (Run.of_allows handOver.2 (by decide +kernel)) (by decide) (by decide)
    (by decide +kernel) (by decide +kernel) (by decide +kernel)
  exact absurd this (by decide)

example : Run.Allows Network.next (fun net => net.Enabled trio) (.boot trio) lateVote ∧
    let net := lateVote.foldl Network.next (.boot trio)
    (net.node 1).state = .leader ∧ (net.node 2).state = .leader ∧
      (net.node 1).currentTerm = 2 ∧ (net.node 2).currentTerm = 2 := by
  decide +kernel

/-! ### Committed entries -/

/-- What a replica once had committed it still has, and it is still chosen. -/
theorem run_chosen {w' : World NodeId LogEntry} (hw : WorldInv nodes True w)
    (hrun : Run World.apply (Guard nodes True) w w') {c : Nat}
    (hc : Chosen nodes w (w.replica i).term (w.replica i).log c) :
    Chosen nodes w' (w.replica i).term (w.replica i).log c ∧
      Chosen nodes w' (w'.replica i).term (w'.replica i).log c := by
  refine (hrun.invariant (fun s => WorldInv nodes True s ∧
    Chosen nodes s (w.replica i).term (w.replica i).log c ∧
      Chosen nodes s (s.replica i).term (s.replica i).log c)
    (fun s a hs ha => ⟨hs.1.apply ha, ?_, ?_⟩) ⟨hw, hc, hc⟩).2
  · exact hs.2.1.grow ((hs.1.2 trivial).grows ha.1 (ha.2 trivial)) (Nat.le_refl _)
      fun _ _ _ _ _ hp => hp
  · exact chosen_apply (hs.1.2 trivial) ha.1 (ha.2 trivial) hs.2.2

theorem get_eq (h : NodeOk nodes True w i n) {k : Nat} (hk : 1 ≤ k) :
    n.log.get k = n.log.entries[k - 1]? := by
  unfold RaftLog.get
  rw [(h.plain trivial).1, if_neg (by omega), Nat.sub_zero]

/-- Two logs hold the same entry wherever both are chosen. -/
theorem same_entry {net' : Network} {m : Membership} {w' : World NodeId LogEntry} {j : NodeId}
    (hok : NetworkOk m True net' w') {n' : RaftNode} {v : World NodeId LogEntry}
    (hi : NodeOk m.nodes True v i n) (hj : NodeOk m.nodes True w' j n') {c c' k u u' : Nat}
    (hc : Chosen m.nodes w' u n.log.entries c) (hc' : Chosen m.nodes w' u' n'.log.entries c')
    (hpos : 1 ≤ k) (hk : k ≤ c) (hk' : k ≤ c') :
    ∃ e, n.log.get k = some e ∧ n'.log.get k = some e := by
  have hinv := hok.world.2 trivial
  obtain ⟨heq, hlen⟩ := hc.agree (k := k - 1) hinv.election hinv.history hc' (by omega) (by omega)
  obtain ⟨e, he⟩ : ∃ e, n.log.entries[k - 1]? = some e := ⟨_, List.getElem?_eq_getElem hlen⟩
  refine ⟨e, (get_eq hi hpos).trans he, ?_⟩
  rw [get_eq hj hpos, ← heq]
  exact he

theorem node_chosen {m : Membership} {net : Network} (hok : NetworkOk m True net w)
    (hi : i ∈ m.nodes) :
    Chosen m.nodes w (w.replica i).term (net.node i).log.entries (net.node i).commitIndex := by
  have hnode := hok.node i hi
  rw [← hnode.log, ← hnode.commit]
  exact ((hok.world.2 trivial).replica i).chosen

/-- Nodes agree on what they have committed, and no committed entry is ever lost. -/
theorem state_machine_safety (m : Membership) {s s' : Network} {a b : NodeId} {k : Nat}
    (hrun : Run Network.next (fun net => net.Faithful m) (.boot m) s)
    (hrun' : Run Network.next (fun net => net.Faithful m) s s')
    (ha : a ∈ m.nodes) (hb : b ∈ m.nodes) (hpos : 1 ≤ k) (hk : k ≤ (s.node a).commitIndex) :
    (k ≤ (s.node b).commitIndex →
      ∃ e, (s.node a).log.get k = some e ∧ (s.node b).log.get k = some e) ∧
    ∃ e, (s.node a).log.get k = some e ∧ (s'.node a).log.get k = some e := by
  obtain ⟨w, _, hok⟩ := (boot_ok m True).run (hrun.mono fun _ _ he => ⟨he.orderly, fun _ => he⟩)
  obtain ⟨w', hlater, hok'⟩ := hok.run (hrun'.mono fun _ _ he => ⟨he.orderly, fun _ => he⟩)
  have hnode := hok.node a ha
  have hnode' := hok'.node a ha
  have hchosen := node_chosen hok ha
  refine ⟨fun hkb => same_entry hok hnode (hok.node b hb) hchosen (node_chosen hok hb) hpos hk hkb,
    ?_⟩
  obtain ⟨hold, hnew⟩ := run_chosen hok.world hlater (hnode.log ▸ hchosen)
  rw [hnode.log] at hold
  rw [hnode'.log] at hnew
  exact same_entry hok' hnode hnode' hold hnew hpos hk hk

theorem state_machine_safety_trio :
    let s := (electOne ++ commitOne).foldl Network.next (.boot trio)
    (1 ≤ (s.node 2).commitIndex →
      ∃ e, (s.node 1).log.get 1 = some e ∧ (s.node 2).log.get 1 = some e) ∧
    ∃ e, (s.node 1).log.get 1 = some e ∧ ((s.next (.tick 1)).node 1).log.get 1 = some e :=
  state_machine_safety trio (Run.of_allows (electOne ++ commitOne) (by decide +kernel))
    (Run.of_allows [Event.tick 1] (by decide +kernel)) (by decide) (by decide) (by decide)
    (by decide +kernel)

/-- Node 1 keeps an entry of term 1 that nobody else has. Leader 2 of term 2 sends it no
entries, is told that index 1 matches, and commits its own entry there. Node 1 comes back
as leader of term 3 and commits the other one. -/
def staleSuffix : List Event :=
  electOne ++
  [.propose 1 [1],
    .tick 2, askVote 2 3 1 true 0 0, grantVote 3 2 0 true,
    askVote 2 3 2 false 0 0, grantVote 3 2 2 false,
    .tick 2, sendEntries 2 1 2 0 0 [] 0, .propose 2 [2], answerEntries 1 2 2 true 1,
    .tick 1, askVote 1 3 2 true 1 1, grantVote 3 1 2 true,
    askVote 1 3 3 false 1 1, grantVote 3 1 3 false,
    .propose 1 [3], .tick 1, sendEntries 1 3 3 1 1 [⟨2, 3, [3]⟩] 0, answerEntries 3 1 3 false 0,
    .tick 1, sendEntries 1 3 3 0 0 [⟨1, 1, [1]⟩, ⟨2, 3, [3]⟩] 0, answerEntries 3 1 3 true 2]

/-- The run has no stale vote, no stale acknowledgement and no hand-over. -/
theorem committed_entries_differ : ¬ ∀ (m : Membership) (s : Network) (a b : NodeId) (k : Nat),
    Run Network.next (fun net e => net.Enabled m e ∧ Network.IsTransfer e = false ∧
      net.StaleVote e = false ∧ net.StaleAck e = false) (.boot m) s →
    a ∈ m.nodes → b ∈ m.nodes → 1 ≤ k → k ≤ (s.node a).commitIndex →
    k ≤ (s.node b).commitIndex →
    ∃ e, (s.node a).log.get k = some e ∧ (s.node b).log.get k = some e := by
  intro h
  obtain ⟨e, h1, h2⟩ := h trio _ 1 2 1 (Run.of_allows staleSuffix (by decide +kernel))
    (by decide) (by decide) (by decide) (by decide +kernel) (by decide +kernel)
  exact absurd (h1.trans h2.symm) (by decide +kernel)

end Suture.Raft
