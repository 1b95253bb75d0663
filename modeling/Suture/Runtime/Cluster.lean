import Suture.Raft.Safety
import Suture.Runtime.Delivery

/-!
# Hubs of a cluster

Each hub collects the committed commands of its own node. As the nodes agree on what is
committed, the hubs deliver the same commands in the same order; one may be behind another.
-/

namespace Suture.Runtime
set_option autoImplicit false
open Foundation Consensus Raft

/-! ### The counters of a node -/

/-- The count of applied entries stays, and the commit index does not fall. -/
structure Ahead (n n' : RaftNode) : Prop where
  applied : n'.lastApplied = n.lastApplied
  commit : n.commitIndex ≤ n'.commitIndex

theorem Ahead.of_eq {n n' : RaftNode} (happlied : n'.lastApplied = n.lastApplied)
    (hcommit : n'.commitIndex = n.commitIndex) : Ahead n n' := ⟨happlied, hcommit.ge⟩

theorem Ahead.refl (n : RaftNode) : Ahead n n := .of_eq rfl rfl

theorem Ahead.trans {n n' n'' : RaftNode} (h : Ahead n n') (h' : Ahead n' n'') : Ahead n n'' :=
  ⟨h'.applied.trans h.applied, h.commit.trans h'.commit⟩

section Handlers
variable (n : RaftNode)

theorem ahead_tryCommit : Ahead n n.tryCommit := by
  unfold RaftNode.tryCommit
  dsimp only
  split
  · exact .refl n
  · rename_i i hfind
    have hmem := List.mem_of_find?_eq_some hfind
    rw [List.mem_reverse, List.mem_range'_1] at hmem
    exact ⟨rfl, show n.commitIndex ≤ i by omega⟩

theorem ahead_startElection : Ahead n n.startElection.1 := by
  unfold RaftNode.startElection
  dsimp only
  split <;> exact .of_eq rfl rfl

theorem ahead_startPreVote : Ahead n n.startPreVote.1 := by
  unfold RaftNode.startPreVote
  dsimp only
  split
  · exact ahead_startElection _
  · exact .of_eq rfl rfl

theorem ahead_handlePreVoteResponse (src term : Nat) (granted : Bool) :
    Ahead n (n.handlePreVoteResponse src term granted).1 := by
  unfold RaftNode.handlePreVoteResponse
  split
  · exact .refl n
  split
  · exact .of_eq rfl rfl
  split
  · exact .of_eq rfl rfl
  split
  · dsimp only
    split
    · exact ahead_startElection _
    · exact .of_eq rfl rfl
  · exact .refl n

theorem ahead_handleAppendEntriesResponse (src term : Nat) (success : Bool) (matchIndex : Nat) :
    Ahead n (n.handleAppendEntriesResponse src term success matchIndex) := by
  unfold RaftNode.handleAppendEntriesResponse
  split
  · exact .of_eq rfl rfl
  split
  · exact .refl n
  split
  · refine .trans ?_ (ahead_tryCommit _)
    exact .of_eq rfl rfl
  · dsimp only
    split <;> exact .of_eq rfl rfl

theorem ahead_handleRequestVote (term candidateId lastLogIndex lastLogTerm : Nat) (isPreVote : Bool) :
    Ahead n (n.handleRequestVote term candidateId lastLogIndex lastLogTerm isPreVote).1 := by
  unfold RaftNode.handleRequestVote
  split
  · exact .refl n
  · dsimp only
    refine .of_eq ?_ ?_
    all_goals
      split <;> split <;> rfl

theorem ahead_handleRequestVoteResponse (src term : Nat) (voteGranted : Bool) :
    Ahead n (n.handleRequestVoteResponse src term voteGranted) := by
  unfold RaftNode.handleRequestVoteResponse
  split
  · exact .of_eq rfl rfl
  split
  · exact .refl n
  split
  · dsimp only
    split <;> exact .of_eq rfl rfl
  · exact .refl n

theorem ahead_handleInstallSnapshot (term leaderId : Nat) (snapshot : Snapshot) :
    Ahead n (n.handleInstallSnapshot term leaderId snapshot).1 := by
  unfold RaftNode.handleInstallSnapshot
  split
  · exact .refl n
  · exact .of_eq rfl rfl

theorem ahead_heartbeat : Ahead n n.heartbeat.1 := by
  unfold RaftNode.heartbeat
  dsimp only
  split
  · exact .refl n
  · split <;> exact .of_eq rfl rfl

theorem ahead_tick : Ahead n n.tick.1 := by
  unfold RaftNode.tick
  dsimp only
  split
  · split <;> exact .of_eq rfl rfl
  · split
    · exact ahead_startPreVote _
    · exact .of_eq rfl rfl
  · split
    · exact ahead_startPreVote _
    · exact .of_eq rfl rfl
  · split
    · refine .trans ?_ (ahead_heartbeat _)
      exact .of_eq rfl rfl
    · exact .of_eq rfl rfl

theorem ahead_propose (command : List UInt8) : Ahead n (n.propose command).1 := by
  unfold RaftNode.propose
  split
  · exact .refl n
  · refine .trans ?_ (ahead_tryCommit _)
    exact .of_eq rfl rfl

theorem ahead_transferLeadership (target : NodeId) : Ahead n (n.transferLeadership target).1 := by
  unfold RaftNode.transferLeadership
  split
  · exact .refl n
  split
  · exact .refl n
  split <;> exact .of_eq rfl rfl

/-- A follower takes over the leader's commit index as far as its log goes. -/
theorem handleAppendEntries_counters (term leaderId prevLogIndex prevLogTerm : Nat)
    (entries : List LogEntry) (leaderCommit : Nat) {n' : RaftNode}
    (h : (n.handleAppendEntries term leaderId prevLogIndex prevLogTerm entries leaderCommit).1 = n') :
    n'.lastApplied = n.lastApplied ∧
      (n.commitIndex ≤ n'.commitIndex ∨ n'.commitIndex = n'.log.lastIndex) := by
  unfold RaftNode.handleAppendEntries at h
  split at h
  · subst h
    exact ⟨rfl, .inl (Nat.le_refl _)⟩
  dsimp only at h
  split at h
  · subst h
    refine ⟨rfl, ?_⟩
    dsimp only
    split
    · rename_i hlt
      have hcommit : (n.followLeader term leaderId).commitIndex = n.commitIndex := rfl
      omega
    · exact .inl (Nat.le_refl _)
  · subst h
    exact ⟨rfl, .inl (Nat.le_refl _)⟩

theorem handleMessage_counters (src : NodeId) (message : RaftMessage) {n' : RaftNode}
    (h : (n.handleMessage src message).1 = n') : n'.lastApplied = n.lastApplied ∧
      (n.commitIndex ≤ n'.commitIndex ∨ n'.commitIndex = n'.log.lastIndex) := by
  have hahead : Ahead n n' → n'.lastApplied = n.lastApplied ∧
      (n.commitIndex ≤ n'.commitIndex ∨ n'.commitIndex = n'.log.lastIndex) :=
    fun h => ⟨h.applied, .inl h.commit⟩
  unfold RaftNode.handleMessage at h
  cases message with
  | appendEntriesRequest => exact handleAppendEntries_counters n _ _ _ _ _ _ h
  | appendEntriesResponse => exact hahead (h ▸ ahead_handleAppendEntriesResponse n _ _ _ _)
  | requestVoteRequest => exact hahead (h ▸ ahead_handleRequestVote n _ _ _ _ _)
  | requestVoteResponse term voteGranted isPreVote =>
    dsimp only at h
    split at h
    · exact hahead (h ▸ ahead_handlePreVoteResponse n _ _ _)
    · exact hahead (h ▸ ahead_handleRequestVoteResponse n _ _ _)
  | installSnapshotRequest => exact hahead (h ▸ ahead_handleInstallSnapshot n _ _ _)
  | installSnapshotResponse | readIndexResponse =>
    dsimp only at h
    split at h <;> exact hahead (h ▸ .of_eq rfl rfl)
  | readIndexRequest => exact hahead (h ▸ .refl n)
  | timeoutNow =>
    dsimp only at h
    split at h
    · exact hahead (h ▸ ahead_startElection n)
    · exact hahead (h ▸ .refl n)
  | configChangeRequest =>
    dsimp only at h
    split at h <;> exact hahead (h ▸ .of_eq rfl rfl)

end Handlers

variable {m : Membership} {net : Network} {w : World NodeId LogEntry}

theorem next_counters (net : Network) (e : Event) (i : NodeId) :
    ((net.next e).node i).lastApplied = (net.node i).lastApplied ∧
      ((net.node i).commitIndex ≤ ((net.next e).node i).commitIndex ∨
        ((net.next e).node i).commitIndex = ((net.next e).node i).log.lastIndex) := by
  have hahead : ∀ {n n' : RaftNode}, Ahead n n' → n'.lastApplied = n.lastApplied ∧
      (n.commitIndex ≤ n'.commitIndex ∨ n'.commitIndex = n'.log.lastIndex) :=
    fun h => ⟨h.applied, .inl h.commit⟩
  have hpost : ∀ {j : NodeId} {r : RaftNode × List Outgoing},
      (r.1.lastApplied = (net.node j).lastApplied ∧
        ((net.node j).commitIndex ≤ r.1.commitIndex ∨ r.1.commitIndex = r.1.log.lastIndex)) →
      ((net.post j r).node i).lastApplied = (net.node i).lastApplied ∧
        ((net.node i).commitIndex ≤ ((net.post j r).node i).commitIndex ∨
          ((net.post j r).node i).commitIndex = ((net.post j r).node i).log.lastIndex) := by
    intro j r h
    by_cases hij : i = j
    · subst hij
      rwa [Network.post_node_self]
    · rw [Network.post_node_ne net hij]
      exact hahead (.refl _)
  cases e with
  | tick j => exact hpost (hahead (ahead_tick _))
  | propose j command => exact hpost (hahead (ahead_propose _ command))
  | transferLeadership j target => exact hpost (hahead (ahead_transferLeadership _ target))
  | deliver p => exact hpost (handleMessage_counters _ _ _ rfl)

/-! ### Committed prefixes -/

section Chosen
variable {nodes : Finset NodeId} {log log' : List LogEntry} {u u' c c' k : Nat}

theorem chosen_length (hw : Inv nodes w) (h : Chosen nodes w u log c) : c ≤ log.length := by
  rcases Nat.eq_zero_or_pos c with rfl | hpos
  · exact Nat.zero_le _
  · have hlen := (h.agree (k := c - 1) hw.election hw.history h (by omega) (by omega)).2
    omega

/-- Two logs start alike as far as both are chosen. -/
theorem chosen_take (hw : Inv nodes w) (h : Chosen nodes w u log c) (h' : Chosen nodes w u' log' c')
    (hk : k ≤ c) (hk' : k ≤ c') : log.take k = log'.take k := by
  refine List.ext_getElem? fun j => ?_
  rw [List.getElem?_take, List.getElem?_take]
  split
  · exact (h.agree hw.election hw.history h' (by omega) (by omega)).1
  · rfl

end Chosen

theorem node_grown (hok : NetworkOk m True net w) {e : Event} (he : net.Faithful m e) {i : NodeId}
    (hi : i ∈ m.nodes) : Grown (net.node i) ((net.next e).node i) := by
  obtain ⟨w', hrun, hok'⟩ := hok.next he.orderly fun _ => he
  have hinv := hok'.world.2 trivial
  have hnode := hok.node i hi
  have hnode' := hok'.node i hi
  obtain ⟨hold, hnew⟩ := run_chosen hok.world hrun (hnode.log ▸ node_chosen hok hi)
  rw [hnode.log] at hold
  rw [hnode'.log] at hnew
  have hlength := chosen_length hinv hnew
  obtain ⟨happlied, hcommit⟩ := next_counters net e i
  refine ⟨happlied, ?_, chosen_length hinv (node_chosen hok' hi), ?_⟩
  · rcases hcommit with hle | heq
    · exact hle
    · rw [heq, RaftLog.lastIndex, (hnode'.plain trivial).1]
      omega
  · exact chosen_take hinv hnew hold (Nat.le_refl _) (Nat.le_refl _)

/-! ### The hubs -/

/-- The nodes of the hubs with the messages between them, and the channel of each hub with all
that was ever put on it. -/
structure Hubs where
  net : Network
  config : NodeId → RaftConfig
  channel : NodeId → List HubCommand
  sent : NodeId → List HubCommand

inductive HubEvent where
  | cluster (e : Event)
  | collect (i : NodeId)
  | drain (i : NodeId) (count : Nat)
deriving DecidableEq

namespace Hubs

def boot (m : Membership) (config : NodeId → RaftConfig) : Hubs :=
  ⟨.boot m, config, fun _ => [], fun _ => []⟩

/-- One hub by itself. -/
def loop (s : Hubs) (i : NodeId) : TickLoop := ⟨⟨s.net.node i, s.config i⟩, s.channel i, s.sent i⟩

def setLoop (s : Hubs) (i : NodeId) (l : TickLoop) : Hubs where
  net := { s.net with node := Function.update s.net.node i l.hub.node }
  config := s.config
  channel := Function.update s.channel i l.channel
  sent := Function.update s.sent i l.sent

variable (fromSlice : List UInt8 → Option HubCommand)

def next (s : Hubs) : HubEvent → Hubs
  | .cluster e => { s with net := s.net.next e }
  | .collect i => s.setLoop i ((s.loop i).next fromSlice .collect)
  | .drain i count => s.setLoop i ((s.loop i).next fromSlice (.drain count))

/-- The nodes keep to the protocol, and each tick is clear. -/
def Clear (m : Membership) (s : Hubs) : HubEvent → Prop
  | .cluster e => s.net.Faithful m e
  | .collect i => i ∈ m.nodes ∧ (s.loop i).Clear fromSlice .collect
  | .drain i _ => i ∈ m.nodes

instance (m : Membership) (s : Hubs) : DecidablePred (s.Clear fromSlice m)
  | .cluster e => inferInstanceAs (Decidable (s.net.Faithful m e))
  | .collect i => inferInstanceAs (Decidable (i ∈ m.nodes ∧ (s.loop i).Clear fromSlice .collect))
  | .drain i _ => inferInstanceAs (Decidable (i ∈ m.nodes))

/-- The nodes follow the protocol, and each hub has delivered the commands it counts as applied. -/
structure Ok (m : Membership) (s : Hubs) : Prop where
  net : ∃ w, NetworkOk m True s.net w
  counted : ∀ i ∈ m.nodes, (s.loop i).Counted fromSlice

variable {fromSlice} {s : Hubs} {i j : NodeId}

theorem loop_setLoop_self (s : Hubs) (i : NodeId) (l : TickLoop)
    (hconfig : l.hub.config = s.config i) : (s.setLoop i l).loop i = l := by
  obtain ⟨⟨node, config⟩, channel, sent⟩ := l
  dsimp only at hconfig
  simp only [loop, setLoop, Function.update_self, hconfig]

theorem loop_setLoop_ne (h : j ≠ i) (l : TickLoop) : (s.setLoop i l).loop j = s.loop j := by
  simp only [loop, setLoop, Function.update_of_ne h]

theorem boot_counted (m : Membership) (config : NodeId → RaftConfig) (i : NodeId) :
    ((boot m config).loop i).Counted fromSlice where
  applied := Nat.le_refl _
  stored := Nat.le_refl _
  channel := Nat.zero_le _
  sent := rfl

theorem Ok.boot (m : Membership) (config : NodeId → RaftConfig) :
    (boot m config).Ok fromSlice m :=
  ⟨⟨bootWorld, boot_ok m True⟩, fun i _ => boot_counted m config i⟩

/-- A hub that only counts entries as applied leaves the protocol alone. -/
theorem networkOk_setLoop {net : Network} (hok : NetworkOk m True net w) {count : Nat} :
    NetworkOk m True { net with
      node := Function.update net.node i ((net.node i).advanceApplied count) } w where
  world := hok.world
  packet := hok.packet
  node j hj := by
    by_cases hji : j = i
    · subst hji
      show NodeOk m.nodes True w j (Function.update net.node j _ j)
      rw [Function.update_self]
      exact { hok.node j hj with }
    · show NodeOk m.nodes True w j (Function.update net.node i _ j)
      rw [Function.update_of_ne hji]
      exact hok.node j hj

theorem Ok.setLoop (h : s.Ok fromSlice m) {l : TickLoop} (count : Nat)
    (hnode : l.hub = (s.loop i).hub.advanceApplied count) (hl : l.Counted fromSlice) :
    (s.setLoop i l).Ok fromSlice m := by
  obtain ⟨w, hok⟩ := h.net
  refine ⟨⟨w, ?_⟩, fun j hj => ?_⟩
  · show NetworkOk m True { s.net with node := Function.update s.net.node i l.hub.node } w
    rw [hnode]
    exact networkOk_setLoop hok
  · by_cases hji : j = i
    · subst hji
      rwa [loop_setLoop_self s j l (by rw [hnode]; rfl)]
    · rw [loop_setLoop_ne hji]
      exact h.counted j hj

theorem Ok.next (h : s.Ok fromSlice m) {e : HubEvent} (he : s.Clear fromSlice m e) :
    (s.next fromSlice e).Ok fromSlice m := by
  cases e with
  | cluster e =>
    obtain ⟨w, hok⟩ := h.net
    obtain ⟨w', -, hok'⟩ := hok.next he.orderly fun _ => he
    exact ⟨⟨w', hok'⟩, fun i hi =>
      (h.counted i hi).next (e := .advance ((s.net.next e).node i)) (node_grown hok he hi)⟩
  | collect i =>
    obtain ⟨hi, hclear⟩ := he
    have hcounted := h.counted i hi
    refine h.setLoop (commandsOf fromSlice (pending (s.loop i).hub.node)).length ?_
      (hcounted.next hclear)
    rw [TickLoop.next, TickLoop.collect_eq fromSlice hcounted.stored]
  | drain i count => exact h.setLoop 0 rfl ((h.counted i he).next trivial)

/-- One of two hubs has delivered what the other has, and more. -/
theorem Ok.comparable (h : s.Ok fromSlice m) (hi : i ∈ m.nodes) (hj : j ∈ m.nodes)
    (hle : (s.net.node i).lastApplied ≤ (s.net.node j).lastApplied) : s.sent i <+: s.sent j := by
  obtain ⟨w, hok⟩ := h.net
  have hinv := hok.world.2 trivial
  have hci := h.counted i hi
  have hcj := h.counted j hj
  have hboundi : (s.net.node i).lastApplied ≤ (s.net.node i).commitIndex := hci.applied
  have hboundj : (s.net.node j).lastApplied ≤ (s.net.node j).commitIndex := hcj.applied
  have htake := chosen_take hinv (node_chosen hok hi) (node_chosen hok hj) hboundi
    (hle.trans hboundj)
  have hsent : s.sent i = commandsOf fromSlice
      ((s.net.node j).log.entries.take (s.net.node i).lastApplied) :=
    hci.sent.trans (congrArg (commandsOf fromSlice) htake)
  have hsent' : s.sent j = commandsOf fromSlice
      ((s.net.node j).log.entries.take (s.net.node j).lastApplied) := hcj.sent
  rw [hsent, hsent']
  exact (List.take_prefix_take_left hle).filterMap _

end Hubs

/-- Hubs of a cluster deliver the same commands in the same order: what one has delivered, another
has too or is about to. Each delivers what its node has committed, and each of it once. -/
theorem hubs_deliver_alike {fromSlice : List UInt8 → Option HubCommand} {config : NodeId → RaftConfig}
    {s : Hubs} {i j : NodeId}
    (hrun : Run (Hubs.next fromSlice) (Hubs.Clear fromSlice m) (.boot m config) s)
    (hi : i ∈ m.nodes) (hj : j ∈ m.nodes) :
    (s.sent i <+: s.sent j ∨ s.sent j <+: s.sent i) ∧
      (s.Clear fromSlice m (.collect i) →
        ((s.next fromSlice (.collect i)).loop i).Delivered fromSlice) := by
  have hok := hrun.invariant (fun s => s.Ok fromSlice m) (fun _ _ h he => h.next he) (.boot m config)
  refine ⟨?_, fun hclear => ?_⟩
  · rcases Nat.le_total (s.net.node i).lastApplied (s.net.node j).lastApplied with hle | hle
    · exact .inl (hok.comparable hi hj hle)
    · exact .inr (hok.comparable hj hi hle)
  · have hcounted := hok.counted i hi
    rw [Hubs.next, Hubs.loop_setLoop_self s i _
      (by rw [TickLoop.next, TickLoop.collect_eq fromSlice hcounted.stored]; rfl)]
    exact (hcounted.collect hclear.2).2

/-- A cluster of three with one command, which two hubs have collected. -/
def collected : List HubEvent :=
  (electOne ++ commitOne).map .cluster ++ [.collect 1, .drain 1 1, .collect 2]

/-- The parser on the command of that run. -/
def parseSeven (bytes : List UInt8) : Option HubCommand :=
  if bytes = [7] then some (.createRepo "a") else none

theorem hubs_deliver_alike_trio :
    let s := collected.foldl (Hubs.next parseSeven) (.boot trio fun i => ⟨i, [], 10, 3⟩)
    (s.sent 1 <+: s.sent 2 ∨ s.sent 2 <+: s.sent 1) ∧
      (s.Clear parseSeven trio (.collect 1) →
        ((s.next parseSeven (.collect 1)).loop 1).Delivered parseSeven) :=
  hubs_deliver_alike (Run.of_allows collected (by decide +kernel)) (by decide) (by decide)

example : (collected.foldl (Hubs.next parseSeven) (.boot trio fun i => ⟨i, [], 10, 3⟩)).sent 2 =
    [.createRepo "a"] := by
  decide +kernel

end Suture.Runtime
