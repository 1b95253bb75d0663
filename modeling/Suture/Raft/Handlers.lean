import Suture.Raft.Indices
import Suture.Raft.Simulation

/-!
# Each handler is answered by the protocol

First what one act does to a node, then the handlers in the order they build on
each other.
-/

namespace Suture.Raft
set_option autoImplicit false
open Foundation Consensus

variable {nodes : Finset NodeId} {trusted : Prop} {w : World NodeId LogEntry} {i : NodeId}
  {n : RaftNode}

namespace NodeOk

/-! ### Single acts -/

theorem bump (h : NodeOk nodes trusted w i n) (t : Nat) :
    NodeOk nodes trusted (w.apply (.bump i t)) i
      { n with currentTerm := t, votedFor := none, state := .follower } := by
  refine ⟨h.id, h.nodup, h.peers, h.config, ?_, ?_, ?_, ?_, ?_, nofun, h.plain, h.numbered,
    fun _ => nofun⟩
  · simp [World.apply]
  · simp [World.apply]
  · simp [World.apply, roleOf]
  · simpa [World.apply] using h.log
  · simpa [World.apply] using h.commit

theorem reach_bump (h : NodeOk nodes trusted w i n) {t : Nat} (ht : n.currentTerm < t) :
    Reach nodes trusted i w (w.apply (.bump i t)) := by
  refine Reach.step ⟨?_, fun _ => trivial⟩ rfl
  show (w.replica i).term < t
  rw [h.term]
  exact ht

theorem retire (h : NodeOk nodes trusted w i n) {s : NodeState} (hs : roleOf s = .passive) :
    NodeOk nodes trusted (w.apply (.retire i)) i { n with state := s } := by
  refine ⟨h.id, h.nodup, h.peers, h.config, ?_, ?_, ?_, ?_, ?_, fun hc => ?_, h.plain,
    h.numbered, fun _ hl => ?_⟩
  · simpa [World.apply] using h.term
  · simpa [World.apply] using h.votedFor
  · simpa [World.apply] using hs.symm
  · simpa [World.apply] using h.log
  · simpa [World.apply] using h.commit
  · simp only at hc
    rw [hc] at hs
    exact absurd hs (by decide)
  · simp only at hl
    rw [hl] at hs
    exact absurd hs (by decide)

theorem reach_retire : Reach nodes trusted i w (w.apply (.retire i)) :=
  Reach.step ⟨trivial, fun _ => trivial⟩ rfl

theorem stand (h : NodeOk nodes trusted w i n) :
    NodeOk nodes trusted (w.apply (.stand i)) i n.newCandidate := by
  refine ⟨h.id, h.nodup, h.peers, h.config, ?_, ?_, ?_, ?_, ?_, fun _ => ?_, h.plain,
    h.numbered, fun _ => nofun⟩
  · simp [World.apply, World.setReplica, h.term, RaftNode.newCandidate]
  · simp [World.apply, World.setReplica, h.id, RaftNode.newCandidate]
  · simp [World.apply, World.setReplica, roleOf, RaftNode.newCandidate]
  · simpa [World.apply, World.setReplica, RaftNode.newCandidate] using h.log
  · simpa [World.apply, World.setReplica, RaftNode.newCandidate] using h.commit
  · simp [World.apply, World.setReplica, h.id, RaftNode.newCandidate]

theorem reach_stand (hi : i ∈ nodes) : Reach nodes trusted i w (w.apply (.stand i)) :=
  Reach.step ⟨hi, fun _ => trivial⟩ rfl

theorem vote (h : NodeOk nodes trusted w i n) (c : NodeId) :
    NodeOk nodes trusted (w.apply (.vote i c)) i { n with votedFor := some c } := by
  refine ⟨h.id, h.nodup, h.peers, h.config, ?_, ?_, ?_, ?_, ?_, fun hc => ?_, h.plain,
    h.numbered, h.books⟩
  · simpa [World.apply, World.setReplica] using h.term
  · simp [World.apply, World.setReplica]
  · simpa [World.apply, World.setReplica] using h.role
  · simpa [World.apply, World.setReplica] using h.log
  · simpa [World.apply, World.setReplica] using h.commit
  · simpa [World.apply, World.setReplica] using h.votes hc

theorem collect (h : NodeOk nodes trusted w i n) (v : NodeId) :
    NodeOk nodes trusted (w.apply (.collect i v)) i
      { n with votesReceived := insert v n.votesReceived } := by
  refine ⟨h.id, h.nodup, h.peers, h.config, ?_, ?_, ?_, ?_, ?_, fun hc => ?_, h.plain,
    h.numbered, h.books⟩
  · simpa [World.apply] using h.term
  · simpa [World.apply] using h.votedFor
  · simpa [World.apply] using h.role
  · simpa [World.apply] using h.log
  · simpa [World.apply] using h.commit
  · simp [World.apply, h.votes hc]

theorem accept (h : NodeOk nodes trusted w i n) (hs : n.state = .follower) (log : RaftLog)
    (ack : Nat) (hplain : trusted → log.snapshotIndex = 0 ∧ log.snapshotTerm = 0)
    (hnum : trusted → Numbered log.entries) :
    NodeOk nodes trusted (w.apply (.accept i log.entries ack)) i { n with log } := by
  refine ⟨h.id, h.nodup, h.peers, h.config, ?_, ?_, ?_, ?_, ?_, fun hc => ?_, hplain, hnum,
    fun _ hl => ?_⟩
  · simpa [World.apply, World.setReplica] using h.term
  · simpa [World.apply, World.setReplica] using h.votedFor
  · simpa [World.apply, World.setReplica] using h.role
  · simp [World.apply, World.setReplica]
  · simpa [World.apply, World.setReplica] using h.commit
  · exact absurd (hs.symm.trans hc) (by decide)
  · exact absurd (hs.symm.trans hl) (by decide)

theorem advance (h : NodeOk nodes trusted w i n) (c : Nat) :
    NodeOk nodes trusted (w.apply (.advance i c)) i { n with commitIndex := c } := by
  refine ⟨h.id, h.nodup, h.peers, h.config, ?_, ?_, ?_, ?_, ?_, fun hc => ?_, h.plain,
    h.numbered, h.books⟩
  · simpa [World.apply] using h.term
  · simpa [World.apply] using h.votedFor
  · simpa [World.apply] using h.role
  · simpa [World.apply] using h.log
  · simp [World.apply]
  · simpa [World.apply] using h.votes hc

theorem lead (h : NodeOk nodes trusted w i n) :
    NodeOk nodes trusted (w.apply (.lead i)) i n.becomeLeader := by
  refine ⟨h.id, h.nodup, h.peers, h.config, ?_, ?_, ?_, ?_, ?_, nofun, h.plain, h.numbered,
    fun ht _ p hp => ?_⟩
  · simpa [World.apply, World.setReplica, RaftNode.becomeLeader] using h.term
  · simpa [World.apply, World.setReplica, RaftNode.becomeLeader] using h.votedFor
  · simp [World.apply, World.setReplica, roleOf, RaftNode.becomeLeader]
  · simpa [World.apply, World.setReplica, RaftNode.becomeLeader] using h.log
  · simpa [World.apply, World.setReplica, RaftNode.becomeLeader] using h.commit
  · have hp' : p ∈ n.peers := hp
    have hlast : n.log.lastIndex = n.log.entries.length := by
      rw [RaftLog.lastIndex, (h.plain ht).1, Nat.zero_add]
    simp [RaftNode.becomeLeader, hp', hlast]

theorem reach_lead (h : NodeOk nodes trusted w i n) (hs : n.state = .candidate)
    (hmaj : n.majority ≤ n.votesReceived.card) :
    Reach nodes trusted i w (w.apply (.lead i)) := by
  refine Reach.step ⟨⟨?_, ?_⟩, fun _ => trivial⟩ rfl
  · rw [h.role, hs]
    rfl
  · rw [h.votes hs, ← h.config]
    exact hmaj

end NodeOk

/-! ### Elections -/

theorem stepDown_answered (h : NodeOk nodes trusted w i n) {t : Nat} (ht : n.currentTerm < t) :
    Answered nodes trusted w i (n.stepDown t, []) := by
  have hdown := h.bump t
  refine Answered.after (h.reach_bump ht) (Answered.quiet ?_)
  unfold RaftNode.stepDown
  rw [if_pos ht]
  exact { hdown with votes := nofun }

theorem lastIndex_eq (h : NodeOk nodes trusted w i n) (ht : trusted) :
    n.log.lastIndex = n.log.entries.length := by
  rw [RaftLog.lastIndex, (h.plain ht).1, Nat.zero_add]

theorem lastTerm_eq (h : NodeOk nodes trusted w i n) (ht : trusted) :
    n.log.lastTerm = lastTerm n.log.entries := by
  unfold RaftLog.lastTerm lastTerm
  cases n.log.entries.getLast? with
  | none => exact (h.plain ht).2
  | some e => rfl

theorem voteRequests_ok (h : NodeOk nodes trusted w i n)
    (hb : w.ballot i n.currentTerm = some (i, n.log.entries)) :
    ∀ m ∈ n.voteRequests false, PacketOk nodes trusted w ⟨i, m.1, m.2⟩ := by
  intro m hm
  obtain ⟨peer, _, rfl⟩ := List.mem_map.mp hm
  refine ⟨h.id.symm, fun ht => ⟨n.log.entries, ?_, lastIndex_eq h ht, lastTerm_eq h ht⟩⟩
  rw [h.id]
  exact hb

theorem preVoteRequests_ok : ∀ m ∈ n.voteRequests true, PacketOk nodes trusted w ⟨i, m.1, m.2⟩ := by
  intro m hm
  obtain ⟨peer, _, rfl⟩ := List.mem_map.mp hm
  trivial

theorem termFor_eq (h : NodeOk nodes trusted w i n) (ht : trusted) (k : Nat) :
    n.log.termFor (k + 1) = n.log.entries[k]?.map LogEntry.term := by
  have hplain := (h.plain ht).1
  simp [RaftLog.termFor, RaftLog.get, hplain]

theorem lastTerm_take {log : List LogEntry} {k : Nat} {e : LogEntry} (he : log[k]? = some e) :
    lastTerm (log.take (k + 1)) = e.term := by
  rw [List.take_add_one, he]
  exact lastTerm_append _ _

theorem termLog_eq (hw : WorldInv nodes trusted w) (h : NodeOk nodes trusted w i n)
    (ht : trusted) (hs : n.state = .leader) : w.termLog n.currentTerm = n.log.entries := by
  rw [← h.term, ← h.log]
  exact ((hw.2 ht).replica i).leading (by rw [h.role, hs]; rfl)

theorem replicationMessage_ok (hw : WorldInv nodes trusted w) (h : NodeOk nodes trusted w i n)
    (hs : n.state = .leader) {peer : NodeId} (hp : peer ∈ n.peers) :
    PacketOk nodes trusted w ⟨i, peer, n.replicationMessage peer⟩ := by
  by_cases ht : trusted
  · obtain ⟨_, hnext, hlast⟩ := h.books ht hs peer hp
    have hplain := (h.plain ht).1
    have hinv := (hw.2 ht).replica i
    have hlog := termLog_eq hw h ht hs
    have hcommit := hinv.chosen
    rw [h.term, h.log, h.commit] at hcommit
    unfold RaftNode.replicationMessage
    simp only [hplain]
    rw [if_neg (by omega)]
    obtain ⟨k, hk⟩ : ∃ k, (n.nextIndex peer).getD 1 = k + 1 := ⟨_, (Nat.sub_add_cancel hnext).symm⟩
    have hsuffix : n.log.entriesFrom (k + 1) = n.log.entries.drop k := by
      unfold RaftLog.entriesFrom
      rw [hplain]
      split
      · rename_i hnil
        simp [hnil.resolve_left (by omega)]
      · simp
    simp only [hk, Nat.add_sub_cancel, hsuffix]
    intro _
    refine ⟨n.log.entries.take k, ?_, ?_, ?_, ?_, ?_⟩
    · rw [List.length_take]
      omega
    · rw [List.take_append_drop, hlog]
    · rw [List.take_append_drop]
      exact h.numbered ht
    · cases k with
      | zero => exact .inl rfl
      | succ j =>
        right
        obtain ⟨e, he⟩ : ∃ e, n.log.entries[j]? = some e :=
          ⟨_, List.getElem?_eq_getElem (by omega)⟩
        rw [lastTerm_take he, termFor_eq h ht, he]
        rfl
    · rw [List.take_append_drop]
      exact hcommit
  · unfold RaftNode.replicationMessage
    simp only
    split
    · exact ht
    · exact fun h => absurd h ht

theorem replicateLog_ok (hw : WorldInv nodes trusted w) (h : NodeOk nodes trusted w i n)
    (hs : n.state = .leader) :
    ∀ m ∈ n.replicateLog, PacketOk nodes trusted w ⟨i, m.1, m.2⟩ := by
  intro m hm
  obtain ⟨peer, hp, rfl⟩ := List.mem_map.mp hm
  exact replicationMessage_ok hw h hs hp

theorem startElection_answered (hw : WorldInv nodes trusted w) (h : NodeOk nodes trusted w i n)
    (hi : i ∈ nodes) : Answered nodes trusted w i n.startElection := by
  have hreach : Reach nodes trusted i w (w.apply (.stand i)) := NodeOk.reach_stand hi
  have hc := h.stand
  refine Answered.after hreach ?_
  unfold RaftNode.startElection
  simp only
  split
  · rename_i hmaj
    have hlead := hc.reach_lead rfl hmaj
    exact ⟨_, hlead, hc.lead, replicateLog_ok (hlead.inv (hreach.inv hw)) hc.lead rfl⟩
  · refine ⟨_, .refl _, hc, voteRequests_ok hc ?_⟩
    simp [World.apply, RaftNode.newCandidate, h.term, h.log]

theorem startPreVote_answered (hw : WorldInv nodes trusted w) (h : NodeOk nodes trusted w i n)
    (hi : i ∈ nodes) : Answered nodes trusted w i n.startPreVote := by
  have hreach : Reach nodes trusted i w (w.apply (.retire i)) := NodeOk.reach_retire
  have hpre : NodeOk nodes trusted (w.apply (.retire i)) i { n with state := .preCandidate } :=
    h.retire rfl
  refine Answered.after hreach ?_
  unfold RaftNode.startPreVote
  simp only
  split
  · exact startElection_answered (hreach.inv hw) { hpre with } hi
  · exact ⟨_, .refl _, { hpre with }, preVoteRequests_ok⟩

theorem handlePreVoteResponse_answered (hw : WorldInv nodes trusted w)
    (h : NodeOk nodes trusted w i n) (hi : i ∈ nodes) (src term : Nat) (granted : Bool) :
    Answered nodes trusted w i (n.handlePreVoteResponse src term granted) := by
  unfold RaftNode.handlePreVoteResponse
  split
  · exact .quiet h
  split
  · rename_i hlt
    have hreach : Reach nodes trusted i w (w.apply (.retire i)) := NodeOk.reach_retire
    have hpre : NodeOk nodes trusted (w.apply (.retire i)) i { n with state := .follower } :=
      h.retire rfl
    exact Answered.after hreach
      (stepDown_answered (n := { n with preVote := none, state := .follower }) { hpre with } hlt)
  split
  · exact .quiet { h with }
  split
  · simp only
    split
    · exact startElection_answered hw { h with } hi
    · exact .quiet { h with }
  · exact .quiet h

/-! ### Votes -/

theorem handleRequestVoteResponse_answered (h : NodeOk nodes trusted w i n) {src term : Nat} {voteGranted : Bool}
    (hp : PacketOk nodes trusted w ⟨src, i, .requestVoteResponse term voteGranted false⟩)
    (hstale : voteGranted = true → ¬ (term < n.currentTerm ∧ n.state = .candidate)) :
    Answered nodes trusted w i (n.handleRequestVoteResponse src term voteGranted, []) := by
  unfold RaftNode.handleRequestVoteResponse
  split
  · rename_i hlt
    exact stepDown_answered h hlt
  split
  · exact .quiet h
  rename_i hle hcand
  have hcand : n.state = .candidate := Decidable.not_not.mp hcand
  split
  · rename_i hgrant
    obtain rfl := hgrant
    have hterm : term = n.currentTerm := by
      have : ¬ term < n.currentTerm := fun hlt => hstale rfl ⟨hlt, hcand⟩
      omega
    subst term
    have hguard : Guard nodes trusted w (.collect i src) := by
      refine ⟨⟨by rw [h.role, hcand]; rfl, ?_⟩, fun _ => trivial⟩
      rw [h.term]
      exact hp
    have hreach : Reach nodes trusted i w (w.apply (.collect i src)) := Reach.step hguard rfl
    have hc := h.collect src
    refine Answered.after hreach ?_
    simp only
    split
    · rename_i hmaj
      exact Answered.after (hc.reach_lead hcand hmaj) (.quiet hc.lead)
    · exact .quiet hc
  · exact .quiet h

theorem upToDate_iff (h : NodeOk nodes trusted w i n) (ht : trusted) (log : List LogEntry) :
    RaftNode.upToDate n.log log.length (lastTerm log) = true ↔
      AtLeastAsNew log n.log.entries := by
  rw [RaftNode.upToDate, decide_eq_true_iff, lastTerm_eq h ht, lastIndex_eq h ht]
  rfl

/-- A vote from the node's current term. -/
theorem grantVote_answered (h : NodeOk nodes trusted w i n) (hi : i ∈ nodes)
    {src lastLogIndex lastLogTerm : Nat}
    (hp : PacketOk nodes trusted w
      ⟨src, i, .requestVoteRequest n.currentTerm src lastLogIndex lastLogTerm false⟩)
    (hw : WorldInv nodes trusted w)
    (hfree : n.votedFor = none ∨ n.votedFor = some src)
    (hnew : RaftNode.upToDate n.log lastLogIndex lastLogTerm = true) :
    Answered nodes trusted w i ({ n with votedFor := some src, ticksSinceReset := 0 },
      [(src, .requestVoteResponse n.currentTerm true false)]) := by
  have hguard : Guard nodes trusted w (.vote i src) := by
    refine ⟨⟨hi, ?_⟩, fun ht => ?_⟩
    · rw [h.votedFor]
      exact hfree
    · obtain ⟨log, hb, rfl, rfl⟩ := hp.2 ht
      refine ⟨log, h.term ▸ hb, ?_⟩
      rw [h.log]
      exact (upToDate_iff h ht log).mp hnew
  have hreach : Reach nodes trusted i w (w.apply (.vote i src)) := Reach.step hguard rfl
  refine Answered.after hreach (.send { h.vote src with } ?_)
  obtain ⟨log, hlog⟩ : ∃ log, (w.apply (.vote i src)).ballot i n.currentTerm = some (src, log) := by
    have hvoted := ((hreach.inv hw).1.voted i src).mp (h.vote src).votedFor
    rwa [(h.vote src).term] at hvoted
  exact ⟨log, hlog⟩

theorem handleRequestVote_answered (hw : WorldInv nodes trusted w)
    (h : NodeOk nodes trusted w i n) (hi : i ∈ nodes)
    {src term candidateId lastLogIndex lastLogTerm : Nat} {isPreVote : Bool}
    (hp : PacketOk nodes trusted w
      ⟨src, i, .requestVoteRequest term candidateId lastLogIndex lastLogTerm isPreVote⟩) :
    Answered nodes trusted w i
      ((n.handleRequestVote term candidateId lastLogIndex lastLogTerm isPreVote).1,
        [(src, (n.handleRequestVote term candidateId lastLogIndex lastLogTerm isPreVote).2)]) := by
  unfold RaftNode.handleRequestVote
  split
  · exact .send h trivial
  rename_i hle
  cases isPreVote with
  | true =>
    simp only [Bool.not_true, Bool.false_and, Bool.and_false, Bool.true_or, Bool.true_and,
      Bool.false_eq_true, if_false]
    refine .send h ?_
    cases RaftNode.upToDate n.log lastLogIndex lastLogTerm <;> trivial
  | false =>
    obtain rfl : src = candidateId := hp.1
    simp only [Bool.not_false, Bool.true_and, Bool.and_true, Bool.false_or, decide_eq_true_iff]
    obtain ⟨m, w₁, hm, hreach, hok, hterm⟩ : ∃ m w₁,
        (if n.currentTerm < term then n.adoptTerm term else n) = m ∧
          Reach nodes trusted i w w₁ ∧ NodeOk nodes trusted w₁ i m ∧ m.currentTerm = term := by
      split
      · rename_i hlt
        exact ⟨_, _, rfl, h.reach_bump hlt, { h.bump term with votes := nofun }, rfl⟩
      · exact ⟨_, _, rfl, .refl w, h, by omega⟩
    rw [hm]
    refine Answered.after hreach ?_
    have hp₁ := hreach.packet hw hp
    subst term
    generalize hcan : (decide (m.votedFor = none ∨ m.votedFor = some src) &&
      RaftNode.upToDate m.log lastLogIndex lastLogTerm) = canVote
    cases canVote with
    | false => exact .send hok trivial
    | true =>
      rw [Bool.and_eq_true, decide_eq_true_iff] at hcan
      exact grantVote_answered hok hi hp₁ (hreach.inv hw) hcan.1 hcan.2

/-! ### Replication -/

/-- Entries of one term at one place are the same entry. -/
def Agree (log part : List LogEntry) : Prop :=
  ∀ q d e, q ++ [d] <+: log → q ++ [e] <+: part → d.term = e.term → d = e

theorem Agree.of_isPrefix {log part : List LogEntry} (h : log <+: part) : Agree log part := by
  intro q d e hd he _
  have := (List.prefix_of_prefix_length_le (hd.trans h) he (by simp)).eq_of_length (by simp)
  simpa using List.append_inj_right' this rfl

/-- One received entry: kept when the log has it, otherwise it ends the log. -/
theorem storeEntry_entries {log : RaftLog} (hs : log.snapshotIndex = 0) {pre rest : List LogEntry}
    {e : LogEntry} (hpre : pre <+: log.entries) (hindex : e.index = pre.length + 1)
    (hagree : Agree log.entries (pre ++ e :: rest)) :
    (pre ++ [e] <+: log.entries ∧ RaftNode.storeEntry log e = log) ∨
      (¬ pre ++ [e] <+: log.entries ∧ (RaftNode.storeEntry log e).entries = pre ++ [e]) := by
  obtain ⟨suffix, hsuffix⟩ := hpre
  have hterm : log.termFor e.index = log.entries[pre.length]?.map LogEntry.term := by
    simp [RaftLog.termFor, RaftLog.get, hs, hindex]
  unfold RaftNode.storeEntry
  rw [hterm, ← hsuffix]
  cases suffix with
  | nil =>
    right
    refine ⟨fun hp => ?_, by simp [RaftLog.appendEntry, ← hsuffix]⟩
    have := hp.length_le
    simp only [List.length_append, List.length_nil, List.length_singleton] at this
    omega
  | cons d suffix =>
    have hd : pre ++ [d] <+: log.entries := ⟨suffix, by simp [hsuffix]⟩
    have he : pre ++ [e] <+: pre ++ e :: rest := ⟨rest, by simp⟩
    simp only [List.getElem?_append_right (Nat.le_refl _), Nat.sub_self,
      List.getElem?_cons_zero, Option.map_some]
    by_cases hde : d.term = e.term
    · left
      obtain rfl := hagree pre d e hd he hde
      exact ⟨⟨suffix, by simp⟩, by simp⟩
    · right
      refine ⟨fun hp => hde ?_, ?_⟩
      · have := (List.prefix_of_prefix_length_le (hsuffix ▸ hp) hd (by simp)).eq_of_length (by simp)
        have hed : [e] = [d] := List.append_inj_right' this rfl
        rw [(List.cons.inj hed).1]
      · rw [if_pos hde]
        simp [RaftLog.truncateFrom, RaftLog.appendEntry, hs, hindex, ← hsuffix]

/-- Storing the received entries keeps a log that already has them and otherwise
ends it with them. -/
theorem foldl_storeEntry_entries {rest : List LogEntry} {log : RaftLog} {pre : List LogEntry}
    (hs : log.snapshotIndex = 0) (hpre : pre <+: log.entries) (hnum : Numbered (pre ++ rest))
    (hagree : Agree log.entries (pre ++ rest)) :
    (pre ++ rest <+: log.entries ∧
        (rest.foldl RaftNode.storeEntry log).entries = log.entries) ∨
      (¬ pre ++ rest <+: log.entries ∧
        (rest.foldl RaftNode.storeEntry log).entries = pre ++ rest) := by
  induction rest generalizing log pre with
  | nil => exact .inl ⟨by simpa using hpre, rfl⟩
  | cons e rest ih =>
    have hindex : e.index = pre.length + 1 := hnum pre.length e (by simp)
    have happ : pre ++ e :: rest = (pre ++ [e]) ++ rest := by simp
    rw [List.foldl_cons]
    rcases storeEntry_entries hs hpre hindex hagree with ⟨hp, hsame⟩ | ⟨hp, hends⟩
    · rw [hsame]
      rw [happ] at hnum hagree ⊢
      exact ih hs hp hnum hagree
    · right
      refine ⟨fun hall => hp (List.IsPrefix.trans ⟨rest, by simp⟩ hall), ?_⟩
      have hs' := (storeEntry_snapshot log e).1.trans hs
      rw [happ] at hnum ⊢
      have hagree' : Agree (RaftNode.storeEntry log e).entries ((pre ++ [e]) ++ rest) :=
        .of_isPrefix (hends ▸ List.prefix_append _ _)
      rcases ih hs' (hends ▸ List.prefix_refl _) hnum hagree' with ⟨hall, hres⟩ | ⟨_, hres⟩
      · rw [hres]
        rw [hends] at hall ⊢
        exact ((List.prefix_append _ _).eq_of_length_le hall.length_le)
      · exact hres

theorem Agree.of_grounded {log part : List LogEntry} (hlog : Grounded w log)
    (hpart : Grounded w part) : Agree log part := by
  intro q d e hd he hterm
  have := (hlog.of_isPrefix hd).matching (hpart.of_isPrefix he) hterm rfl
  simpa using List.append_inj_right' this rfl

/-- The consistency check finds the sender's log up to the previous entry. -/
theorem prevMatches_base (h : NodeOk nodes trusted w i n) (ht : trusted) {base : List LogEntry}
    {prevLogTerm : Nat} (hlog : Grounded w n.log.entries) (hground : Grounded w base)
    (hlast : base = [] ∨ lastTerm base = prevLogTerm)
    (hprev : RaftNode.prevMatches n.log base.length prevLogTerm = true) :
    base <+: n.log.entries := by
  rcases hlast with rfl | rfl
  · exact List.nil_prefix
  by_cases hne : base = []
  · rw [hne]
    exact List.nil_prefix
  obtain ⟨p, b, rfl⟩ := exists_last hne
  have hterm : n.log.entries[p.length]?.map LogEntry.term = some b.term := by
    rw [← termFor_eq h ht p.length]
    simpa [RaftNode.prevMatches, lastTerm_append, term] using hprev
  obtain ⟨d, hd, hdb⟩ := Option.map_eq_some_iff.mp hterm
  have htake : n.log.entries.take p.length ++ [d] <+: n.log.entries := by
    rw [← Option.toList_some, ← hd, ← List.take_add_one]
    exact List.take_prefix _ _
  have hlen : p.length ≤ n.log.entries.length :=
    Nat.le_of_lt (List.getElem?_eq_some_iff.mp hd).1
  have := (hlog.of_isPrefix htake).matching hground hdb (by simp [hlen])
  exact this ▸ htake

/-- A log that holds the received entries answers every one of them. -/
theorem termFor_of_isPrefix (h : NodeOk nodes trusted w i n) (ht : trusted)
    {base entries : List LogEntry} (hnum : Numbered (base ++ entries))
    (hp : base ++ entries <+: n.log.entries) {e : LogEntry} (he : e ∈ entries) :
    n.log.termFor e.index = some e.term := by
  obtain ⟨k, hk, hke⟩ := List.getElem_of_mem he
  have hpos : (base ++ entries)[base.length + k]? = some e := by
    rw [List.getElem?_append_right (Nat.le_add_right _ _), Nat.add_sub_cancel_left,
      List.getElem?_eq_getElem hk, hke]
  rw [hnum _ _ hpos, termFor_eq h ht]
  obtain ⟨suffix, hsuffix⟩ := hp
  rw [← hsuffix, List.getElem?_append_left (by simpa using hk), hpos]
  rfl

theorem accept_ok (hw : WorldInv nodes trusted w) (h : NodeOk nodes trusted w i n)
    {src leaderId prevLogIndex prevLogTerm leaderCommit : Nat} {entries : List LogEntry}
    (hp : PacketOk nodes trusted w ⟨src, i,
      .appendEntriesRequest n.currentTerm leaderId prevLogIndex prevLogTerm entries leaderCommit⟩)
    (hprev : RaftNode.prevMatches n.log prevLogIndex prevLogTerm = true)
    (hsuffix : trusted → (∀ e ∈ entries, n.log.termFor e.index = some e.term) →
      prevLogIndex + entries.length < n.log.lastIndex → n.log.lastTerm = n.currentTerm)
    (ht : trusted) :
    let log := entries.foldl RaftNode.storeEntry n.log
    LogGuard nodes w (.accept i log.entries log.lastIndex) ∧ Numbered log.entries ∧
      Chosen nodes w n.currentTerm log.entries leaderCommit := by
  intro log
  obtain ⟨base, rfl, hpart, hnum, hlast, hchosen⟩ := hp ht
  have hhist := (hw.2 ht).history
  have hground : Grounded w n.log.entries := h.log ▸ ((hw.2 ht).replica i).grounded
  have hgpart : Grounded w (base ++ entries) := (hhist.grounded _).of_isPrefix hpart
  have hbase : base <+: n.log.entries :=
    prevMatches_base h ht hground (hgpart.of_isPrefix (List.prefix_append _ _)) hlast hprev
  have hplain := (h.plain ht).1
  have hindex : log.lastIndex = log.entries.length := by
    rw [RaftLog.lastIndex, (foldl_storeEntry_snapshot entries n.log).1, hplain, Nat.zero_add]
  have hstore := foldl_storeEntry_entries hplain hbase hnum (.of_grounded hground hgpart)
  have hkeep : ∀ {p}, p <+: base ++ entries → p <+: log.entries := by
    rintro p hpp
    rcases hstore with ⟨hall, hres⟩ | ⟨_, hres⟩
    · exact (hpp.trans hall).trans (hres ▸ List.prefix_refl _)
    · exact hpp.trans (hres ▸ List.prefix_refl _)
  -- the whole resulting log is part of the leader's
  have hwhole : log.entries <+: w.termLog n.currentTerm := by
    rcases hstore with ⟨hall, hres⟩ | ⟨_, hres⟩
    · rw [show log.entries = n.log.entries from hres]
      by_cases hlen : n.log.entries.length ≤ base.length + entries.length
      · rw [← hall.eq_of_length_le (by simpa using hlen)]
        exact hpart
      · have hends := hsuffix ht (fun e he => termFor_of_isPrefix h ht hnum hall he)
          (by rw [lastIndex_eq h ht]; omega)
        rw [← hends, lastTerm_eq h ht]
        exact hground.lastTerm (List.ne_nil_of_length_pos (by omega))
    · rw [show log.entries = base ++ entries from hres]
      exact hpart
  refine ⟨?_, ?_, ?_⟩
  · refine ⟨⟨base ++ entries, ?_, ?_⟩, ?_, ?_⟩
    · rw [h.term]
      exact hpart
    · rw [h.log]
      exact hstore
    · rw [h.term, hindex]
      exact hwhole.length_le
    · rw [h.term, hindex, take_eq_of_isPrefix hwhole (Nat.le_refl _), List.take_length]
  · rcases hstore with ⟨_, hres⟩ | ⟨_, hres⟩
    · exact (show log.entries = n.log.entries from hres) ▸ h.numbered ht
    · exact (show log.entries = base ++ entries from hres) ▸ hnum
  · rcases hchosen with h0 | ⟨t, m, htu, hcm, hcomm, hpp⟩
    · exact .inl h0
    · exact .inr ⟨t, m, htu, hcm, hcomm, hkeep hpp⟩

theorem followLeader_ok (h : NodeOk nodes trusted w i n) {term : Nat}
    (hle : n.currentTerm ≤ term) (leaderId : Nat) :
    ∃ w₁, Reach nodes trusted i w w₁ ∧
      NodeOk nodes trusted w₁ i (n.followLeader term leaderId) ∧
      (n.followLeader term leaderId).currentTerm = term := by
  unfold RaftNode.followLeader
  rcases Nat.eq_or_lt_of_le hle with rfl | hlt
  · refine ⟨_, NodeOk.reach_retire, ?_, by simp⟩
    have hr := h.retire (s := .follower) rfl
    simp only [Nat.lt_irrefl, if_false]
    exact { hr with }
  · refine ⟨_, h.reach_bump hlt, ?_, by simp [hlt]⟩
    have hb := h.bump term
    simp only [if_pos hlt]
    exact { hb with votes := nofun }

theorem handleAppendEntries_answered (hw : WorldInv nodes trusted w)
    (h : NodeOk nodes trusted w i n)
    {src term leaderId prevLogIndex prevLogTerm leaderCommit : Nat} {entries : List LogEntry}
    (hp : PacketOk nodes trusted w ⟨src, i,
      .appendEntriesRequest term leaderId prevLogIndex prevLogTerm entries leaderCommit⟩)
    (hsuffix : trusted → n.currentTerm ≤ term →
      RaftNode.prevMatches n.log prevLogIndex prevLogTerm = true →
      (∀ e ∈ entries, n.log.termFor e.index = some e.term) →
      prevLogIndex + entries.length < n.log.lastIndex → n.log.lastTerm = term) :
    Answered nodes trusted w i
      ((n.handleAppendEntries term leaderId prevLogIndex prevLogTerm entries leaderCommit).1,
        [(src, (n.handleAppendEntries term leaderId prevLogIndex prevLogTerm entries
          leaderCommit).2)]) := by
  unfold RaftNode.handleAppendEntries
  split
  · exact .send h trivial
  rename_i hle
  have hle : n.currentTerm ≤ term := Nat.le_of_not_lt hle
  obtain ⟨w₁, hreach, hf, hterm⟩ := followLeader_ok h hle leaderId
  refine Answered.after hreach ?_
  have hw₁ := hreach.inv hw
  have hp₁ := hreach.packet hw hp
  have hlogSame : (n.followLeader term leaderId).log = n.log := rfl
  have hfollower : (n.followLeader term leaderId).state = .follower := rfl
  rw [← hlogSame] at hsuffix
  generalize n.followLeader term leaderId = f at *
  subst term
  simp only
  split
  · rename_i hprev
    have hok := accept_ok hw₁ hf hp₁ hprev fun ht => hsuffix ht hle hprev
    generalize hlog : entries.foldl RaftNode.storeEntry f.log = log at *
    have hplain : trusted → log.snapshotIndex = 0 ∧ log.snapshotTerm = 0 := by
      intro ht
      rw [← hlog, (foldl_storeEntry_snapshot _ _).1, (foldl_storeEntry_snapshot _ _).2]
      exact hf.plain ht
    have hstored := hf.accept hfollower log log.lastIndex hplain fun ht => (hok ht).2.1
    have hguard : Guard nodes trusted w₁ (.accept i log.entries log.lastIndex) := by
      refine ⟨?_, fun ht => (hok ht).1⟩
      show (w₁.replica i).role = .passive
      rw [hf.role, hfollower]
      rfl
    have hreach₂ : Reach nodes trusted i w₁ _ := Reach.step hguard rfl
    refine Answered.after hreach₂ ?_
    have hacked : PacketOk nodes trusted (w₁.apply (.accept i log.entries log.lastIndex))
        ⟨i, src, .appendEntriesResponse f.currentTerm true log.lastIndex⟩ := by
      intro _
      simp [World.apply, hf.term]
    split
    · rename_i hcommit
      have hadvance := hstored.advance (min leaderCommit log.lastIndex)
      have hchosen : trusted → Chosen nodes (w₁.apply (.accept i log.entries log.lastIndex))
          f.currentTerm log.entries (min leaderCommit log.lastIndex) := fun ht =>
        ((hok ht).2.2.mono (Nat.min_le_left _ _)).grow ((hw₁.2 ht).grows hguard.1 (hguard.2 ht))
          (Nat.le_refl _) fun _ _ _ _ _ hp => hp
      have hguard₃ : Guard nodes trusted (w₁.apply (.accept i log.entries log.lastIndex))
          (.advance i (min leaderCommit log.lastIndex)) := by
        refine ⟨trivial, fun ht => ?_⟩
        show Chosen _ _ _ _ _
        rw [hstored.term, hstored.log]
        exact hchosen ht
      have hreach₃ : Reach nodes trusted i _ _ := Reach.step hguard₃ rfl
      exact Answered.after hreach₃ (.send hadvance (hreach₃.packet (hreach₂.inv hw₁) hacked))
    · exact .send { hstored with } hacked
  · exact .send hf trivial

/-- The nodes a leader counts for index `k`. -/
theorem replicaCount_quorum (hw : WorldInv nodes trusted w) (h : NodeOk nodes trusted w i n)
    (hi : i ∈ nodes) (ht : trusted) (hs : n.state = .leader) {k : Nat}
    (hk : k ≤ n.log.entries.length) (hmaj : n.majority ≤ n.replicaCount k) :
    ∃ Q, IsQuorum nodes Q ∧ ∀ v ∈ Q, k ≤ w.acked v n.currentTerm := by
  have hself : i ∉ n.peers := fun hmem => ((h.peers i).mp hmem).2 rfl
  refine ⟨insert i (n.peers.filter fun p => decide (k ≤ (n.matchIndex p).getD 0)).toFinset,
    ⟨fun v hv => ?_, ?_⟩, fun v hv => ?_⟩
  · rcases Finset.mem_insert.mp hv with rfl | hv
    · exact hi
    · exact ((h.peers v).mp (List.mem_of_mem_filter (List.mem_toFinset.mp hv))).1
  · rw [Finset.card_insert_of_notMem fun hmem =>
        hself (List.mem_of_mem_filter (List.mem_toFinset.mp hmem)),
      List.toFinset_card_of_nodup (h.nodup.filter _), ← h.config]
    unfold RaftNode.majority RaftNode.replicaCount at hmaj
    omega
  · rcases Finset.mem_insert.mp hv with rfl | hv
    · have hown := ((hw.2 ht).replica v).holding (by rw [h.role, hs]; rfl)
      rw [h.log, h.term] at hown
      exact hk.trans hown
    · obtain ⟨hp, hle⟩ := List.mem_filter.mp (List.mem_toFinset.mp hv)
      exact (of_decide_eq_true hle).trans (h.books ht hs v hp).1

/-- An entry of the leader's own term that a majority holds is chosen. -/
theorem chosen_of_count (hw : WorldInv nodes trusted w) (h : NodeOk nodes trusted w i n)
    (hi : i ∈ nodes) (ht : trusted) (hs : n.state = .leader) {k : Nat}
    (hterm : n.log.termFor k = some n.currentTerm) (hmaj : n.majority ≤ n.replicaCount k) :
    Chosen nodes w n.currentTerm n.log.entries k := by
  have hlog := termLog_eq hw h ht hs
  cases k with
  | zero => exact .inl rfl
  | succ j =>
    rw [termFor_eq h ht] at hterm
    obtain ⟨e, he, het⟩ := Option.map_eq_some_iff.mp hterm
    have hj := (List.getElem?_eq_some_iff.mp he).1
    refine .inr ⟨n.currentTerm, j + 1, Nat.le_refl _, Nat.le_refl _, ⟨?_, ⟨e, ?_, het⟩, ?_⟩, ?_⟩
    · rw [hlog]
      omega
    · rw [hlog, List.take_add_one, he]
      simp
    · exact replicaCount_quorum hw h hi ht hs hj hmaj
    · rw [hlog]
      exact List.take_prefix _ _

theorem tryCommit_answered (hw : WorldInv nodes trusted w) (h : NodeOk nodes trusted w i n)
    (hi : i ∈ nodes) (hs : n.state = .leader) :
    Answered nodes trusted w i (n.tryCommit, []) := by
  unfold RaftNode.tryCommit
  simp only
  split
  · exact .quiet h
  · rename_i k hfind
    obtain ⟨hterm, hmaj⟩ : n.log.termFor k = some n.currentTerm ∧ n.majority ≤ n.replicaCount k := by
      simpa only [decide_eq_true_iff] using List.find?_some hfind
    have hguard : Guard nodes trusted w (.advance i k) := by
      refine ⟨trivial, fun ht => ?_⟩
      show Chosen nodes w _ _ k
      rw [h.term, h.log]
      exact chosen_of_count hw h hi ht hs hterm hmaj
    exact Answered.after (Reach.step hguard rfl) (.quiet (h.advance k))

theorem handleAppendEntriesResponse_answered (hw : WorldInv nodes trusted w)
    (h : NodeOk nodes trusted w i n) (hi : i ∈ nodes) {src term matchIndex : Nat} {success : Bool}
    (hp : PacketOk nodes trusted w ⟨src, i, .appendEntriesResponse term success matchIndex⟩)
    (hstale : trusted → success = true → ¬ (term < n.currentTerm ∧ n.state = .leader)) :
    Answered nodes trusted w i (n.handleAppendEntriesResponse src term success matchIndex, []) := by
  unfold RaftNode.handleAppendEntriesResponse
  split
  · rename_i hlt
    exact stepDown_answered h hlt
  split
  · exact .quiet h
  rename_i hle hleader
  have hs : n.state = .leader := Decidable.not_not.mp hleader
  split
  · rename_i hsuccess
    obtain rfl := hsuccess
    refine tryCommit_answered hw { h with books := fun ht _ p hpeer => ?_ } hi hs
    obtain ⟨hmatch, hnext⟩ := h.books ht hs p hpeer
    by_cases hsrc : p = src
    · subst p
      have hterm : term = n.currentTerm := by
        have : ¬ term < n.currentTerm := fun hlt => hstale ht rfl ⟨hlt, hs⟩
        omega
      subst term
      have hack : matchIndex ≤ w.acked src n.currentTerm := hp ht
      have hle := (hw.2 ht).history.ackLe src n.currentTerm
      rw [termLog_eq hw h ht hs] at hle
      simp only [Function.update_self, Option.getD_some]
      exact ⟨hack, by omega, by omega⟩
    · simp only [Function.update_of_ne hsrc]
      exact ⟨hmatch, hnext⟩
  · simp only
    split
    · rename_i hmin
      refine .quiet { h with books := fun ht _ p hpeer => ?_ }
      obtain ⟨hmatch, hnext⟩ := h.books ht hs p hpeer
      by_cases hsrc : p = src
      · subst p
        simp only [Function.update_self, Option.getD_some]
        exact ⟨hmatch, by omega, by omega⟩
      · simp only [Function.update_of_ne hsrc]
        exact ⟨hmatch, hnext⟩
    · exact .quiet h

theorem handleInstallSnapshot_answered (h : NodeOk nodes trusted w i n) (ht : ¬ trusted)
    (src term leaderId : Nat) (snapshot : Snapshot) :
    Answered nodes trusted w i ((n.handleInstallSnapshot term leaderId snapshot).1,
      [(src, (n.handleInstallSnapshot term leaderId snapshot).2)]) := by
  unfold RaftNode.handleInstallSnapshot
  split
  · exact .send h trivial
  rename_i hle
  obtain ⟨w₁, hreach, hf, _⟩ := followLeader_ok h (Nat.le_of_not_lt hle) leaderId
  have hfollower : (n.followLeader term leaderId).state = .follower := rfl
  refine Answered.after hreach ?_
  generalize n.followLeader term leaderId = f at *
  simp only
  generalize (if f.log.lastIndex < snapshot.lastIncludedIndex then _ else f.log) = log
  have hguard : Guard nodes trusted w₁ (.accept i log.entries 0) := by
    refine ⟨?_, fun h => absurd h ht⟩
    show (w₁.replica i).role = .passive
    rw [hf.role, hfollower]
    rfl
  have hstored := hf.accept hfollower log 0 (fun h => absurd h ht) fun h => absurd h ht
  exact Answered.after (Reach.step hguard rfl) (.send { hstored with } trivial)

/-! ### Events -/

theorem heartbeat_answered (hw : WorldInv nodes trusted w) (h : NodeOk nodes trusted w i n)
    (hs : n.state = .leader) : Answered nodes trusted w i n.heartbeat := by
  have hlog := replicateLog_ok hw h hs
  unfold RaftNode.heartbeat
  simp only
  split
  · exact ⟨w, .refl w, h, hlog⟩
  split
  · refine ⟨w, .refl w, { h with }, fun m hm => ?_⟩
    rcases List.mem_append.mp hm with hm | hm
    · exact hlog m hm
    · obtain rfl := List.mem_singleton.mp hm
      trivial
  · exact ⟨w, .refl w, h, hlog⟩

theorem tick_answered (hw : WorldInv nodes trusted w) (h : NodeOk nodes trusted w i n)
    (hi : i ∈ nodes) : Answered nodes trusted w i n.tick := by
  have ht : NodeOk nodes trusted w i { n with ticksSinceReset := n.ticksSinceReset + 1 } :=
    { h with }
  unfold RaftNode.tick
  simp only
  split
  · split
    · have hr := h.retire (s := .follower) rfl
      exact Answered.after NodeOk.reach_retire (.quiet { hr with })
    · exact .quiet ht
  · split
    · exact startPreVote_answered hw ht hi
    · exact .quiet ht
  · split
    · exact startPreVote_answered hw ht hi
    · exact .quiet ht
  · rename_i hs
    split
    · exact heartbeat_answered hw { h with } hs
    · exact .quiet ht

theorem propose_answered (hw : WorldInv nodes trusted w) (h : NodeOk nodes trusted w i n)
    (hi : i ∈ nodes) (command : List UInt8) :
    Answered nodes trusted w i ((n.propose command).1, []) := by
  unfold RaftNode.propose
  split
  · exact .quiet h
  rename_i hleader
  have hs : n.state = .leader := Decidable.not_not.mp hleader
  have hrole : (w.replica i).role = .leader := by rw [h.role, hs]; rfl
  simp only [RaftLog.append]
  generalize hentry : LogEntry.mk (n.log.snapshotIndex + n.log.entries.length + 1) n.currentTerm
    command = e
  have hterm : e.term = n.currentTerm := by rw [← hentry]
  have hguard : Guard nodes trusted w (.append i e) := by
    refine ⟨hrole, fun _ => ?_⟩
    show e.term = (w.replica i).term
    rw [h.term, hterm]
  have hreach : Reach nodes trusted i w (w.apply (.append i e)) := Reach.step hguard rfl
  refine Answered.after hreach (tryCommit_answered (hreach.inv hw) ?_ hi hs)
  refine ⟨h.id, h.nodup, h.peers, h.config, ?_, ?_, ?_, ?_, ?_, fun hc => ?_, h.plain,
    fun ht => ?_, fun ht _ p hp => ?_⟩
  · simpa [World.apply, World.setReplica] using h.term
  · simpa [World.apply, World.setReplica] using h.votedFor
  · simpa [World.apply, World.setReplica] using h.role
  · simp [World.apply, World.setReplica, h.log]
  · simpa [World.apply, World.setReplica] using h.commit
  · exact absurd (hs.symm.trans hc) (by decide)
  · intro k d hk
    rcases Nat.lt_or_ge k n.log.entries.length with hlt | hge
    · rw [List.getElem?_append_left hlt] at hk
      exact h.numbered ht k d hk
    · rw [List.getElem?_append_right hge, List.getElem?_singleton] at hk
      split at hk
      · obtain rfl := Option.some.inj hk
        rw [← hentry]
        simp only [(h.plain ht).1]
        omega
      · exact absurd hk (by simp)
  · obtain ⟨hmatch, hnext, hlast⟩ := h.books ht hs p hp
    have hne : p ≠ n.id := by
      rw [h.id]
      exact ((h.peers p).mp hp).2
    simp only [Function.update_of_ne hne, List.length_append, List.length_singleton]
    exact ⟨hmatch.trans (((hw.2 ht).grows hguard.1 (hguard.2 ht)).acked _ _), hnext, by omega⟩

/-- A hand-over that does not end in stepping down changes no part of the protocol. -/
theorem transferLeadership_answered (h : NodeOk nodes trusted w i n) (ht : ¬ trusted)
    (target : NodeId) (hdown : ¬ (n.state = .leader ∧ target ∈ n.config.nodes ∧
      n.log.lastIndex ≤ (n.matchIndex target).getD 0)) :
    Answered nodes trusted w i ((n.transferLeadership target).1, []) := by
  unfold RaftNode.transferLeadership
  split
  · exact .quiet h
  split
  · exact .quiet h
  split
  · exact .quiet { h with books := fun h => absurd h ht }
  · rename_i hleader hmem hbehind
    refine absurd ⟨Decidable.not_not.mp hleader, Decidable.not_not.mp hmem, ?_⟩ hdown
    omega

end Suture.Raft
