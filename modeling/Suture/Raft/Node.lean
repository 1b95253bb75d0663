import Mathlib.Data.Finset.Card
import Mathlib.Data.List.Basic
import Mathlib.Logic.Function.Basic

/-!
# One Raft node

`RaftLog` keeps the entries after the last snapshot; an absolute index `i` lives
at offset `i - snapshotIndex - 1`. Indices and terms are natural numbers: the
source's `u64` counters are not modelled as wrapping.

`RaftNode` with every message handler. A handler returns the new state and the
messages to send, each with its destination. The `HashMap`s `next_index` and
`match_index` are finite maps given as functions to `Option`, the vote sets are
finite sets, durations are whole milliseconds.
-/

namespace Suture.Raft
set_option autoImplicit false

structure LogEntry where
  index : Nat
  term : Nat
  command : List UInt8
deriving DecidableEq, Repr

structure Snapshot where
  data : List UInt8
  lastIncludedIndex : Nat
  lastIncludedTerm : Nat
  createdAt : Nat
deriving DecidableEq, Repr

structure RaftLog where
  entries : List LogEntry
  snapshotIndex : Nat
  snapshotTerm : Nat
deriving DecidableEq, Repr

namespace RaftLog

def new : RaftLog := ⟨[], 0, 0⟩

/-- Appends a fresh entry and returns the index it was given. -/
def append (log : RaftLog) (term : Nat) (command : List UInt8) : RaftLog × Nat :=
  let index := log.snapshotIndex + log.entries.length + 1
  ({ log with entries := log.entries ++ [⟨index, term, command⟩] }, index)

def appendEntry (log : RaftLog) (entry : LogEntry) : RaftLog :=
  { log with entries := log.entries ++ [entry] }

def get (log : RaftLog) (index : Nat) : Option LogEntry :=
  if index = 0 ∨ index ≤ log.snapshotIndex then none
  else log.entries[index - log.snapshotIndex - 1]?

def lastIndex (log : RaftLog) : Nat := log.snapshotIndex + log.entries.length

def lastTerm (log : RaftLog) : Nat :=
  match log.entries.getLast? with
  | none => log.snapshotTerm
  | some e => e.term

def termFor (log : RaftLog) (index : Nat) : Option Nat :=
  if index = log.snapshotIndex ∧ 0 < log.snapshotIndex then some log.snapshotTerm
  else (log.get index).map LogEntry.term

/-- For `index ≤ snapshotIndex` the source's unsigned subtraction wraps to an
offset past the end, which yields the empty slice. -/
def entriesFrom (log : RaftLog) (index : Nat) : List LogEntry :=
  if index = 0 ∨ log.entries = [] then []
  else if index ≤ log.snapshotIndex then []
  else log.entries.drop (index - log.snapshotIndex - 1)

def truncateFrom (log : RaftLog) (index : Nat) : RaftLog :=
  if index = 0 ∨ index ≤ log.snapshotIndex then log
  else { log with entries := log.entries.take (index - log.snapshotIndex - 1) }

def compact (log : RaftLog) (lastIndex : Nat) : RaftLog :=
  if lastIndex ≤ log.snapshotIndex then log
  else match log.entries.getLast? with
    | none => log
    | some lastEntry =>
      if log.lastIndex ≤ lastIndex then
        { entries := [], snapshotIndex := lastEntry.index, snapshotTerm := lastEntry.term }
      else
        let keepLocal := lastIndex - log.snapshotIndex
        { entries := log.entries.drop keepLocal
          snapshotIndex := lastIndex
          snapshotTerm := (log.entries[keepLocal - 1]?.map LogEntry.term).getD 0 }

def setSnapshot (log : RaftLog) (index term : Nat) : RaftLog :=
  if log.snapshotIndex < index then
    { entries := [], snapshotIndex := index, snapshotTerm := term }
  else log

@[simp] theorem append_fst_entries (log : RaftLog) (t : Nat) (c : List UInt8) :
    (log.append t c).1.entries =
      log.entries ++ [⟨log.snapshotIndex + log.entries.length + 1, t, c⟩] := rfl

@[simp] theorem append_fst_snapshotIndex (log : RaftLog) (t : Nat) (c : List UInt8) :
    (log.append t c).1.snapshotIndex = log.snapshotIndex := rfl

@[simp] theorem append_snd (log : RaftLog) (t : Nat) (c : List UInt8) :
    (log.append t c).2 = log.snapshotIndex + log.entries.length + 1 := rfl

@[simp] theorem appendEntry_entries (log : RaftLog) (e : LogEntry) :
    (log.appendEntry e).entries = log.entries ++ [e] := rfl

@[simp] theorem appendEntry_snapshotIndex (log : RaftLog) (e : LogEntry) :
    (log.appendEntry e).snapshotIndex = log.snapshotIndex := rfl

@[simp] theorem truncateFrom_snapshotIndex (log : RaftLog) (i : Nat) :
    (log.truncateFrom i).snapshotIndex = log.snapshotIndex := by
  unfold truncateFrom
  split <;> rfl

end RaftLog

/-! ### The node -/

abbrev NodeId := Nat

inductive NodeState where
  | follower
  | preCandidate
  | candidate
  | leader
deriving DecidableEq, Repr

inductive RaftMessage where
  | appendEntriesRequest (term leaderId prevLogIndex prevLogTerm : Nat)
      (entries : List LogEntry) (leaderCommit : Nat)
  | appendEntriesResponse (term : Nat) (success : Bool) (matchIndex : Nat)
  | requestVoteRequest (term candidateId lastLogIndex lastLogTerm : Nat) (isPreVote : Bool)
  | requestVoteResponse (term : Nat) (voteGranted isPreVote : Bool)
  | installSnapshotRequest (term leaderId : Nat) (snapshot : Snapshot)
  | installSnapshotResponse (term : Nat)
  | readIndexRequest (term index : Nat)
  | readIndexResponse (term : Nat)
  | timeoutNow (term : Nat)
  | configChangeRequest (term leaderId : Nat) (newNodes : List NodeId)
deriving DecidableEq, Repr

inductive RaftError where
  | notLeader
  | log (message : String)
  | nodeNotFound (node : NodeId)
  | invalidIndex (index : Nat)
  | membershipChangeInProgress
  | noTransition
deriving DecidableEq, Repr

structure PreVote where
  term : Nat
  lastLogTerm : Nat
  lastLogIndex : Nat
  votesReceived : Finset NodeId

structure ClusterConfig where
  nodes : Finset NodeId
  transition : Option (Finset NodeId)

structure RaftNode where
  id : NodeId
  state : NodeState
  currentTerm : Nat
  votedFor : Option NodeId
  log : RaftLog
  commitIndex : Nat
  lastApplied : Nat
  nextIndex : NodeId → Option Nat
  matchIndex : NodeId → Option Nat
  leaderId : Option NodeId
  peers : List NodeId
  electionTimeout : Nat
  heartbeatInterval : Nat
  ticksSinceReset : Nat
  votesReceived : Finset NodeId
  preVote : Option PreVote
  snapshot : Option Snapshot
  config : ClusterConfig
  pendingTransfer : Option NodeId

/-- A message with its destination. -/
abbrev Outgoing := NodeId × RaftMessage

namespace RaftNode

/-- `initialOffset` is the random start of the election timer, below the default timeout. -/
def new (id : NodeId) (peers : List NodeId) (initialOffset : Fin 10) : RaftNode where
  id := id
  state := .follower
  currentTerm := 0
  votedFor := none
  log := .new
  commitIndex := 0
  lastApplied := 0
  nextIndex := fun _ => none
  matchIndex := fun _ => none
  leaderId := none
  peers := peers
  electionTimeout := 10
  heartbeatInterval := 3
  ticksSinceReset := initialOffset
  votesReceived := ∅
  preVote := none
  snapshot := none
  config := ⟨insert id peers.toFinset, none⟩
  pendingTransfer := none

def noOffset : Fin 10 := ⟨0, Nat.zero_lt_succ 9⟩

def withTimeouts (id : NodeId) (peers : List NodeId) (electionTimeout heartbeatInterval : Nat)
    (initialOffset : Fin 10) : RaftNode :=
  { new id peers initialOffset with electionTimeout, heartbeatInterval }

def majority (n : RaftNode) : Nat := n.config.nodes.card / 2 + 1

def stepDown (n : RaftNode) (term : Nat) : RaftNode :=
  { n with
    currentTerm := if n.currentTerm < term then term else n.currentTerm
    state := .follower
    votedFor := none
    leaderId := none
    preVote := none
    votesReceived := ∅
    pendingTransfer := none }

/-- How many nodes hold index `i`, by the leader's books; it counts itself. -/
def replicaCount (n : RaftNode) (i : Nat) : Nat :=
  1 + (n.peers.filter fun peer => decide (i ≤ (n.matchIndex peer).getD 0)).length

/-- The loop runs from the last index down to the one after the commit index and
stops at the first current-term entry that a majority holds. -/
def tryCommit (n : RaftNode) : RaftNode :=
  let indices := (List.range' (n.commitIndex + 1) (n.log.lastIndex - n.commitIndex)).reverse
  match indices.find? fun i =>
      decide (n.log.termFor i = some n.currentTerm ∧ n.majority ≤ n.replicaCount i) with
  | none => n
  | some i => { n with commitIndex := i }

def becomeLeader (n : RaftNode) : RaftNode :=
  { n with
    state := .leader
    leaderId := some n.id
    nextIndex := fun p => if p ∈ n.peers then some (n.log.lastIndex + 1) else n.nextIndex p
    matchIndex := fun p => if p ∈ n.peers then some 0 else n.matchIndex p
    ticksSinceReset := n.heartbeatInterval - 1 }

/-- What the leader sends to one peer: a snapshot once the peer's next entry is
compacted away, otherwise the whole suffix from `next_index`. -/
def replicationMessage (n : RaftNode) (peer : NodeId) : RaftMessage :=
  let nextIdx := (n.nextIndex peer).getD 1
  let prevLogIndex := nextIdx - 1
  if 0 < prevLogIndex ∧ prevLogIndex ≤ n.log.snapshotIndex then
    .installSnapshotRequest n.currentTerm n.id
      (n.snapshot.getD ⟨[], n.log.snapshotIndex, n.log.snapshotTerm, 0⟩)
  else
    .appendEntriesRequest n.currentTerm n.id prevLogIndex
      ((n.log.termFor prevLogIndex).getD 0) (n.log.entriesFrom nextIdx) n.commitIndex

def replicateLog (n : RaftNode) : List Outgoing :=
  n.peers.map fun peer => (peer, n.replicationMessage peer)

def voteRequests (n : RaftNode) (isPreVote : Bool) : List Outgoing :=
  n.peers.map fun peer =>
    (peer, .requestVoteRequest n.currentTerm n.id n.log.lastIndex n.log.lastTerm isPreVote)

/-- The state `start_election` has set up before it looks at the majority. -/
def newCandidate (n : RaftNode) : RaftNode :=
  { n with
    currentTerm := n.currentTerm + 1
    state := .candidate
    votedFor := some n.id
    votesReceived := {n.id}
    ticksSinceReset := 0
    leaderId := none
    preVote := none }

def startElection (n : RaftNode) : RaftNode × List Outgoing :=
  let c := n.newCandidate
  if c.majority ≤ c.votesReceived.card then
    (c.becomeLeader, c.becomeLeader.replicateLog)
  else (c, c.voteRequests false)

def startPreVote (n : RaftNode) : RaftNode × List Outgoing :=
  let pv : PreVote := ⟨n.currentTerm, n.log.lastTerm, n.log.lastIndex, {n.id}⟩
  let c := { n with state := .preCandidate, preVote := some pv, ticksSinceReset := 0 }
  if c.majority ≤ pv.votesReceived.card then
    startElection { c with preVote := none }
  else (c, c.voteRequests true)

def handlePreVoteResponse (n : RaftNode) (src term : Nat) (granted : Bool) :
    RaftNode × List Outgoing :=
  match n.preVote with
  | none => (n, [])
  | some pv =>
    if n.currentTerm < term then
      (stepDown { n with preVote := none, state := .follower } term, [])
    else if n.state ≠ .preCandidate then
      ({ n with preVote := none }, [])
    else if granted then
      let votes := insert src pv.votesReceived
      if n.majority ≤ votes.card then
        startElection { n with preVote := none }
      else ({ n with preVote := some { pv with votesReceived := votes } }, [])
    else (n, [])

/-- The follower side common to `handle_append_entries` and `handle_install_snapshot`. -/
def followLeader (n : RaftNode) (term leaderId : Nat) : RaftNode :=
  { n with
    currentTerm := if n.currentTerm < term then term else n.currentTerm
    votedFor := if n.currentTerm < term then none else n.votedFor
    state := .follower
    leaderId := some leaderId
    ticksSinceReset := 0
    preVote := none }

/-- One turn of the loop over the received entries. -/
def storeEntry (log : RaftLog) (entry : LogEntry) : RaftLog :=
  match log.termFor entry.index with
  | some t => if t ≠ entry.term then (log.truncateFrom entry.index).appendEntry entry else log
  | none => log.appendEntry entry

def prevMatches (log : RaftLog) (prevLogIndex prevLogTerm : Nat) : Bool :=
  prevLogIndex = 0 || decide (log.termFor prevLogIndex = some prevLogTerm)

def handleAppendEntries (n : RaftNode) (term leaderId prevLogIndex prevLogTerm : Nat)
    (entries : List LogEntry) (leaderCommit : Nat) : RaftNode × RaftMessage :=
  if term < n.currentTerm then
    (n, .appendEntriesResponse n.currentTerm false 0)
  else
    let f := n.followLeader term leaderId
    if prevMatches f.log prevLogIndex prevLogTerm then
      let log := entries.foldl storeEntry f.log
      let commitIndex :=
        if f.commitIndex < leaderCommit then min leaderCommit log.lastIndex else f.commitIndex
      ({ f with log, commitIndex }, .appendEntriesResponse f.currentTerm true log.lastIndex)
    else (f, .appendEntriesResponse f.currentTerm false f.log.lastIndex)

def handleAppendEntriesResponse (n : RaftNode) (src term : Nat) (success : Bool)
    (matchIndex : Nat) : RaftNode :=
  if n.currentTerm < term then n.stepDown term
  else if n.state ≠ .leader then n
  else if success then
    tryCommit { n with
      nextIndex := Function.update n.nextIndex src (some (matchIndex + 1))
      matchIndex := Function.update n.matchIndex src (some matchIndex) }
  else
    let current := (n.nextIndex src).getD 1
    let minNext := max (n.log.snapshotIndex + 1) 1
    if minNext < current then
      { n with nextIndex := Function.update n.nextIndex src (some (current - 1)) }
    else n

/-- The election restriction: the candidate's last entry is not behind ours. -/
def upToDate (log : RaftLog) (lastLogIndex lastLogTerm : Nat) : Bool :=
  decide (log.lastTerm < lastLogTerm ∨
    (lastLogTerm = log.lastTerm ∧ log.lastIndex ≤ lastLogIndex))

/-- A real vote request from a later term first moves the node to that term. -/
def adoptTerm (n : RaftNode) (term : Nat) : RaftNode :=
  { n with
    currentTerm := term
    votedFor := none
    state := .follower
    leaderId := none
    preVote := none }

def handleRequestVote (n : RaftNode) (term candidateId lastLogIndex lastLogTerm : Nat)
    (isPreVote : Bool) : RaftNode × RaftMessage :=
  if term < n.currentTerm then
    (n, .requestVoteResponse n.currentTerm false isPreVote)
  else
    let m := if !isPreVote && decide (n.currentTerm < term) then n.adoptTerm term else n
    let free := isPreVote || decide (m.votedFor = none ∨ m.votedFor = some candidateId)
    let canVote := free && upToDate m.log lastLogIndex lastLogTerm
    let m' := if canVote && !isPreVote then
      { m with votedFor := some candidateId, ticksSinceReset := 0 } else m
    (m', .requestVoteResponse m'.currentTerm canVote isPreVote)

def handleRequestVoteResponse (n : RaftNode) (src term : Nat) (voteGranted : Bool) : RaftNode :=
  if n.currentTerm < term then n.stepDown term
  else if n.state ≠ .candidate then n
  else if voteGranted then
    let c := { n with votesReceived := insert src n.votesReceived }
    if c.majority ≤ c.votesReceived.card then c.becomeLeader else c
  else n

def handleInstallSnapshot (n : RaftNode) (term leaderId : Nat) (snapshot : Snapshot) :
    RaftNode × RaftMessage :=
  if term < n.currentTerm then
    (n, .installSnapshotResponse n.currentTerm)
  else
    let f := n.followLeader term leaderId
    let log :=
      if f.log.lastIndex < snapshot.lastIncludedIndex then
        let compacted := f.log.compact snapshot.lastIncludedIndex
        if compacted.snapshotIndex < snapshot.lastIncludedIndex then
          compacted.compact snapshot.lastIncludedIndex
        else compacted
      else f.log
    ({ f with log, snapshot := some snapshot }, .installSnapshotResponse f.currentTerm)

def handleMessage (n : RaftNode) (src : NodeId) : RaftMessage → RaftNode × List Outgoing
  | .appendEntriesRequest term leaderId prevLogIndex prevLogTerm entries leaderCommit =>
    let (n', resp) :=
      n.handleAppendEntries term leaderId prevLogIndex prevLogTerm entries leaderCommit
    (n', [(src, resp)])
  | .appendEntriesResponse term success matchIndex =>
    (n.handleAppendEntriesResponse src term success matchIndex, [])
  | .requestVoteRequest term candidateId lastLogIndex lastLogTerm isPreVote =>
    let (n', resp) := n.handleRequestVote term candidateId lastLogIndex lastLogTerm isPreVote
    (n', [(src, resp)])
  | .requestVoteResponse term voteGranted isPreVote =>
    if isPreVote then n.handlePreVoteResponse src term voteGranted
    else (n.handleRequestVoteResponse src term voteGranted, [])
  | .installSnapshotRequest term leaderId snapshot =>
    let (n', resp) := n.handleInstallSnapshot term leaderId snapshot
    (n', [(src, resp)])
  | .installSnapshotResponse term =>
    (if n.currentTerm < term then n.stepDown term else n, [])
  | .readIndexRequest _ _ => (n, [(src, .readIndexResponse n.currentTerm)])
  | .readIndexResponse term => (if n.currentTerm < term then n.stepDown term else n, [])
  | .timeoutNow term => if n.currentTerm ≤ term then n.startElection else (n, [])
  | .configChangeRequest term leaderId _ =>
    if n.currentTerm ≤ term then
      ({ n with
        currentTerm := term
        votedFor := none
        state := .follower
        leaderId := some leaderId
        ticksSinceReset := 0 }, [])
    else (n, [])

/-- The leader's heartbeat, with the `TimeoutNow` of a pending transfer whose
target has caught up. -/
def heartbeat (n : RaftNode) : RaftNode × List Outgoing :=
  let messages := n.replicateLog
  match n.pendingTransfer with
  | none => (n, messages)
  | some target =>
    if n.log.lastIndex ≤ (n.matchIndex target).getD 0 then
      ({ n with pendingTransfer := none }, messages ++ [(target, .timeoutNow n.currentTerm)])
    else (n, messages)

def tick (n : RaftNode) : RaftNode × List Outgoing :=
  let n := { n with ticksSinceReset := n.ticksSinceReset + 1 }
  match n.state with
  | .preCandidate =>
    if n.electionTimeout ≤ n.ticksSinceReset then
      ({ n with preVote := none, state := .follower }, [])
    else (n, [])
  | .follower | .candidate =>
    if n.electionTimeout ≤ n.ticksSinceReset then n.startPreVote else (n, [])
  | .leader =>
    if n.heartbeatInterval ≤ n.ticksSinceReset then
      { n with ticksSinceReset := 0 }.heartbeat
    else (n, [])

def propose (n : RaftNode) (command : List UInt8) : RaftNode × Except RaftError Unit :=
  if n.state ≠ .leader then (n, .error .notLeader)
  else
    let (log, index) := n.log.append n.currentTerm command
    (tryCommit { n with
      log
      nextIndex := Function.update n.nextIndex n.id (some (index + 1))
      matchIndex := Function.update n.matchIndex n.id (some index) }, .ok ())

def replicateTo (n : RaftNode) (target : NodeId) : RaftNode :=
  let nextIdx := (n.nextIndex target).getD 1
  { n with
    nextIndex := Function.update n.nextIndex target (some (min nextIdx (n.log.lastIndex + 1))) }

def transferLeadership (n : RaftNode) (target : NodeId) : RaftNode × Except RaftError Unit :=
  if n.state ≠ .leader then (n, .error .notLeader)
  else if target ∉ n.config.nodes then (n, .error (.nodeNotFound target))
  else if (n.matchIndex target).getD 0 < n.log.lastIndex then
    ({ n with pendingTransfer := some target }.replicateTo target, .ok ())
  else (n.stepDown n.currentTerm, .ok ())

end RaftNode
end Suture.Raft
