import Suture.Foundation.Run
import Suture.Runtime.Members

/-!
# Committed commands on their way to the store

Each tick the runtime collects the commands among the committed entries and puts them on a
bounded channel. What it counts as applied is the commands, not the entries, and a command
that finds the channel full is gone. `fromSlice` stands for the parser of commands.
-/

namespace Suture.Runtime
set_option autoImplicit false
open Foundation Raft

inductive HubCommand where
  | createRepo (repoId : String)
  | deleteRepo (repoId : String)
  | storeBlob (hash : String) (data : List UInt8)
  | deleteBlob (hash : String)
  | createBranch (repoId branch target : String)
  | updateBranch (repoId branch target : String)
  | deleteBranch (repoId branch : String)
  | storePatch (repoId patchId : String) (patchData : List UInt8)
deriving DecidableEq, Repr

variable (fromSlice : List UInt8 → Option HubCommand)

/-- The commands among some entries; the others are configurations. -/
def commandsOf (entries : List LogEntry) : List HubCommand :=
  entries.filterMap fun e => fromSlice e.command

namespace RaftHub

/-- `none` where `committed_entries` panics. -/
def committedCommands (hub : RaftHub) : Option (List HubCommand) :=
  hub.node.committedEntries.map (commandsOf fromSlice)

def advanceApplied (hub : RaftHub) (count : Nat) : RaftHub :=
  { hub with node := hub.node.advanceApplied count }

end RaftHub

def channelCapacity : Nat := 256

/-- The hub with the applied channel, and all that was ever put on it. -/
structure TickLoop where
  hub : RaftHub
  channel : List HubCommand
  sent : List HubCommand

namespace TickLoop

def trySend (s : TickLoop) (cmd : HubCommand) : Option TickLoop :=
  if s.channel.length < channelCapacity then
    some { s with channel := s.channel ++ [cmd], sent := s.sent ++ [cmd] }
  else none

/-- The loop breaks at the first command that does not fit. -/
def sendAll (s : TickLoop) : List HubCommand → TickLoop
  | [] => s
  | cmd :: rest =>
    match s.trySend cmd with
    | some s => s.sendAll rest
    | none => s

/-- What a tick does when its messages are sent; after a panic the loop is gone. -/
def collect (s : TickLoop) : TickLoop :=
  match s.hub.committedCommands fromSlice with
  | none => s
  | some committed =>
    sendAll { s with hub := s.hub.advanceApplied committed.length } committed

end TickLoop

/-- Between two ticks the node moves on, and the receiver takes commands. -/
inductive LoopEvent where
  | collect
  | drain (count : Nat)
  | advance (node : RaftNode)

/-- The committed part of the log stays and grows. -/
structure Grown (n n' : RaftNode) : Prop where
  applied : n'.lastApplied = n.lastApplied
  commit : n.commitIndex ≤ n'.commitIndex
  stored : n'.commitIndex ≤ n'.log.entries.length
  kept : n'.log.entries.take n.commitIndex = n.log.entries.take n.commitIndex

instance (n n' : RaftNode) : Decidable (Grown n n') :=
  decidable_of_iff (n'.lastApplied = n.lastApplied ∧ n.commitIndex ≤ n'.commitIndex ∧
      n'.commitIndex ≤ n'.log.entries.length ∧
      n'.log.entries.take n.commitIndex = n.log.entries.take n.commitIndex)
    ⟨fun h => ⟨h.1, h.2.1, h.2.2.1, h.2.2.2⟩, fun h => ⟨h.applied, h.commit, h.stored, h.kept⟩⟩

/-- The committed entries that are not counted as applied. -/
def pending (n : RaftNode) : List LogEntry := (n.log.entries.take n.commitIndex).drop n.lastApplied

/-- No configuration stands before a command. -/
def CommandsFirst (entries : List LogEntry) : Prop :=
  entries.Pairwise fun a b => (fromSlice a.command).isSome ∨ fromSlice b.command = none

instance (entries : List LogEntry) : Decidable (CommandsFirst fromSlice entries) :=
  inferInstanceAs (Decidable (List.Pairwise _ _))

namespace TickLoop

def next (s : TickLoop) : LoopEvent → TickLoop
  | .collect => s.collect fromSlice
  | .drain count => { s with channel := s.channel.drop count }
  | .advance node => { s with hub := { s.hub with node } }

def Allowed (s : TickLoop) : LoopEvent → Prop
  | .advance node => Grown s.hub.node node
  | .collect | .drain _ => True

instance (s : TickLoop) : DecidablePred s.Allowed
  | .advance node => inferInstanceAs (Decidable (Grown s.hub.node node))
  | .collect | .drain _ => inferInstanceAs (Decidable True)

/-- The commands of a tick come before its configurations, and the channel has room for them. -/
def Clear (s : TickLoop) : LoopEvent → Prop
  | .collect => CommandsFirst fromSlice (pending s.hub.node) ∧
    s.channel.length + (commandsOf fromSlice (pending s.hub.node)).length ≤ channelCapacity
  | .drain _ => True
  | .advance node => Grown s.hub.node node

instance (s : TickLoop) : DecidablePred (s.Clear fromSlice)
  | .collect => inferInstanceAs (Decidable (_ ∧ _))
  | .drain _ => inferInstanceAs (Decidable True)
  | .advance node => inferInstanceAs (Decidable (Grown s.hub.node node))

/-- Nothing has been collected yet. -/
structure Starts (s : TickLoop) : Prop where
  applied : s.hub.node.lastApplied = 0
  stored : s.hub.node.commitIndex ≤ s.hub.node.log.entries.length
  channel : s.channel = []
  sent : s.sent = []

/-- What was put on the channel is the committed commands. -/
def Delivered (s : TickLoop) : Prop :=
  s.sent = commandsOf fromSlice (s.hub.node.log.entries.take s.hub.node.commitIndex)

instance (s : TickLoop) : Decidable (s.Delivered fromSlice) := inferInstanceAs (Decidable (_ = _))

end TickLoop

/-! ### One tick -/

theorem commandsOf_append (l l' : List LogEntry) :
    commandsOf fromSlice (l ++ l') = commandsOf fromSlice l ++ commandsOf fromSlice l' :=
  List.filterMap_append ..

/-- After as many entries as there are commands no command is left just when the commands come
first. -/
theorem commandsFirst_iff {entries : List LogEntry} : CommandsFirst fromSlice entries ↔
    commandsOf fromSlice (entries.drop (commandsOf fromSlice entries).length) = [] := by
  induction entries with
  | nil => simp [CommandsFirst, commandsOf]
  | cons e rest ih =>
    unfold CommandsFirst commandsOf at *
    rw [List.pairwise_cons, List.filterMap_cons]
    cases he : fromSlice e.command with
    | some cmd => simpa [he] using ih
    | none =>
      simp only [Option.isSome_none, Bool.false_eq_true, false_or]
      constructor
      · intro h
        have hnone : rest.filterMap (fun e => fromSlice e.command) = [] :=
          List.filterMap_eq_nil_iff.mpr h.1
        rw [hnone, List.length_nil, List.drop_zero, List.filterMap_cons, he, hnone]
      · intro h
        have hlen : (rest.filterMap fun e => fromSlice e.command).length = 0 := by
          by_contra hne
          obtain ⟨m, hm⟩ := Nat.exists_eq_succ_of_ne_zero hne
          rw [hm, List.drop_succ_cons] at h
          have hsplit := commandsOf_append fromSlice (rest.take m) (rest.drop m)
          unfold commandsOf at hsplit
          rw [List.take_append_drop, h, List.append_nil] at hsplit
          have := List.length_filterMap_le (fun e => fromSlice e.command) (rest.take m)
          rw [← hsplit, hm, List.length_take] at this
          omega
        have hnone := List.filterMap_eq_nil_iff.mp (List.eq_nil_of_length_eq_zero hlen)
        exact ⟨hnone, List.pairwise_of_forall_mem_list fun _ _ b hb => .inr (hnone b hb)⟩

theorem pending_length (n : RaftNode) : (pending n).length ≤ n.commitIndex - n.lastApplied := by
  rw [pending, List.length_drop, List.length_take]
  omega

theorem commandsOf_pending_length (n : RaftNode) :
    (commandsOf fromSlice (pending n)).length ≤ n.commitIndex - n.lastApplied :=
  (List.length_filterMap_le _ _).trans (pending_length n)

theorem take_append_pending (n : RaftNode) (count : Nat)
    (h : n.lastApplied + count ≤ n.commitIndex) :
    n.log.entries.take (n.lastApplied + count) =
      n.log.entries.take n.lastApplied ++ (pending n).take count := by
  rw [List.take_add, pending, List.drop_take, List.take_take, Nat.min_eq_left (by omega)]

theorem pending_advanceApplied (n : RaftNode) (count : Nat) :
    pending (n.advanceApplied count) = (pending n).drop count := by
  rw [pending, pending, List.drop_drop]
  rfl

theorem committedEntries_eq {n : RaftNode} (h : n.commitIndex ≤ n.log.entries.length) :
    n.committedEntries = some (pending n) := by
  unfold RaftNode.committedEntries pending
  split
  · rename_i hle
    rw [List.drop_eq_nil_of_le (by rw [List.length_take]; omega)]
  · rfl

namespace TickLoop

/-- As much is sent as the channel has room for. -/
theorem sendAll_eq (cmds : List HubCommand) (s : TickLoop) : s.sendAll cmds =
    { s with
      channel := s.channel ++ cmds.take (channelCapacity - s.channel.length)
      sent := s.sent ++ cmds.take (channelCapacity - s.channel.length) } := by
  induction cmds generalizing s with
  | nil => simp [sendAll]
  | cons cmd rest ih =>
    unfold sendAll trySend
    by_cases hroom : s.channel.length < channelCapacity
    · rw [if_pos hroom]
      dsimp only
      rw [ih]
      obtain ⟨m, hm⟩ : ∃ m, channelCapacity - s.channel.length = m + 1 :=
        Nat.exists_eq_succ_of_ne_zero (by omega)
      have hm' : channelCapacity - (s.channel ++ [cmd]).length = m := by
        rw [List.length_append, List.length_singleton]
        omega
      dsimp only
      rw [hm, hm', List.take_succ_cons, List.append_assoc, List.append_assoc]
      rfl
    · rw [if_neg hroom, show channelCapacity - s.channel.length = 0 by omega]
      simp

/-- What has been collected is the commands of the entries counted as applied. -/
structure Counted (s : TickLoop) : Prop where
  applied : s.hub.node.lastApplied ≤ s.hub.node.commitIndex
  stored : s.hub.node.commitIndex ≤ s.hub.node.log.entries.length
  channel : s.channel.length ≤ channelCapacity
  sent : s.sent = commandsOf fromSlice (s.hub.node.log.entries.take s.hub.node.lastApplied)

variable {fromSlice} {s : TickLoop}

theorem Starts.counted (h : s.Starts) : s.Counted fromSlice where
  applied := by
    rw [h.applied]
    exact Nat.zero_le _
  stored := h.stored
  channel := by
    rw [h.channel]
    exact Nat.zero_le _
  sent := by
    rw [h.sent, h.applied]
    rfl

variable (fromSlice) in
theorem collect_eq (h : s.hub.node.commitIndex ≤ s.hub.node.log.entries.length) :
    s.collect fromSlice =
    let committed := commandsOf fromSlice (pending s.hub.node)
    { hub := s.hub.advanceApplied committed.length
      channel := s.channel ++ committed.take (channelCapacity - s.channel.length)
      sent := s.sent ++ committed.take (channelCapacity - s.channel.length) } := by
  simp only [collect, RaftHub.committedCommands, committedEntries_eq h, Option.map_some,
    sendAll_eq]

theorem collect_delivered_iff (h : s.hub.node.commitIndex ≤ s.hub.node.log.entries.length) :
    (s.next fromSlice .collect).Delivered fromSlice ↔
      s.sent ++ (commandsOf fromSlice (pending s.hub.node)).take
        (channelCapacity - s.channel.length) =
      commandsOf fromSlice (s.hub.node.log.entries.take s.hub.node.commitIndex) := by
  rw [Delivered, next, collect_eq fromSlice h]
  rfl

namespace Counted

/-- All that is committed, as what has been collected and what has not. -/
theorem committed (h : s.Counted fromSlice) :
    commandsOf fromSlice (s.hub.node.log.entries.take s.hub.node.commitIndex) =
      s.sent ++ commandsOf fromSlice (pending s.hub.node) := by
  have happlied := h.applied
  have htake := take_append_pending s.hub.node (s.hub.node.commitIndex - s.hub.node.lastApplied)
    (by omega)
  rw [Nat.add_sub_cancel' happlied, List.take_of_length_le (pending_length _)] at htake
  rw [htake, commandsOf_append, h.sent]

theorem collect (h : s.Counted fromSlice) (hclear : s.Clear fromSlice .collect) :
    (s.next fromSlice .collect).Counted fromSlice ∧
      (s.next fromSlice .collect).Delivered fromSlice := by
  obtain ⟨hfirst, hroom⟩ := hclear
  have happlied := h.applied
  have hcommitted := h.committed
  have hlen := commandsOf_pending_length fromSlice s.hub.node
  have hrest := (commandsFirst_iff fromSlice).mp hfirst
  have hcollect := collect_eq fromSlice h.stored
  dsimp only at hcollect
  rw [List.take_of_length_le (by omega)] at hcollect
  rw [TickLoop.next, hcollect]
  generalize hcmds : commandsOf fromSlice (pending s.hub.node) = cmds at *
  have hmoved : commandsOf fromSlice ((pending s.hub.node).take cmds.length) = cmds := by
    have hsplit := commandsOf_append fromSlice
      ((pending s.hub.node).take cmds.length) ((pending s.hub.node).drop cmds.length)
    rw [List.take_append_drop, hcmds, hrest, List.append_nil] at hsplit
    exact hsplit.symm
  refine ⟨⟨?_, h.stored, ?_, ?_⟩, hcommitted.symm⟩
  · show s.hub.node.lastApplied + cmds.length ≤ s.hub.node.commitIndex
    omega
  · rw [List.length_append]
    exact hroom
  · show s.sent ++ cmds =
      commandsOf fromSlice (s.hub.node.log.entries.take (s.hub.node.lastApplied + cmds.length))
    rw [take_append_pending _ _ (by omega), commandsOf_append, hmoved, h.sent]

theorem next {e : LoopEvent} (h : s.Counted fromSlice) (hclear : s.Clear fromSlice e) :
    (s.next fromSlice e).Counted fromSlice := by
  cases e with
  | collect => exact (h.collect hclear).1
  | drain count =>
    refine ⟨h.applied, h.stored, ?_, h.sent⟩
    exact (List.drop_sublist _ _).length_le.trans h.channel
  | advance node =>
    have hgrown : Grown s.hub.node node := hclear
    refine ⟨?_, hgrown.stored, h.channel, ?_⟩
    · show node.lastApplied ≤ node.commitIndex
      rw [hgrown.applied]
      exact h.applied.trans hgrown.commit
    · have hkept := congrArg (List.take s.hub.node.lastApplied) hgrown.kept
      rw [List.take_take, List.take_take, Nat.min_eq_left h.applied] at hkept
      show s.sent = commandsOf fromSlice (node.log.entries.take node.lastApplied)
      rw [hgrown.applied, hkept, h.sent]

end Counted
end TickLoop

/-- As long as the commands of a tick come first and fit, each tick has put exactly the committed
commands on the channel, in the order of the log. -/
theorem delivered_once_in_order {s s' : TickLoop} (hstart : s.Starts)
    (hrun : Run (TickLoop.next fromSlice) (TickLoop.Clear fromSlice) s s')
    (hclear : s'.Clear fromSlice .collect) :
    (s'.next fromSlice .collect).Delivered fromSlice :=
  ((hrun.invariant (TickLoop.Counted fromSlice) (fun _ _ h he => h.next he)
    hstart.counted).collect hclear).2

/-! ### A node alone -/

def configJson : List UInt8 :=
  "\x7b\"nodes\":[1],\"transition\":[1]\x7d".toList.map fun c => c.toNat.toUInt8

def createJson : List UInt8 :=
  "\x7b\"CreateRepo\":\x7b\"repo_id\":\"a\"\x7d\x7d".toList.map fun c => c.toNat.toUInt8

/-- The parser on the texts of the runs below. -/
def parseCreate (bytes : List UInt8) : Option HubCommand :=
  if bytes = createJson then some (.createRepo "a") else none

/-- A leader without peers. -/
def alone : RaftNode := (RaftNode.withTimeouts 1 [] 1 1 RaftNode.noOffset).tick.1

def idle : TickLoop := ⟨⟨alone, ⟨1, [], 10, 3⟩⟩, [], []⟩

/-- A command, and then a change of the membership. -/
def commandFirst : RaftNode :=
  ((alone.propose createJson).1.proposeMembershipChange (fun _ => some configJson) [1]).1

theorem delivered_once_in_order_idle :
    (((idle.next parseCreate (.advance commandFirst)).next parseCreate (.drain 3)).next parseCreate
      .collect).Delivered parseCreate :=
  delivered_once_in_order parseCreate ⟨rfl, by decide +kernel, rfl, rfl⟩
    (Run.of_allows [LoopEvent.advance commandFirst, .drain 3] (by decide +kernel))
    (by decide +kernel)

/-- A change of the membership, and then a command. -/
def configFirst : RaftNode :=
  ((alone.proposeMembershipChange (fun _ => some configJson) [1]).1.propose createJson).1

/-- The command is counted in the place of the configuration and comes again at the next tick. -/
theorem delivered_twice : ¬ ∀ (fromSlice : List UInt8 → Option HubCommand) (s s' : TickLoop),
    s.Starts → Run (TickLoop.next fromSlice) (fun s => s.Allowed) s s' →
    (s'.next fromSlice .collect).Delivered fromSlice := by
  intro h
  have htwice := h parseCreate idle _ ⟨rfl, by decide +kernel, rfl, rfl⟩
    (Run.of_allows [LoopEvent.advance configFirst, .collect] (by decide +kernel))
  exact absurd htwice (by decide +kernel)

/-! ### Exactness -/

/-- A tick that is not clear shows by the next tick at the latest. -/
theorem clear_iff {s : TickLoop} (h : s.Counted fromSlice) : s.Clear fromSlice .collect ↔
    (s.next fromSlice .collect).Delivered fromSlice ∧
      (((s.next fromSlice .collect).next fromSlice
        (.drain (s.next fromSlice .collect).channel.length)).next fromSlice .collect).Delivered
          fromSlice := by
  constructor
  · intro hclear
    obtain ⟨hcounted, hdelivered⟩ := h.collect hclear
    have hdrained := hcounted.next (e := .drain (s.next fromSlice .collect).channel.length) trivial
    have hnone : commandsOf fromSlice (pending (s.next fromSlice .collect).hub.node) = [] := by
      have hcommitted := hcounted.committed
      rw [← hdelivered] at hcommitted
      simpa using hcommitted
    refine ⟨hdelivered, (hdrained.collect ⟨?_, ?_⟩).2⟩
    · refine (commandsFirst_iff fromSlice).mpr ?_
      show commandsOf fromSlice ((pending (s.next fromSlice .collect).hub.node).drop
        (commandsOf fromSlice (pending (s.next fromSlice .collect).hub.node)).length) = []
      rw [hnone]
      exact hnone
    · show ((s.next fromSlice .collect).channel.drop _).length +
        (commandsOf fromSlice (pending (s.next fromSlice .collect).hub.node)).length ≤ _
      rw [hnone, List.drop_length]
      exact Nat.zero_le _
  · rintro ⟨hfirst, hsecond⟩
    have hchannel := h.channel
    have hcommitted := h.committed
    have hsent := (TickLoop.collect_delivered_iff h.stored).mp hfirst
    have hroom : (commandsOf fromSlice (pending s.hub.node)).length ≤
        channelCapacity - s.channel.length := by
      rw [hcommitted] at hsent
      exact (List.take_eq_self_iff _).mp (List.append_cancel_left hsent)
    refine ⟨(commandsFirst_iff fromSlice).mpr ?_, by omega⟩
    have hcollect := TickLoop.collect_eq fromSlice h.stored
    dsimp only at hcollect
    rw [List.take_of_length_le hroom] at hcollect
    simp only [TickLoop.next, hcollect] at hsecond
    have hagain := (TickLoop.collect_delivered_iff (by exact h.stored)).mp hsecond
    simp only [RaftHub.advanceApplied, pending_advanceApplied, List.drop_length, List.length_nil,
      Nat.sub_zero] at hagain
    change (s.sent ++ commandsOf fromSlice (pending s.hub.node)) ++ _ =
      commandsOf fromSlice (s.hub.node.log.entries.take s.hub.node.commitIndex) at hagain
    rw [hcommitted, List.append_right_eq_self] at hagain
    refine (List.take_eq_nil_iff.mp hagain).resolve_left ?_
    decide

end Suture.Runtime
