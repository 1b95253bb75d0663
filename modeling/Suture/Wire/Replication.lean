import Suture.Foundation.Numbered
import Suture.Foundation.Run
import Suture.Wire.Server

/-!
# Replication

A leader sends what it has logged to a follower, from the last number that the follower has
confirmed. The follower has a log of its own, and both number their entries alike.
-/

namespace Suture.Wire
set_option autoImplicit false
open Foundation

abbrev ReplicationLog := SortedMap Int ReplicationEntry

def maxSeq : Int := 9223372036854775807

/-- The log of the hub takes entries as long as there are numbers. -/
def logEntry (entry : ReplicationEntry) (log : ReplicationLog) : ReplicationLog :=
  Numbered.append maxSeq entry log

def getReplicationLog (sinceSeq : Int) (log : ReplicationLog) : List (Int × ReplicationEntry) :=
  Numbered.since sinceSeq log

/-- A number that is there is left as it is. -/
def applyReplicationEntries (entries : List (Int × ReplicationEntry)) (log : ReplicationLog) :
    ReplicationLog := log.addRows entries

/-- The request of the leader that is under way. -/
inductive Outgoing where
  | idle
  | sent (entries : List (Int × ReplicationEntry))
  | applied (entries : List (Int × ReplicationEntry))
deriving DecidableEq

structure Replication where
  leader : ReplicationLog
  follower : ReplicationLog
  lastSyncSeq : Int
  outgoing : Outgoing

inductive ReplicationStep where
  | leaderLogs (entry : ReplicationEntry)
  | followerLogs (entry : ReplicationEntry)
  | send
  | deliver
  | failAfter (n : Nat)
  | acknowledge
  | giveUp
deriving DecidableEq, Repr

namespace Replication

def start : Replication := ⟨.empty, .empty, 0, .idle⟩

variable (σ : Replication)

/-- One request at a time, of what the follower has not confirmed. -/
def send : Replication :=
  match σ.outgoing with
  | .idle =>
    let entries := getReplicationLog σ.lastSyncSeq σ.leader
    if entries = [] then σ else { σ with outgoing := .sent entries }
  | _ => σ

def deliver : Replication :=
  match σ.outgoing with
  | .sent entries =>
    { σ with follower := applyReplicationEntries entries σ.follower, outgoing := .applied entries }
  | _ => σ

/-- The entries are written one by one; when one fails, those before it stay. -/
def failAfter (n : Nat) : Replication :=
  match σ.outgoing with
  | .sent entries =>
    { σ with follower := applyReplicationEntries (entries.take n) σ.follower, outgoing := .idle }
  | _ => σ

def acknowledge : Replication :=
  match σ.outgoing with
  | .applied entries =>
    { σ with lastSyncSeq := (entries.getLast?.map Prod.fst).getD σ.lastSyncSeq, outgoing := .idle }
  | _ => σ

/-- A request or its answer is lost; the next request then starts where this one did. -/
def giveUp : Replication := { σ with outgoing := .idle }

def step : ReplicationStep → Replication
  | .leaderLogs entry => { σ with leader := logEntry entry σ.leader }
  | .followerLogs entry => { σ with follower := logEntry entry σ.follower }
  | .send => σ.send
  | .deliver => σ.deliver
  | .failAfter n => σ.failAfter n
  | .acknowledge => σ.acknowledge
  | .giveUp => σ.giveUp

def run (steps : List ReplicationStep) : Replication := steps.foldl step start

end Replication

/-! ### What is lost, and when -/

structure SameOperation (e e' : ReplicationEntry) : Prop where
  operation : e.operation = e'.operation
  tableName : e.tableName = e'.tableName
  rowId : e.rowId = e'.rowId
  data : e.data = e'.data

theorem SameOperation.refl (e : ReplicationEntry) : SameOperation e e := ⟨rfl, rfl, rfl, rfl⟩

/-- Every entry of the leader is in the log of the follower. -/
def Complete (leader follower : ReplicationLog) : Prop :=
  ∀ seq e, leader.get seq = some e → ∃ e', follower.get seq = some e' ∧ SameOperation e e'

/-- No number stands for two operations. -/
def Agree (leader follower : ReplicationLog) : Prop :=
  ∀ seq e e', leader.get seq = some e → follower.get seq = some e' → SameOperation e e'

/-- The number that an entry is given is not taken by another operation on the other side. -/
def ReplicationStep.Free (σ : Replication) : ReplicationStep → Prop
  | .leaderLogs e => Numbered.next σ.leader ≤ maxSeq →
      ∀ e', σ.follower.get (Numbered.next σ.leader) = some e' → SameOperation e e'
  | .followerLogs e' => Numbered.next σ.follower ≤ maxSeq →
      ∀ e, σ.leader.get (Numbered.next σ.follower) = some e → SameOperation e e'
  | _ => True

/-- Entries under way are from the log of the leader, and none of it is left out up to the last. -/
structure FromLog (σ : Replication) (entries : List (Int × ReplicationEntry)) : Prop where
  stored : ∀ row ∈ entries, σ.leader.get row.1 = some row.2
  covers : ∀ last ∈ entries.getLast?, ∀ seq ≤ last.1, σ.leader.get seq ≠ none →
    seq ≤ σ.lastSyncSeq ∨ seq ∈ entries.map Prod.fst

/-- What the leader takes for received is there, under some operation. -/
structure Consistent (σ : Replication) : Prop where
  logged : σ.lastSyncSeq ≤ 0 ∨ σ.leader.get σ.lastSyncSeq ≠ none
  received : ∀ seq ≤ σ.lastSyncSeq, σ.leader.get seq ≠ none → σ.follower.get seq ≠ none
  sent : ∀ entries, σ.outgoing = .sent entries → FromLog σ entries
  applied : ∀ entries, σ.outgoing = .applied entries → FromLog σ entries ∧
    ∀ row ∈ entries, σ.follower.get row.1 ≠ none

section Invariant
variable {σ : Replication} {log : ReplicationLog} {seq : Int}

theorem logEntry_of_ne_none (entry : ReplicationEntry) (h : log.get seq ≠ none) :
    (logEntry entry log).get seq ≠ none := by
  obtain ⟨e, he⟩ := Option.ne_none_iff_exists'.mp h
  rw [logEntry, Numbered.get_append_of_some he]
  exact Option.some_ne_none e

theorem apply_of_ne_none (entries : List (Int × ReplicationEntry)) (h : log.get seq ≠ none) :
    (applyReplicationEntries entries log).get seq ≠ none := by
  obtain ⟨e, he⟩ := Option.ne_none_iff_exists'.mp h
  rw [applyReplicationEntries, SortedMap.get_addRows_of_some he]
  exact Option.some_ne_none e

/-- Below the next number, an entry that is there was there. -/
theorem get_logEntry_of_lt (entry : ReplicationEntry) (h : seq < Numbered.next log) :
    (logEntry entry log).get seq = log.get seq := by
  rw [logEntry, Numbered.get_append, if_neg]
  rintro ⟨-, rfl⟩
  exact lt_irrefl _ h

theorem Consistent.lastSyncSeq_lt (h : Consistent σ) : σ.lastSyncSeq < Numbered.next σ.leader := by
  rcases h.logged with hzero | hkey
  · unfold Numbered.next
    omega
  · exact Numbered.lt_next hkey

theorem FromLog.logEntry {entries : List (Int × ReplicationEntry)} (h : FromLog σ entries)
    (entry : ReplicationEntry) : FromLog { σ with leader := logEntry entry σ.leader } entries where
  stored row hrow := Numbered.get_append_of_some (h.stored row hrow) entry
  covers last hlast seq hle hseq := by
    have hkey : σ.leader.get last.1 ≠ none := by
      rw [h.stored last (List.mem_of_getLast? hlast)]
      exact Option.some_ne_none _
    refine h.covers last hlast seq hle ?_
    rwa [get_logEntry_of_lt entry (lt_of_le_of_lt hle (Numbered.lt_next hkey))] at hseq

/-- What does not depend on the follower. -/
theorem FromLog.congr {σ' : Replication} {entries : List (Int × ReplicationEntry)}
    (h : FromLog σ entries) (hleader : σ'.leader = σ.leader)
    (hseq : σ'.lastSyncSeq = σ.lastSyncSeq) : FromLog σ' entries where
  stored := hleader ▸ h.stored
  covers := hleader ▸ hseq ▸ h.covers

theorem fromLog_getReplicationLog (σ : Replication) :
    FromLog σ (getReplicationLog σ.lastSyncSeq σ.leader) where
  stored _ hrow := (Numbered.mem_since.mp hrow).2
  covers _ _ seq _ hseq := by
    by_cases hle : seq ≤ σ.lastSyncSeq
    · exact .inl hle
    · exact .inr (Numbered.mem_keys_since.mpr ⟨not_le.mp hle, hseq⟩)

theorem consistent_start : Consistent .start where
  logged := .inl le_rfl
  received := fun _ _ h => absurd rfl h
  sent := nofun
  applied := nofun

theorem Consistent.leaderLogs (h : Consistent σ) (entry : ReplicationEntry) :
    Consistent (σ.step (.leaderLogs entry)) where
  logged := h.logged.imp_right (logEntry_of_ne_none entry)
  received seq hle hseq := by
    refine h.received seq hle ?_
    rwa [Replication.step, get_logEntry_of_lt entry (lt_of_le_of_lt hle h.lastSyncSeq_lt)] at hseq
  sent entries hout := (h.sent entries hout).logEntry entry
  applied entries hout := ⟨(h.applied entries hout).1.logEntry entry, (h.applied entries hout).2⟩

theorem Consistent.followerLogs (h : Consistent σ) (entry : ReplicationEntry) :
    Consistent (σ.step (.followerLogs entry)) where
  logged := h.logged
  received seq hle hseq := logEntry_of_ne_none entry (h.received seq hle hseq)
  sent entries hout := (h.sent entries hout).congr rfl rfl
  applied entries hout := ⟨(h.applied entries hout).1.congr rfl rfl,
    fun row hrow => logEntry_of_ne_none entry ((h.applied entries hout).2 row hrow)⟩

/-- A follower that only has more, and nothing under way. -/
theorem Consistent.idle (h : Consistent σ) {follower : ReplicationLog}
    (hmore : ∀ seq, σ.follower.get seq ≠ none → follower.get seq ≠ none) :
    Consistent { σ with follower := follower, outgoing := .idle } where
  logged := h.logged
  received seq hle hseq := hmore seq (h.received seq hle hseq)
  sent := nofun
  applied := nofun

theorem Consistent.send (h : Consistent σ) : Consistent σ.send := by
  unfold Replication.send
  split
  · dsimp only
    split
    · exact h
    · exact
        { logged := h.logged
          received := h.received
          sent := by
            rintro _ ⟨⟩
            exact (fromLog_getReplicationLog σ).congr rfl rfl
          applied := nofun }
  · exact h

theorem Consistent.deliver (h : Consistent σ) : Consistent σ.deliver := by
  unfold Replication.deliver
  split
  · rename_i entries hout
    exact
      { logged := h.logged
        received := fun seq hle hseq => apply_of_ne_none entries (h.received seq hle hseq)
        sent := nofun
        applied := by
          rintro _ ⟨⟩
          refine ⟨(h.sent entries hout).congr rfl rfl, fun row hrow => ?_⟩
          exact Option.isSome_iff_ne_none.mp (SortedMap.contains_addRows hrow) }
  · exact h

theorem Consistent.acknowledge (h : Consistent σ) : Consistent σ.acknowledge := by
  unfold Replication.acknowledge
  split
  · rename_i entries hout
    obtain ⟨hlog, hstored⟩ := h.applied entries hout
    cases hlast : entries.getLast? with
    | none => exact h.idle fun _ hseq => hseq
    | some last =>
      exact
        { logged := by
            right
            change σ.leader.get last.1 ≠ none
            rw [hlog.stored last (List.mem_of_getLast? hlast)]
            exact Option.some_ne_none _
          received := fun seq hle hseq => by
            rcases hlog.covers last hlast seq hle hseq with hbefore | hin
            · exact h.received seq hbefore hseq
            · obtain ⟨row, hrow, rfl⟩ := List.mem_map.mp hin
              exact hstored row hrow
          sent := nofun
          applied := nofun }
  · exact h

theorem Consistent.step (h : Consistent σ) (a : ReplicationStep) : Consistent (σ.step a) := by
  cases a with
  | leaderLogs entry => exact h.leaderLogs entry
  | followerLogs entry => exact h.followerLogs entry
  | send => exact h.send
  | deliver => exact h.deliver
  | failAfter n =>
    change Consistent (σ.failAfter n)
    unfold Replication.failAfter
    split
    · exact h.idle fun _ => apply_of_ne_none _
    · exact h
  | acknowledge => exact h.acknowledge
  | giveUp => exact h.idle fun _ hseq => hseq

theorem consistent_run (steps : List ReplicationStep) : Consistent (.run steps) := by
  have hrun : Run Replication.step (fun _ _ => True) .start (.run steps) :=
    Run.of_allows steps (Run.allows_true steps)
  exact hrun.invariant Consistent (fun _ a h _ => h.step a) consistent_start

end Invariant

/-! ### Numbers that stand for two operations -/

section Agreement
variable {σ : Replication}

/-- All is there after the next request exactly when no number stands for two operations. -/
theorem Consistent.complete_iff (h : Consistent σ) :
    Complete σ.leader (applyReplicationEntries (getReplicationLog σ.lastSyncSeq σ.leader)
      σ.follower) ↔ Agree σ.leader σ.follower := by
  unfold Complete applyReplicationEntries getReplicationLog
  simp only [Numbered.get_addRows_since]
  constructor
  · intro hall seq e e' he he'
    obtain ⟨e'', hget, hsame⟩ := hall seq e he
    rw [he', Option.some_or] at hget
    rwa [Option.some.inj hget]
  · intro hagree seq e he
    cases hfollower : σ.follower.get seq with
    | some e' => exact ⟨e', rfl, hagree seq e e' he hfollower⟩
    | none =>
      have hnew : σ.lastSyncSeq < seq := by
        by_contra hle
        refine h.received seq (not_lt.mp hle) ?_ hfollower
        rw [he]
        exact Option.some_ne_none e
      rw [Option.none_or, if_pos hnew]
      exact ⟨e, he, .refl e⟩

theorem agree_leaderLogs_iff {leader follower : ReplicationLog} (e : ReplicationEntry) :
    Agree (logEntry e leader) follower ↔ Agree leader follower ∧ (Numbered.next leader ≤ maxSeq →
      ∀ e', follower.get (Numbered.next leader) = some e' → SameOperation e e') := by
  have hrows : ∀ log : ReplicationLog, Agree log follower ↔ ∀ seq e, log.get seq = some e →
      ∀ e', follower.get seq = some e' → SameOperation e e' := fun log =>
    ⟨fun h seq e he e' he' => h seq e e' he he', fun h seq e e' he he' => h seq e he e' he'⟩
  rw [hrows, hrows]
  exact Numbered.forall_append_iff e

theorem agree_followerLogs_iff {leader follower : ReplicationLog} (e' : ReplicationEntry) :
    Agree leader (logEntry e' follower) ↔ Agree leader follower ∧ (Numbered.next follower ≤ maxSeq →
      ∀ e, leader.get (Numbered.next follower) = some e → SameOperation e e') := by
  have hrows : ∀ log : ReplicationLog, Agree leader log ↔ ∀ seq e', log.get seq = some e' →
      ∀ e, leader.get seq = some e → SameOperation e e' := fun log =>
    ⟨fun h seq e' he' e he => h seq e e' he he', fun h seq e e' he he' => h seq e' he' e he⟩
  rw [hrows, hrows]
  exact Numbered.forall_append_iff e'

/-- Entries of the leader bring no disagreement. -/
theorem agree_apply_iff {leader follower : ReplicationLog} {entries : List (Int × ReplicationEntry)}
    (hentries : ∀ row ∈ entries, leader.get row.1 = some row.2) :
    Agree leader (applyReplicationEntries entries follower) ↔ Agree leader follower := by
  unfold Agree applyReplicationEntries
  constructor
  · intro hagree seq e e' he he'
    exact hagree seq e e' he (SortedMap.get_addRows_of_some he' entries)
  · intro hagree seq e e' he he'
    rw [SortedMap.get_addRows_of_agree hentries] at he'
    cases hfollower : follower.get seq with
    | some e₁ =>
      rw [hfollower, Option.some_or] at he'
      exact hagree seq e e' he (hfollower.trans he')
    | none =>
      rw [hfollower, Option.none_or] at he'
      split at he'
      · cases he.symm.trans he'
        exact .refl e
      · cases he'

theorem Consistent.agree_step_iff (h : Consistent σ) (a : ReplicationStep) :
    Agree (σ.step a).leader (σ.step a).follower ↔ Agree σ.leader σ.follower ∧ a.Free σ := by
  cases a with
  | leaderLogs e => exact agree_leaderLogs_iff e
  | followerLogs e' => exact agree_followerLogs_iff e'
  | send =>
    refine Iff.trans ?_ (and_iff_left trivial).symm
    change Agree σ.send.leader σ.send.follower ↔ _
    unfold Replication.send
    split
    · dsimp only
      split <;> exact Iff.rfl
    · exact Iff.rfl
  | deliver =>
    refine Iff.trans ?_ (and_iff_left trivial).symm
    change Agree σ.deliver.leader σ.deliver.follower ↔ _
    unfold Replication.deliver
    split
    · rename_i entries hout
      exact agree_apply_iff (h.sent entries hout).stored
    · exact Iff.rfl
  | failAfter n =>
    refine Iff.trans ?_ (and_iff_left trivial).symm
    change Agree (σ.failAfter n).leader (σ.failAfter n).follower ↔ _
    unfold Replication.failAfter
    split
    · rename_i entries hout
      exact agree_apply_iff fun row hrow => (h.sent entries hout).stored row (List.mem_of_mem_take hrow)
    · exact Iff.rfl
  | acknowledge =>
    refine Iff.trans ?_ (and_iff_left trivial).symm
    change Agree σ.acknowledge.leader σ.acknowledge.follower ↔ _
    unfold Replication.acknowledge
    split <;> exact Iff.rfl
  | giveUp => exact (and_iff_left trivial).symm

theorem Consistent.agree_foldl_iff (h : Consistent σ) (steps : List ReplicationStep) :
    Agree (steps.foldl Replication.step σ).leader (steps.foldl Replication.step σ).follower ↔
      Agree σ.leader σ.follower ∧ Run.Allows Replication.step (fun σ a => a.Free σ) σ steps := by
  induction steps generalizing σ with
  | nil => exact (and_iff_left trivial).symm
  | cons a steps ih =>
    rw [List.foldl_cons, ih (h.step a), h.agree_step_iff a, and_assoc]
    rfl

end Agreement

/-- After every run, the next request brings all that the leader has logged exactly when no
entry of the run was given a number that stood for another operation; and entries that are sent
again change nothing. -/
theorem replication_complete_iff (steps : List ReplicationStep) :
    (Complete (Replication.run steps).leader
        (applyReplicationEntries (getReplicationLog (Replication.run steps).lastSyncSeq
          (Replication.run steps).leader) (Replication.run steps).follower) ↔
      Run.Allows Replication.step (fun σ a => a.Free σ) .start steps) ∧
      ∀ entries log, applyReplicationEntries entries (applyReplicationEntries entries log) =
        applyReplicationEntries entries log := by
  refine ⟨?_, fun entries log => Numbered.addRows_again entries⟩
  have hstart : Agree Replication.start.leader Replication.start.follower := nofun
  rw [(consistent_run steps).complete_iff, Replication.run, consistent_start.agree_foldl_iff]
  exact and_iff_right hstart

/-- The follower has served a push of its own when the first entry of the leader arrives. -/
def ownWriteFirst : List ReplicationStep :=
  [.followerLogs ⟨"insert", "patches", "b", none, 1⟩, .leaderLogs ⟨"insert", "patches", "a", none, 2⟩]

theorem own_write_loses_entry :
    ¬ Complete (Replication.run ownWriteFirst).leader
      (applyReplicationEntries (getReplicationLog (Replication.run ownWriteFirst).lastSyncSeq
        (Replication.run ownWriteFirst).leader) (Replication.run ownWriteFirst).follower) := by
  intro hall
  obtain ⟨e', he', hsame⟩ := hall 1 ⟨"insert", "patches", "a", none, 2⟩ (by decide +kernel)
  have hfollower : (applyReplicationEntries
      (getReplicationLog (Replication.run ownWriteFirst).lastSyncSeq
        (Replication.run ownWriteFirst).leader) (Replication.run ownWriteFirst).follower).get 1 =
      some ⟨"insert", "patches", "b", none, 1⟩ := by decide +kernel
  cases he'.symm.trans hfollower
  exact absurd hsame.rowId (by decide)

end Suture.Wire
