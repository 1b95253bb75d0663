import Suture.Raft.Indices

/-!
# What a follower acknowledges

A follower keeps its own log as long as it agrees with the request, and goes over to the
entries of the request at the first that it lacks or holds from another term. What it then
reports is the end of its log.
-/

namespace Suture.Raft
set_option autoImplicit false
open RaftNode

/-- The log has an entry of the same term, or the snapshot's end, in every place. -/
def HasTerms (log : RaftLog) (entries : List LogEntry) : Prop :=
  ∀ e ∈ entries, log.termFor e.index = some e.term

theorem termFor_of_lt {log : RaftLog} {i : Nat} (h : log.snapshotIndex < i) :
    log.termFor i = (log.entries[i - log.snapshotIndex - 1]?).map LogEntry.term := by
  rw [RaftLog.termFor, if_neg (by omega), RaftLog.get, if_neg (by omega)]

/-- The first `k` entries of the log, and others after them. -/
def splice (log : RaftLog) (k : Nat) (taken : List LogEntry) : RaftLog :=
  { log with entries := log.entries.take k ++ taken }

section Splice
variable {log : RaftLog} {k : Nat} (hk : k ≤ log.entries.length) (taken : List LogEntry)
include hk

theorem get_splice_of_le {i : Nat} (hi : i ≤ log.snapshotIndex + k) :
    (splice log k taken).get i = log.get i := by
  unfold RaftLog.get
  split
  · rename_i hout
    have hout : i = 0 ∨ i ≤ log.snapshotIndex := hout
    rw [if_pos hout]
  · rename_i hin
    have hout : ¬ (i = 0 ∨ i ≤ log.snapshotIndex) := hin
    rw [if_neg hout]
    show (log.entries.take k ++ taken)[i - log.snapshotIndex - 1]? = _
    rw [List.getElem?_append_left (by rw [List.length_take]; omega), List.getElem?_take_of_lt (by omega)]

theorem get_splice_add (i : Nat) :
    (splice log k taken).get (log.snapshotIndex + k + 1 + i) = taken[i]? := by
  have hin : ¬ (log.snapshotIndex + k + 1 + i = 0 ∨
      log.snapshotIndex + k + 1 + i ≤ (splice log k taken).snapshotIndex) := by
    show ¬ (_ ∨ _ ≤ log.snapshotIndex)
    omega
  rw [RaftLog.get, if_neg hin]
  show (log.entries.take k ++ taken)[log.snapshotIndex + k + 1 + i - log.snapshotIndex - 1]? = _
  rw [List.getElem?_append_right (by rw [List.length_take]; omega), List.length_take]
  congr 1
  omega

theorem lastIndex_splice : (splice log k taken).lastIndex = log.snapshotIndex + k + taken.length := by
  simp only [splice, RaftLog.lastIndex, List.length_append, List.length_take]
  omega

end Splice

/-- Entries that continue the log are appended. -/
theorem foldl_storeEntry_append {log : RaftLog} {entries : List LogEntry}
    (h : NumberedFrom log.lastIndex entries) :
    entries.foldl storeEntry log = { log with entries := log.entries ++ entries } := by
  induction entries generalizing log with
  | nil => simp
  | cons e entries ih =>
    have hindex := h.head
    have hterm : log.termFor e.index = none := by
      rw [termFor_of_lt (by unfold RaftLog.lastIndex at hindex; omega), List.getElem?_eq_none]
      · rfl
      · unfold RaftLog.lastIndex at hindex
        omega
    have hstored : storeEntry log e = log.appendEntry e := by
      rw [storeEntry, hterm]
    have hlast : (log.appendEntry e).lastIndex = log.lastIndex + 1 := by
      simp [RaftLog.lastIndex, Nat.add_assoc]
    rw [List.foldl_cons, hstored, ih (hlast ▸ h.tail)]
    simp [RaftLog.appendEntry]

/-- The entries split where the log first has no entry of the same term. -/
theorem foldl_storeEntry_split {log : RaftLog} {start : Nat} {entries : List LogEntry}
    (h : NumberedFrom start entries) (hsnap : log.snapshotIndex ≤ start)
    (hlast : start ≤ log.lastIndex) :
    ∃ kept taken, entries = kept ++ taken ∧ HasTerms log kept ∧
      start + kept.length ≤ log.lastIndex ∧
      (∀ e, taken.head? = some e → log.termFor e.index ≠ some e.term) ∧
      entries.foldl storeEntry log = if taken = [] then log else
        splice log (start + kept.length - log.snapshotIndex) taken := by
  induction entries generalizing start with
  | nil => exact ⟨[], [], rfl, fun e he => (List.not_mem_nil he).elim, hlast, nofun, rfl⟩
  | cons e entries ih =>
    have hindex := h.head
    rw [List.foldl_cons]
    by_cases hsame : log.termFor e.index = some e.term
    · have hstored : storeEntry log e = log := by
        rw [storeEntry, hsame]
        simp
      have hrange := (termFor_isSome_le hsame).2
      obtain ⟨kept, taken, rfl, hkept, hle, htaken, hfold⟩ := ih h.tail (by omega) (by omega)
      refine ⟨e :: kept, taken, rfl, List.forall_mem_cons.mpr ⟨hsame, hkept⟩, ?_, htaken, ?_⟩
      · rw [List.length_cons]
        omega
      · rw [hstored, hfold, List.length_cons,
          show start + (kept.length + 1) = start + 1 + kept.length by omega]
    · have hhead : ∀ e', (e :: entries).head? = some e' → log.termFor e'.index ≠ some e'.term := by
        intro e' he'
        cases he'
        exact hsame
      refine ⟨[], e :: entries, rfl, fun e he => (List.not_mem_nil he).elim, by simpa using hlast,
        hhead, ?_⟩
      rw [if_neg (List.cons_ne_nil _ _), List.length_nil, Nat.add_zero]
      -- after this entry the log ends with it, whether or not it was cut before
      have hstored : storeEntry log e = splice log (start - log.snapshotIndex) [e] := by
        unfold storeEntry splice
        cases hterm : log.termFor e.index with
        | none =>
          have hend : start = log.lastIndex := by
            by_contra hne
            have hlen : e.index - log.snapshotIndex - 1 < log.entries.length := by
              unfold RaftLog.lastIndex at hne hlast
              omega
            rw [termFor_of_lt (by omega), List.getElem?_eq_getElem hlen] at hterm
            cases hterm
          rw [List.take_of_length_le (by unfold RaftLog.lastIndex at hend; omega)]
          rfl
        | some t =>
          have hne : t ≠ e.term := fun heq => hsame (heq ▸ hterm)
          dsimp only
          rw [if_pos hne, RaftLog.truncateFrom, if_neg (by omega), RaftLog.appendEntry]
          rw [show e.index - log.snapshotIndex - 1 = start - log.snapshotIndex by omega]
      have hend : (storeEntry log e).lastIndex = start + 1 := by
        rw [hstored, lastIndex_splice (by unfold RaftLog.lastIndex at hlast; omega), List.length_singleton]
        omega
      rw [foldl_storeEntry_append (hend ▸ h.tail), hstored]
      simp [splice]

/-- An acknowledgement of no more than the request, by a follower that holds its entries under
their indices and has not committed beyond them. -/
structure Acknowledges (n n' : RaftNode) (prevLogIndex : Nat) (entries : List LogEntry)
    (matchIndex : Nat) : Prop where
  bound : matchIndex ≤ prevLogIndex + entries.length
  holds : ∀ i e, entries[i]? = some e →
    e.index = prevLogIndex + 1 + i ∧ n'.log.get (prevLogIndex + 1 + i) = some e
  commit : n.commitIndex < n'.commitIndex → n'.commitIndex ≤ prevLogIndex + entries.length

/-- The log goes over to the request, or ends with it: no entry of the request lies in the
snapshot, what the log has of the terms of the request up to some entry is the request's, and
if it has all of them it ends there. -/
structure EndsWith (log : RaftLog) (prevLogIndex : Nat) (entries : List LogEntry) : Prop where
  numbered : NumberedFrom prevLogIndex entries
  uncompacted : log.snapshotIndex ≤ prevLogIndex
  own : ∀ i e, entries[i]? = some e → HasTerms log (entries.take (i + 1)) →
    log.get (prevLogIndex + 1 + i) = some e
  ends : HasTerms log entries → log.lastIndex ≤ prevLogIndex + entries.length

theorem handleAppendEntries_success {n n' : RaftNode} {term leaderId prevLogIndex prevLogTerm : Nat}
    {entries : List LogEntry} {leaderCommit t matchIndex : Nat}
    (h : n.handleAppendEntries term leaderId prevLogIndex prevLogTerm entries leaderCommit =
      (n', .appendEntriesResponse t true matchIndex)) :
    prevLogIndex ≤ n.log.lastIndex ∧ n'.log = entries.foldl storeEntry n.log ∧
      matchIndex = n'.log.lastIndex ∧
      n'.commitIndex = if n.commitIndex < leaderCommit then min leaderCommit n'.log.lastIndex
        else n.commitIndex := by
  unfold handleAppendEntries at h
  split at h
  · cases h
  · dsimp only at h
    split at h
    · rename_i hprev
      cases h
      exact ⟨prevMatches_le hprev, rfl, rfl, rfl⟩
    · cases h

/-! ### What a success tells -/

/-- Terms agree no further than the entries that are kept. -/
theorem length_le_of_hasTerms {log : RaftLog} {kept taken : List LogEntry}
    (htaken : ∀ e, taken.head? = some e → log.termFor e.index ≠ some e.term) {k : Nat}
    (hk : HasTerms log ((kept ++ taken).take k)) (hlen : k ≤ (kept ++ taken).length) :
    k ≤ kept.length := by
  by_contra hlt
  cases taken with
  | nil =>
    rw [List.append_nil] at hlen
    exact hlt hlen
  | cons d taken =>
    apply htaken d rfl
    apply hk d
    rw [List.take_append, List.mem_append]
    right
    rw [show k - kept.length = (k - kept.length - 1) + 1 by omega, List.take_succ_cons]
    exact List.mem_cons_self ..

theorem Acknowledges.numbered {n n' : RaftNode} {prevLogIndex matchIndex : Nat}
    {entries : List LogEntry} (h : Acknowledges n n' prevLogIndex entries matchIndex) :
    NumberedFrom prevLogIndex entries := by
  intro i e he
  have := (h.holds i e he).1
  omega

section Success
variable {n n' : RaftNode} {prevLogIndex : Nat} {entries : List LogEntry}
  (hprev : prevLogIndex ≤ n.log.lastIndex) (hlog : n'.log = entries.foldl storeEntry n.log)
include hlog

theorem Acknowledges.uncompacted
    (h : Acknowledges n n' prevLogIndex entries n'.log.lastIndex) :
    n.log.snapshotIndex ≤ prevLogIndex := by
  cases entries with
  | nil =>
    have hbound := h.bound
    rw [hlog] at hbound
    simp only [List.foldl_nil, List.length_nil, RaftLog.lastIndex] at hbound
    omega
  | cons e rest =>
    have hget := (h.holds 0 e rfl).2
    by_contra hlt
    rw [hlog, RaftLog.get, if_pos (.inr (by rw [(foldl_storeEntry_snapshot _ _).1]; omega))] at hget
    cases hget

include hprev

theorem Acknowledges.endsWith
    (h : Acknowledges n n' prevLogIndex entries n'.log.lastIndex) :
    EndsWith n.log prevLogIndex entries := by
  have hnum := h.numbered
  have hsnap := h.uncompacted hlog
  obtain ⟨kept, taken, rfl, hkept, hle, htaken, hfold⟩ := foldl_storeEntry_split hnum hsnap hprev
  rw [hfold] at hlog
  have hcut : prevLogIndex + kept.length - n.log.snapshotIndex ≤ n.log.entries.length := by
    unfold RaftLog.lastIndex at hle
    omega
  refine ⟨hnum, hsnap, fun i e he hterms => ?_, fun hterms => ?_⟩
  · have hi := (List.getElem?_eq_some_iff.mp he).1
    have hikept := length_le_of_hasTerms htaken hterms (by omega)
    have hget := (h.holds i e he).2
    rw [hlog] at hget
    split at hget
    · exact hget
    · rwa [get_splice_of_le hcut taken (by omega)] at hget
  · have hall : (kept ++ taken).length ≤ kept.length :=
      length_le_of_hasTerms htaken (by rwa [List.take_length]) (Nat.le_refl _)
    have hnil : taken = [] := by
      rw [List.length_append] at hall
      exact List.length_eq_zero_iff.mp (by omega)
    rw [if_pos hnil] at hlog
    have hbound := h.bound
    rwa [hlog] at hbound

theorem EndsWith.acknowledges (h : EndsWith n.log prevLogIndex entries) {leaderCommit : Nat}
    (hcommit : n'.commitIndex =
      if n.commitIndex < leaderCommit then min leaderCommit n'.log.lastIndex else n.commitIndex) :
    Acknowledges n n' prevLogIndex entries n'.log.lastIndex := by
  have hsnap := h.uncompacted
  obtain ⟨kept, taken, rfl, hkept, hle, htaken, hfold⟩ :=
    foldl_storeEntry_split h.numbered hsnap hprev
  rw [hfold] at hlog
  have hcut : prevLogIndex + kept.length - n.log.snapshotIndex ≤ n.log.entries.length := by
    unfold RaftLog.lastIndex at hle
    omega
  have hbound : n'.log.lastIndex ≤ prevLogIndex + (kept ++ taken).length := by
    rw [hlog]
    split
    · rename_i hnil
      subst taken
      rw [List.append_nil] at h ⊢
      exact h.ends hkept
    · rw [lastIndex_splice hcut, List.length_append]
      omega
  refine ⟨hbound, fun i e he => ⟨?_, ?_⟩, fun hlt => ?_⟩
  · have := h.numbered i e he
    omega
  · rw [hlog]
    rcases Nat.lt_or_ge i kept.length with hi | hi
    · have hown := h.own i e he (by
        rw [List.take_append_of_le_length (by omega)]
        exact fun d hd => hkept d (List.mem_of_mem_take hd))
      split
      · exact hown
      · rwa [get_splice_of_le hcut taken (by omega)]
    · rw [List.getElem?_append_right hi] at he
      have hne : taken ≠ [] := by
        intro hnil
        rw [hnil] at he
        cases he
      rw [if_neg hne, show prevLogIndex + 1 + i = n.log.snapshotIndex +
        (prevLogIndex + kept.length - n.log.snapshotIndex) + 1 + (i - kept.length) by omega,
        get_splice_add hcut]
      exact he
  · rw [hcommit] at hlt ⊢
    split
    · omega
    · rename_i hge
      rw [if_neg hge] at hlt
      omega

end Success

/-- A request is acknowledged for what it checked exactly when the log goes over to it or ends
with it. -/
theorem acknowledges_iff (n n' : RaftNode) (term leaderId prevLogIndex prevLogTerm : Nat)
    (entries : List LogEntry) (leaderCommit t matchIndex : Nat)
    (h : n.handleAppendEntries term leaderId prevLogIndex prevLogTerm entries leaderCommit =
      (n', .appendEntriesResponse t true matchIndex)) :
    Acknowledges n n' prevLogIndex entries matchIndex ↔ EndsWith n.log prevLogIndex entries := by
  obtain ⟨hprev, hlog, rfl, hcommit⟩ := handleAppendEntries_success h
  constructor
  · intro hack
    exact hack.endsWith hprev hlog
  · intro hends
    exact hends.acknowledges hprev hlog hcommit

/-- A follower that holds two entries of term 1. -/
def holdsTwo : RaftNode :=
  { RaftNode.new 2 [1, 3] noOffset with currentTerm := 1, log := ⟨[⟨1, 1, [7]⟩, ⟨2, 1, [8]⟩], 0, 0⟩ }

/-- The leader of term 2 replaces the second entry and adds a third. -/
theorem acknowledges_iff_example :
    let request : RaftNode × RaftMessage :=
      holdsTwo.handleAppendEntries 2 1 1 1 [⟨2, 2, [9]⟩, ⟨3, 2, [10]⟩] 2
    request.2 = .appendEntriesResponse 2 true 3 ∧
      Acknowledges holdsTwo request.1 1 [⟨2, 2, [9]⟩, ⟨3, 2, [10]⟩] 3 := by
  refine ⟨rfl, (acknowledges_iff holdsTwo _ 2 1 1 1 _ 2 2 3 rfl).mpr ?_⟩
  have hdiffers : ∀ i, ¬ HasTerms holdsTwo.log
      (([⟨2, 2, [9]⟩, ⟨3, 2, [10]⟩] : List LogEntry).take (i + 1)) := by
    intro i h
    exact absurd (h ⟨2, 2, [9]⟩ (List.mem_cons_self ..)) (by decide)
  refine ⟨?_, Nat.zero_le 1, fun i e _ h => absurd h (hdiffers i), fun h => absurd h (hdiffers 1)⟩
  exact (NumberedFrom.nil 1).concat rfl |>.concat rfl

/-- A heartbeat that checks the first entry is answered with the second, which the follower has
from an earlier leader, and commits it. -/
theorem suffix_acknowledged : ¬ ∀ (n n' : RaftNode)
    (term leaderId prevLogIndex prevLogTerm : Nat) (entries : List LogEntry)
    (leaderCommit t matchIndex : Nat),
    n.handleAppendEntries term leaderId prevLogIndex prevLogTerm entries leaderCommit =
        (n', .appendEntriesResponse t true matchIndex) →
      Acknowledges n n' prevLogIndex entries matchIndex := by
  intro h
  exact absurd (h holdsTwo _ 2 1 1 1 [] 2 2 2 rfl).bound (by decide)

end Suture.Raft
