import Suture.Raft.Node

/-!
# Positions and indices

An entry's place in the log and the index it carries move apart only where an entry is
appended that does not continue the log. Each operation has its lemma on the way.
-/

namespace Suture.Raft
set_option autoImplicit false

/-- Entry `k` carries index `start + k + 1`. -/
def NumberedFrom (start : Nat) (entries : List LogEntry) : Prop :=
  ∀ k e, entries[k]? = some e → e.index = start + k + 1

namespace NumberedFrom
variable {start : Nat} {entries : List LogEntry}

theorem nil (start : Nat) : NumberedFrom start [] := by
  intro k e hk
  simp at hk

theorem take (h : NumberedFrom start entries) (n : Nat) : NumberedFrom start (entries.take n) := by
  intro k e hk
  rw [List.getElem?_take] at hk
  split at hk
  · exact h k e hk
  · cases hk

theorem drop (h : NumberedFrom start entries) (n : Nat) :
    NumberedFrom (start + n) (entries.drop n) := by
  intro k e hk
  rw [List.getElem?_drop] at hk
  have := h _ e hk
  omega

theorem concat (h : NumberedFrom start entries) {e : LogEntry}
    (he : e.index = start + entries.length + 1) : NumberedFrom start (entries ++ [e]) := by
  intro k e' hk
  rcases Nat.lt_or_ge k entries.length with hlt | hge
  · rw [List.getElem?_append_left hlt] at hk
    exact h k e' hk
  · rw [List.getElem?_append_right hge] at hk
    have hzero : k - entries.length = 0 := by
      by_contra hne
      rw [List.getElem?_eq_none (by simp; omega)] at hk
      cases hk
    rw [hzero] at hk
    cases hk
    omega

theorem head {e : LogEntry} (h : NumberedFrom start (e :: entries)) : e.index = start + 1 :=
  h 0 e rfl

theorem tail {e : LogEntry} (h : NumberedFrom start (e :: entries)) :
    NumberedFrom (start + 1) entries := by
  intro k e' hk
  have := h (k + 1) e' hk
  omega

theorem getLast?_index (h : NumberedFrom start entries) {e : LogEntry}
    (he : entries.getLast? = some e) : e.index = start + entries.length := by
  rw [List.getLast?_eq_getElem?] at he
  have := h _ e he
  have hpos : entries ≠ [] := by
    rintro rfl
    cases he
  have := List.length_pos_of_ne_nil hpos
  omega

theorem mem_iff (h : NumberedFrom start entries) {e : LogEntry} :
    e ∈ entries ↔ start < e.index ∧ entries[e.index - start - 1]? = some e := by
  constructor
  · intro he
    obtain ⟨k, hk⟩ := List.mem_iff_getElem?.mp he
    have hindex := h k e hk
    rw [hindex]
    refine ⟨by omega, ?_⟩
    rwa [show start + k + 1 - start - 1 = k by omega]
  · intro he
    exact List.mem_of_getElem? he.2

/-- The entries before an index are those that carry a smaller one. -/
theorem filter_lt (h : NumberedFrom start entries) (index : Nat) :
    entries.filter (fun e => decide (e.index < index)) = entries.take (index - start - 1) := by
  induction entries generalizing start with
  | nil => simp
  | cons e entries ih =>
    have he := h.head
    by_cases hlt : e.index < index
    · rw [List.filter_cons_of_pos (by simpa using hlt), ih h.tail,
        show index - start - 1 = (index - (start + 1) - 1) + 1 by omega, List.take_succ_cons]
    · rw [List.filter_cons_of_neg (by simpa using hlt), ih h.tail,
        show index - (start + 1) - 1 = 0 by omega, show index - start - 1 = 0 by omega]
      rfl

theorem filter_ge (h : NumberedFrom start entries) (index : Nat) :
    entries.filter (fun e => decide (index ≤ e.index)) = entries.drop (index - start - 1) := by
  induction entries generalizing start with
  | nil => simp
  | cons e entries ih =>
    have he := h.head
    by_cases hle : index ≤ e.index
    · rw [List.filter_cons_of_pos (by simpa using hle), ih h.tail,
        show index - (start + 1) - 1 = 0 by omega, show index - start - 1 = 0 by omega]
      rfl
    · rw [List.filter_cons_of_neg (by simpa using hle), ih h.tail,
        show index - start - 1 = (index - (start + 1) - 1) + 1 by omega, List.drop_succ_cons]

end NumberedFrom

namespace RaftLog

/-- The `k`-th stored entry has index `snapshotIndex + k + 1`. -/
def Aligned (log : RaftLog) : Prop := NumberedFrom log.snapshotIndex log.entries

/-- The operations that take an index find the entry that carries it. -/
structure Addressed (log : RaftLog) : Prop where
  get : ∀ i e, log.get i = some e ↔ e ∈ log.entries ∧ e.index = i
  termFor : ∀ i t, log.termFor i = some t ↔
    (0 < log.snapshotIndex ∧ i = log.snapshotIndex ∧ t = log.snapshotTerm) ∨
      ∃ e ∈ log.entries, e.index = i ∧ e.term = t
  entriesFrom : ∀ i, log.snapshotIndex < i →
    log.entriesFrom i = log.entries.filter fun e => decide (i ≤ e.index)
  lastIndex : log.lastIndex = (log.entries.getLast?.map LogEntry.index).getD log.snapshotIndex
  truncateFrom : ∀ i, log.snapshotIndex < i →
    (log.truncateFrom i).entries = log.entries.filter fun e => decide (e.index < i)

variable {log : RaftLog}

theorem Aligned.new : RaftLog.new.Aligned := .nil 0

theorem Aligned.get_eq_some (h : log.Aligned) {i : Nat} {e : LogEntry} :
    log.get i = some e ↔ e ∈ log.entries ∧ e.index = i := by
  unfold RaftLog.get
  constructor
  · intro hget
    split at hget
    · cases hget
    · have hindex := h _ e hget
      exact ⟨List.mem_of_getElem? hget, by omega⟩
  · rintro ⟨he, rfl⟩
    obtain ⟨hpos, hget⟩ := h.mem_iff.mp he
    rw [if_neg (by omega)]
    exact hget

theorem Aligned.addressed (h : log.Aligned) : log.Addressed where
  get _ _ := h.get_eq_some
  termFor i t := by
    unfold RaftLog.termFor
    split
    · rename_i hi
      constructor
      · intro ht
        exact .inl ⟨hi.2, hi.1, (Option.some.inj ht).symm⟩
      · rintro (⟨_, _, rfl⟩ | ⟨e, he, hindex, _⟩)
        · rfl
        · have := (h.mem_iff.mp he).1
          omega
    · rename_i hi
      rw [Option.map_eq_some_iff]
      constructor
      · rintro ⟨e, hget, hterm⟩
        obtain ⟨he, hindex⟩ := h.get_eq_some.mp hget
        exact .inr ⟨e, he, hindex, hterm⟩
      · rintro (⟨hpos, heq, _⟩ | ⟨e, he, hindex, hterm⟩)
        · exact absurd ⟨heq, hpos⟩ hi
        · exact ⟨e, h.get_eq_some.mpr ⟨he, hindex⟩, hterm⟩
  entriesFrom i hi := by
    unfold RaftLog.entriesFrom
    rw [h.filter_ge]
    split
    · rename_i hnone
      rcases hnone with hzero | hempty
      · omega
      · rw [hempty, List.drop_nil]
    · rw [if_neg (by omega)]
  lastIndex := by
    unfold RaftLog.lastIndex
    cases hlast : log.entries.getLast? with
    | none =>
      rw [List.getLast?_eq_none_iff.mp hlast]
      rfl
    | some e => exact (h.getLast?_index hlast).symm
  truncateFrom i hi := by
    unfold RaftLog.truncateFrom
    rw [if_neg (by omega), h.filter_lt]

theorem Aligned.append (h : log.Aligned) (term : Nat) (command : List UInt8) :
    (log.append term command).1.Aligned := NumberedFrom.concat h rfl

theorem Aligned.appendEntry (h : log.Aligned) {e : LogEntry} (he : e.index = log.lastIndex + 1) :
    (log.appendEntry e).Aligned := NumberedFrom.concat h he

theorem Aligned.truncateFrom (h : log.Aligned) (index : Nat) : (log.truncateFrom index).Aligned := by
  unfold RaftLog.truncateFrom
  split
  · exact h
  · exact h.take _

theorem Aligned.compact (h : log.Aligned) (index : Nat) : (log.compact index).Aligned := by
  unfold RaftLog.compact
  split
  · exact h
  · split
    · exact h
    · split
      · exact .nil _
      · have hdrop := h.drop (index - log.snapshotIndex)
        rwa [show log.snapshotIndex + (index - log.snapshotIndex) = index by omega] at hdrop

theorem Aligned.setSnapshot (h : log.Aligned) (index term : Nat) :
    (log.setSnapshot index term).Aligned := by
  unfold RaftLog.setSnapshot
  split
  · exact .nil _
  · exact h

/-- Compaction forgets no index. -/
theorem Aligned.compact_lastIndex (h : log.Aligned) (index : Nat) :
    (log.compact index).lastIndex = log.lastIndex := by
  unfold RaftLog.compact
  split
  · rfl
  · split
    · rfl
    · rename_i hlast
      split
      · have := h.getLast?_index hlast
        simp only [RaftLog.lastIndex, List.length_nil]
        omega
      · simp only [RaftLog.lastIndex, List.length_drop] at *
        omega

/-- An entry that the log stores in its place, or already has as its snapshot's last. -/
def Fits (log : RaftLog) (e : LogEntry) : Prop :=
  log.snapshotIndex < e.index ∨ log.termFor e.index = some e.term

instance (log : RaftLog) : DecidablePred log.Fits := fun _ => inferInstanceAs (Decidable (_ ∨ _))

end RaftLog

/-! ### Received entries -/

open RaftLog

@[simp] theorem storeEntry_snapshot (log : RaftLog) (e : LogEntry) :
    (RaftNode.storeEntry log e).snapshotIndex = log.snapshotIndex ∧
      (RaftNode.storeEntry log e).snapshotTerm = log.snapshotTerm := by
  unfold RaftNode.storeEntry
  split
  · split
    · refine ⟨by simp, ?_⟩
      simp only [RaftLog.appendEntry, RaftLog.truncateFrom]
      split <;> rfl
    · exact ⟨rfl, rfl⟩
  · exact ⟨rfl, rfl⟩

theorem foldl_storeEntry_snapshot (entries : List LogEntry) (log : RaftLog) :
    (entries.foldl RaftNode.storeEntry log).snapshotIndex = log.snapshotIndex ∧
      (entries.foldl RaftNode.storeEntry log).snapshotTerm = log.snapshotTerm := by
  induction entries generalizing log with
  | nil => exact ⟨rfl, rfl⟩
  | cons e rest ih =>
    have := storeEntry_snapshot log e
    rw [List.foldl_cons, (ih _).1, (ih _).2]
    exact this

theorem termFor_of_le {log : RaftLog} {i : Nat} (h : i ≤ log.snapshotIndex) :
    log.termFor i =
      if i = log.snapshotIndex ∧ 0 < log.snapshotIndex then some log.snapshotTerm else none := by
  unfold RaftLog.termFor
  split
  · rfl
  · rw [RaftLog.get, if_pos (.inr h)]
    rfl

theorem termFor_isSome_le {log : RaftLog} {i t : Nat} (h : log.termFor i = some t) :
    log.snapshotIndex ≤ i ∧ i ≤ log.lastIndex := by
  rcases Nat.lt_or_ge log.snapshotIndex i with hlt | hle
  · have hne : ¬ (i = log.snapshotIndex ∧ 0 < log.snapshotIndex) := by omega
    rw [RaftLog.termFor, if_neg hne, RaftLog.get, if_neg (by omega), Option.map_eq_some_iff] at h
    obtain ⟨e, he, _⟩ := h
    have := (List.getElem?_eq_some_iff.mp he).1
    exact ⟨by omega, by unfold RaftLog.lastIndex; omega⟩
  · rw [termFor_of_le hle] at h
    split at h
    · unfold RaftLog.lastIndex
      omega
    · cases h

theorem RaftLog.Fits.storeEntry {log : RaftLog} {e : LogEntry} (h : log.Fits e) (stored : LogEntry) :
    (RaftNode.storeEntry log stored).Fits e := by
  obtain ⟨hindex, hterm⟩ := storeEntry_snapshot log stored
  rcases Nat.lt_or_ge log.snapshotIndex e.index with hlt | hle
  · exact .inl (by rwa [hindex])
  · refine .inr ?_
    rw [termFor_of_le (by rwa [hindex]), hindex, hterm, ← termFor_of_le hle]
    exact h.resolve_left (by omega)

/-- One received entry that continues the log, or lies inside it, keeps it aligned. -/
theorem storeEntry_aligned {log : RaftLog} {e : LogEntry} (h : log.Aligned) (hfits : log.Fits e)
    (hnext : e.index ≤ log.lastIndex + 1) :
    (RaftNode.storeEntry log e).Aligned ∧ e.index ≤ (RaftNode.storeEntry log e).lastIndex := by
  unfold RaftNode.storeEntry
  cases hterm : log.termFor e.index with
  | none =>
    have hlt : log.snapshotIndex < e.index := hfits.resolve_right (by rw [hterm]; nofun)
    have hend : e.index = log.lastIndex + 1 := by
      by_contra hne
      have hlen : e.index - log.snapshotIndex - 1 < log.entries.length := by
        unfold RaftLog.lastIndex at hnext hne
        omega
      rw [RaftLog.termFor, if_neg (by omega), RaftLog.get, if_neg (by omega),
        List.getElem?_eq_getElem hlen] at hterm
      cases hterm
    refine ⟨h.appendEntry hend, ?_⟩
    simp only [RaftLog.lastIndex, appendEntry_snapshotIndex, appendEntry_entries,
      List.length_append, List.length_singleton] at *
    omega
  | some t =>
    have hrange := termFor_isSome_le hterm
    dsimp only
    split
    · rename_i hne
      have hlt : log.snapshotIndex < e.index := by
        rcases hfits with hlt | hsame
        · exact hlt
        · exact absurd (Option.some.inj (hterm.symm.trans hsame)) hne
      have hlen : (log.truncateFrom e.index).entries.length = e.index - log.snapshotIndex - 1 := by
        rw [RaftLog.truncateFrom, if_neg (by omega), List.length_take]
        unfold RaftLog.lastIndex at hrange
        omega
      have hend : e.index = (log.truncateFrom e.index).lastIndex + 1 := by
        rw [RaftLog.lastIndex, truncateFrom_snapshotIndex, hlen]
        omega
      refine ⟨(h.truncateFrom e.index).appendEntry hend, ?_⟩
      simp only [RaftLog.lastIndex, appendEntry_snapshotIndex, appendEntry_entries,
        List.length_append, List.length_singleton] at *
      omega
    · exact ⟨h, hrange.2⟩

theorem foldl_storeEntry_aligned {entries : List LogEntry} {log : RaftLog} {start : Nat}
    (h : log.Aligned) (hnum : NumberedFrom start entries) (hstart : start ≤ log.lastIndex)
    (hfits : ∀ e ∈ entries, log.Fits e) : (entries.foldl RaftNode.storeEntry log).Aligned := by
  induction entries generalizing log start with
  | nil => exact h
  | cons e entries ih =>
    have he := hnum.head
    obtain ⟨hstored, hlast⟩ :=
      storeEntry_aligned h (hfits e (List.mem_cons_self ..)) (by omega)
    refine ih hstored hnum.tail (by omega) fun e' he' => ?_
    exact (hfits e' (List.mem_cons_of_mem _ he')).storeEntry e

theorem prevMatches_le {log : RaftLog} {prevLogIndex prevLogTerm : Nat}
    (h : RaftNode.prevMatches log prevLogIndex prevLogTerm = true) : prevLogIndex ≤ log.lastIndex := by
  rw [RaftNode.prevMatches, Bool.or_eq_true, decide_eq_true_iff, decide_eq_true_iff] at h
  rcases h with rfl | hterm
  · exact Nat.zero_le _
  · exact (termFor_isSome_le hterm).2

/-- Below a matching entry nothing is sent again, except to a log that starts over. -/
theorem fits_of_prevMatches {log : RaftLog} {prevLogIndex prevLogTerm : Nat}
    {entries : List LogEntry} (h : RaftNode.prevMatches log prevLogIndex prevLogTerm = true)
    (hpos : 0 < prevLogIndex ∨ log.snapshotIndex = 0) (hnum : NumberedFrom prevLogIndex entries) :
    ∀ e ∈ entries, log.Fits e := by
  intro e he
  have hindex := (hnum.mem_iff.mp he).1
  refine .inl ?_
  rw [RaftNode.prevMatches, Bool.or_eq_true, decide_eq_true_iff, decide_eq_true_iff] at h
  rcases h with rfl | hterm
  · omega
  · have := (termFor_isSome_le hterm).1
    omega

end Suture.Raft
