import Mathlib.Data.List.Infix
import Suture.Consensus.Election

/-!
# Committed entries are never lost

The replication half of the protocol. The central invariants are `kept`,
`keptBallot` and `inherited`: a confirmed part of a term's log stays with the
replica that confirmed it, with the votes it casts, and with the leaders it helps
elect, as long as every leader in between carried it. None of them mentions a
commit, so each is preserved act by act; `leader_completeness` then follows by
induction on the term.
-/

namespace Suture.Consensus
set_option autoImplicit false
set_option linter.unusedSectionVars false
open Foundation

universe u v
variable {ν : Type u} {ε : Type v} [DecidableEq ν] [Stamped ε]

def lastTerm (log : List ε) : Nat := (log.getLast?.map term).getD 0

/-- The election restriction between the candidate's log and the voter's. -/
def AtLeastAsNew (candidate voter : List ε) : Prop :=
  lastTerm voter < lastTerm candidate ∨
    (lastTerm candidate = lastTerm voter ∧ voter.length ≤ candidate.length)

/-- Each entry, with everything before it, is part of the log of its own term. -/
def Grounded (w : World ν ε) (log : List ε) : Prop :=
  ∀ p e, p ++ [e] <+: log → p ++ [e] <+: w.termLog (term e)

/-- Every leader elected after term `t`, up to term `u`, has the first `n` entries of term `t`. -/
def Carried (w : World ν ε) (t n u : Nat) : Prop :=
  ∀ s, t < s → s ≤ u → w.leader s ≠ none → (w.termLog t).take n <+: w.termLog s

structure Committed (nodes : Finset ν) (w : World ν ε) (t n : Nat) : Prop where
  le : n ≤ (w.termLog t).length
  own : ∃ e ∈ (w.termLog t).take n, term e = t
  quorum : ∃ Q, IsQuorum nodes Q ∧ ∀ v ∈ Q, n ≤ w.acked v t

/-- The first `c` entries of a replica's log are chosen, in a term not after `u`. -/
def Chosen (nodes : Finset ν) (w : World ν ε) (u : Nat) (log : List ε) (c : Nat) : Prop :=
  c = 0 ∨ ∃ t n, t ≤ u ∧ c ≤ n ∧ Committed nodes w t n ∧ (w.termLog t).take c <+: log

/-- What replication adds to `ElectionGuard`. A follower keeps its log when it
already starts with the leader's part and replaces it by that part otherwise. -/
def LogGuard (nodes : Finset ν) (w : World ν ε) : Act ν ε → Prop
  | .vote i c => ∃ log, w.ballot c (w.replica i).term = some (c, log) ∧
      AtLeastAsNew log (w.replica i).log
  | .append i e => term e = (w.replica i).term
  | .accept i log ack =>
      let t := (w.replica i).term
      (∃ part, part <+: w.termLog t ∧
        ((part <+: (w.replica i).log ∧ log = (w.replica i).log) ∨
          (¬ part <+: (w.replica i).log ∧ log = part))) ∧
      ack ≤ (w.termLog t).length ∧ (w.termLog t).take ack <+: log
  | .advance i c => Chosen nodes w (w.replica i).term (w.replica i).log c
  | .bump _ _ | .retire _ | .stand _ | .collect _ _ | .lead _ => True

structure HistoryInv (w : World ν ε) : Prop where
  vacant : ∀ t, w.leader t = none → w.termLog t = []
  grounded : ∀ t, Grounded w (w.termLog t)
  bound : ∀ t, ∀ e ∈ w.termLog t, term e ≤ t
  ballotLog : ∀ v t c log, w.ballot v t = some (c, log) → Grounded w log
  newest : ∀ v t c log, w.ballot v t = some (c, log) →
    ∃ candidate, w.ballot c t = some (c, candidate) ∧ AtLeastAsNew candidate log
  ackLe : ∀ v t, w.acked v t ≤ (w.termLog t).length
  keptBallot : ∀ v t n u c log, n ≤ w.acked v t → t < u → w.ballot v u = some (c, log) →
    Carried w t n u → (w.termLog t).take n <+: log
  inherited : ∀ v t n u, n ≤ w.acked v t → t < u → w.leader u ≠ none → v ∈ w.electorate u →
    (∃ e ∈ (w.termLog t).take n, term e = t) → Carried w t n (u - 1) →
    (w.termLog t).take n <+: w.termLog u

structure ReplicaInv (nodes : Finset ν) (w : World ν ε) (i : ν) : Prop where
  running : (w.replica i).role = .candidate →
    w.ballot i (w.replica i).term = some (i, (w.replica i).log)
  leading : (w.replica i).role = .leader → w.termLog (w.replica i).term = (w.replica i).log
  holding : (w.replica i).role = .leader → (w.replica i).log.length ≤ w.acked i (w.replica i).term
  grounded : Grounded w (w.replica i).log
  bound : ∀ e ∈ (w.replica i).log, term e ≤ (w.replica i).term
  ackPast : ∀ t, w.acked i t ≠ 0 → t ≤ (w.replica i).term
  kept : ∀ t n, n ≤ w.acked i t → Carried w t n (w.replica i).term →
    (w.termLog t).take n <+: (w.replica i).log
  chosen : Chosen nodes w (w.replica i).term (w.replica i).log (w.replica i).commit

structure Inv (nodes : Finset ν) (w : World ν ε) : Prop where
  election : ElectionInv nodes w
  history : HistoryInv w
  replica : ∀ i, ReplicaInv nodes w i

/-! ### Lists that start alike -/

theorem lastTerm_append (p : List ε) (e : ε) : lastTerm (p ++ [e]) = term e := by
  simp [lastTerm]

theorem exists_last {log : List ε} (h : log ≠ []) : ∃ p e, log = p ++ [e] :=
  ⟨log.dropLast, log.getLast h, (List.dropLast_append_getLast h).symm⟩

theorem AtLeastAsNew.refl (log : List ε) : AtLeastAsNew log log := .inr ⟨rfl, Nat.le_refl _⟩

theorem take_eq_of_isPrefix {p l : List ε} (h : p <+: l) {n : Nat} (hn : n ≤ p.length) :
    l.take n = p.take n := by
  obtain ⟨s, rfl⟩ := h
  exact List.take_append_of_le_length hn

/-- What a log shares with the leader survives taking over the leader's part. -/
theorem keep_shared {p log part leaderLog log' : List ε} (hlog : p <+: log)
    (hleader : p <+: leaderLog) (hpart : part <+: leaderLog)
    (h : (part <+: log ∧ log' = log) ∨ (¬ part <+: log ∧ log' = part)) : p <+: log' := by
  rcases h with ⟨_, rfl⟩ | ⟨hnot, rfl⟩
  · exact hlog
  · rcases Nat.le_total p.length log'.length with hle | hle
    · exact List.prefix_of_prefix_length_le hleader hpart hle
    · exact absurd ((List.prefix_of_prefix_length_le hpart hleader hle).trans hlog) hnot

theorem Grounded.of_isPrefix {w : World ν ε} {p log : List ε} (h : Grounded w log) (hp : p <+: log) :
    Grounded w p := fun q e hq => h q e (hq.trans hp)

theorem Grounded.lastTerm {w : World ν ε} {log : List ε} (h : Grounded w log) (hne : log ≠ []) :
    log <+: w.termLog (lastTerm log) := by
  obtain ⟨p, e, rfl⟩ := exists_last hne
  rw [lastTerm_append]
  exact h p e (List.prefix_refl _)

/-- Log matching: same length, same last term, same log. -/
theorem Grounded.matching {w : World ν ε} {p q : List ε} {d e : ε} (hp : Grounded w (p ++ [d]))
    (hq : Grounded w (q ++ [e])) (hterm : term d = term e) (hlen : p.length = q.length) :
    p ++ [d] = q ++ [e] := by
  have h1 := hp p d (List.prefix_refl _)
  have h2 := hq q e (List.prefix_refl _)
  rw [hterm] at h1
  exact (List.prefix_of_prefix_length_le h1 h2 (by simp [hlen])).eq_of_length (by simp [hlen])

/-! ### Growth of the history -/

structure Grows (w w' : World ν ε) : Prop where
  leader : ∀ t, w.leader t ≠ none → w'.leader t ≠ none
  termLog : ∀ t, w.termLog t <+: w'.termLog t
  /-- What an elected leader adds carries its own term. -/
  added : ∀ t p, w.leader t ≠ none → p <+: w'.termLog t → (∀ e ∈ p, term e < t) →
    p <+: w.termLog t
  acked : ∀ v t, w.acked v t ≤ w'.acked v t

theorem Grows.of_same {w w' : World ν ε} (hleader : w'.leader = w.leader)
    (htermLog : w'.termLog = w.termLog) (hacked : ∀ v t, w.acked v t ≤ w'.acked v t) :
    Grows w w' :=
  ⟨fun _ h => hleader ▸ h, fun t => by rw [htermLog],
    fun _ _ _ hp _ => htermLog ▸ hp, hacked⟩

theorem Grounded.grow {w w' : World ν ε} (hg : Grows w w') {log : List ε} (h : Grounded w log) :
    Grounded w' log := fun p e hp => (h p e hp).trans (hg.termLog _)

theorem HistoryInv.take_grow {w w' : World ν ε} (h : HistoryInv w) (hg : Grows w w') {v : ν}
    {t n : Nat} (hn : n ≤ w.acked v t) : (w'.termLog t).take n = (w.termLog t).take n :=
  take_eq_of_isPrefix (hg.termLog t) (hn.trans (h.ackLe v t))

theorem Carried.mono {w : World ν ε} {t n u u' : Nat} (h : Carried w t n u') (hu : u ≤ u') :
    Carried w t n u := fun s hts hsu => h s hts (hsu.trans hu)

/-- A part carried at a later point of the run was carried before. -/
theorem Carried.shrink {w w' : World ν ε} (hw : HistoryInv w) (hg : Grows w w') {v : ν}
    {t n u : Nat} (hn : n ≤ w.acked v t) (h : Carried w' t n u) : Carried w t n u := by
  intro s hts hsu hs
  have hp := h s hts hsu (hg.leader s hs)
  rw [hw.take_grow hg hn] at hp
  refine hg.added s _ hs hp fun e he => ?_
  have := hw.bound t e (List.mem_of_mem_take he)
  omega

theorem Committed.grow {nodes : Finset ν} {w w' : World ν ε} (hg : Grows w w') {t n : Nat}
    (h : Committed nodes w t n) : Committed nodes w' t n := by
  have htake : (w'.termLog t).take n = (w.termLog t).take n :=
    take_eq_of_isPrefix (hg.termLog t) h.le
  refine ⟨h.le.trans (hg.termLog t).length_le, htake ▸ h.own, ?_⟩
  obtain ⟨Q, hQ, hack⟩ := h.quorum
  exact ⟨Q, hQ, fun v hv => (hack v hv).trans (hg.acked v t)⟩

theorem Chosen.grow {nodes : Finset ν} {w w' : World ν ε} (hg : Grows w w') {u u' : Nat}
    {log log' : List ε} {c : Nat} (hu : u ≤ u') (h : Chosen nodes w u log c)
    (hlog : ∀ t n, t ≤ u → c ≤ n → Committed nodes w t n → (w.termLog t).take c <+: log →
      (w.termLog t).take c <+: log') : Chosen nodes w' u' log' c := by
  rcases h with h0 | ⟨t, n, htu, hcn, hcomm, hp⟩
  · exact .inl h0
  · refine .inr ⟨t, n, htu.trans hu, hcn, hcomm.grow hg, ?_⟩
    rw [take_eq_of_isPrefix (hg.termLog t) (hcn.trans hcomm.le)]
    exact hlog t n htu hcn hcomm hp

theorem Chosen.mono {nodes : Finset ν} {w : World ν ε} {u : Nat} {log : List ε} {c c' : Nat}
    (h : Chosen nodes w u log c) (hc : c' ≤ c) : Chosen nodes w u log c' := by
  rcases h with rfl | ⟨t, n, htu, hcn, hcomm, hp⟩
  · exact .inl (Nat.le_zero.mp hc)
  · exact .inr ⟨t, n, htu, hc.trans hcn, hcomm, (List.take_prefix_take_left hc).trans hp⟩

/-! ### Leader completeness -/

theorem leader_completeness {nodes : Finset ν} {w : World ν ε} (he : ElectionInv nodes w)
    (hh : HistoryInv w) {t n : Nat} (hc : Committed nodes w t n) :
    ∀ u, t < u → w.leader u ≠ none → (w.termLog t).take n <+: w.termLog u := by
  intro u
  induction u using Nat.strong_induction_on with
  | _ u ih =>
    intro htu hu
    obtain ⟨i, hi⟩ := Option.ne_none_iff_exists'.mp hu
    obtain ⟨Q, hQ, hack⟩ := hc.quorum
    obtain ⟨v, hvQ, hvE⟩ := hQ.meet (he.elected u i hi).1
    refine hh.inherited v t n u (hack v hvQ) htu hu hvE hc.own ?_
    intro s hts hsu hs
    exact ih s (by omega) hts hs

/-- Any two chosen parts start alike. -/
theorem Committed.comparable {nodes : Finset ν} {w : World ν ε} (he : ElectionInv nodes w)
    (hh : HistoryInv w) {t n t' n' : Nat} (h : Committed nodes w t n)
    (h' : Committed nodes w t' n') (htt : t ≤ t') (c : Nat) (hc : c ≤ n) (hc' : c ≤ n') :
    (w.termLog t).take c = (w.termLog t').take c := by
  have hlen : ((w.termLog t).take c).length = ((w.termLog t').take c).length := by
    have := h.le
    have := h'.le
    simp only [List.length_take]
    omega
  have hp : (w.termLog t).take c <+: w.termLog t' := by
    rcases Nat.eq_or_lt_of_le htt with rfl | hlt
    · exact List.take_prefix _ _
    · have hu : w.leader t' ≠ none := by
        intro hnone
        obtain ⟨e, he', _⟩ := h'.own
        rw [hh.vacant t' hnone] at he'
        simp at he'
      have := leader_completeness he hh h t' hlt hu
      exact (List.take_prefix_take_left hc).trans this
  exact (List.prefix_of_prefix_length_le hp (List.take_prefix _ _) (by omega)).eq_of_length hlen

theorem Chosen.agree {nodes : Finset ν} {w : World ν ε} (he : ElectionInv nodes w)
    (hh : HistoryInv w) {u u' c c' k : Nat} {log log' : List ε} (h : Chosen nodes w u log c)
    (h' : Chosen nodes w u' log' c') (hk : k < c) (hk' : k < c') :
    log[k]? = log'[k]? ∧ k < log.length := by
  rcases h with h0 | ⟨t, n, _, hcn, hcomm, hp⟩
  · omega
  rcases h' with h0 | ⟨t', n', _, hcn', hcomm', hp'⟩
  · omega
  have hread : ∀ {l : List ε} {s m d : Nat}, Committed nodes w s m → d ≤ m → k < d →
      (w.termLog s).take d <+: l → l[k]? = ((w.termLog s).take (k + 1))[k]? ∧ k < l.length := by
    intro l s m d hcm hdm hkd hpl
    have hlen : ((w.termLog s).take d).length = d := by
      have := hcm.le
      simp only [List.length_take]
      omega
    refine ⟨?_, by have := hpl.length_le; omega⟩
    obtain ⟨r, rfl⟩ := hpl
    rw [List.getElem?_append_left (by omega), List.getElem?_take_of_lt hkd,
      List.getElem?_take_of_lt (Nat.lt_succ_self k)]
  obtain ⟨h1, hlen⟩ := hread hcomm hcn hk hp
  obtain ⟨h2, _⟩ := hread hcomm' hcn' hk' hp'
  refine ⟨?_, hlen⟩
  rw [h1, h2]
  rcases Nat.le_total t t' with hle | hle
  · rw [hcomm.comparable he hh hcomm' hle (k + 1) (by omega) (by omega)]
  · rw [hcomm'.comparable he hh hcomm hle (k + 1) (by omega) (by omega)]

/-! ### What one act changes -/

section Act
variable {nodes : Finset ν} {w : World ν ε} {a : Act ν ε}

theorem term_apply (ha : ElectionGuard nodes w a) (j : ν) :
    (w.replica j).term ≤ ((w.apply a).replica j).term := by
  by_cases hj : j = a.actor
  · subst j
    cases a with
    | bump i t =>
      have ht : (w.replica i).term < t := ha
      simp only [Act.actor, World.apply, World.setReplica_replica, if_pos]
      omega
    | stand i => simp [Act.actor, World.apply]
    | retire i | collect i _ | advance i _ => simp [Act.actor, World.apply]
    | vote i _ | lead i | append i _ | accept i _ _ =>
      simp [Act.actor, World.apply, World.setReplica]
  · rw [w.apply_replica_ne a hj]

/-- Confirmations are recorded for the acting replica, in its own term. -/
theorem acked_apply {v : ν} {t n : Nat} (hn : n ≤ (w.apply a).acked v t) :
    n ≤ w.acked v t ∨ (v = a.actor ∧ t = (w.replica v).term) := by
  by_cases hv : v = a.actor ∧ t = (w.replica v).term
  · exact .inr hv
  · left
    have hv' : ¬ (v = a.actor ∧ t = (w.replica a.actor).term) := by
      rintro ⟨rfl, ht⟩
      exact hv ⟨rfl, ht⟩
    cases a with
    | lead i | append i _ | accept i _ _ =>
      have hvi : ¬ (v = i ∧ t = (w.replica i).term) := hv'
      simpa only [World.apply, set₂_apply, if_neg hvi] using hn
    | bump _ _ | retire _ | stand _ | vote _ _ | collect _ _ | advance _ _ => exact hn

theorem leader_apply {t : Nat} (h : (w.apply a).leader t ≠ none) :
    w.leader t ≠ none ∨ ∃ i, a = .lead i ∧ t = (w.replica i).term := by
  cases a with
  | lead i =>
    simp only [World.apply, Function.update_apply] at h
    split at h
    · rename_i ht
      exact .inr ⟨i, rfl, ht⟩
    · exact .inl h
  | bump _ _ | retire _ | stand _ | vote _ _ | collect _ _ | append _ _ | accept _ _ _
  | advance _ _ => exact .inl h

/-- Only a leader's log of its own term moves, and it becomes what the leader then holds. -/
theorem termLog_apply (h : Inv nodes w) (ha : ElectionGuard nodes w a) (t : Nat) :
    (w.apply a).termLog t = w.termLog t ∨
      ((w.apply a).leader t ≠ none ∧ t = ((w.apply a).replica a.actor).term ∧
        (w.apply a).termLog t = ((w.apply a).replica a.actor).log) := by
  cases a with
  | lead i =>
    by_cases ht : t = (w.replica i).term
    · right
      simp [World.apply, World.setReplica, Act.actor, ht]
    · left
      simp [World.apply, ht]
  | append i e =>
    by_cases ht : t = (w.replica i).term
    · right
      have hl : w.leader t = some i := ht ▸ h.election.reigns i ha
      simp only [World.apply, World.setReplica, Act.actor, Function.update_self]
      refine ⟨by rw [hl]; simp, ht, by rw [ht, Function.update_self]⟩
    · left
      simp [World.apply, ht]
  | bump _ _ | retire _ | stand _ | vote _ _ | collect _ _ | accept _ _ _ | advance _ _ =>
    exact .inl rfl

/-- A new ballot is cast with the log the replica holds, by a replica that does nothing else. -/
theorem ballot_apply (hl : LogGuard nodes w a) {v c : ν} {u : Nat}
    {log : List ε} (hb : (w.apply a).ballot v u = some (c, log)) :
    w.ballot v u = some (c, log) ∨
      (log = (w.replica v).log ∧ (w.replica v).term ≤ u ∧ (w.apply a).acked = w.acked ∧
        ∃ candidate, (w.apply a).ballot c u = some (c, candidate) ∧
          AtLeastAsNew candidate log) := by
  cases a with
  | stand i =>
    by_cases hv : v = i ∧ u = (w.replica i).term + 1
    · right
      obtain ⟨rfl, rfl⟩ := hv
      simp only [World.apply, set₂_apply, and_self, if_true, Option.some.injEq,
        Prod.mk.injEq] at hb
      obtain ⟨rfl, rfl⟩ := hb
      exact ⟨rfl, by omega, rfl, (w.replica v).log, by simp [World.apply], .refl _⟩
    · left
      simpa only [World.apply, set₂_apply, if_neg hv] using hb
  | vote i d =>
    by_cases hv : v = i ∧ u = (w.replica i).term
    · obtain ⟨rfl, rfl⟩ := hv
      simp only [World.apply, set₂_apply, and_self, if_true] at hb
      cases hold : w.ballot v (w.replica v).term with
      | some b =>
        left
        rw [hold] at hb
        exact hb
      | none =>
        right
        rw [hold] at hb
        obtain ⟨rfl, rfl⟩ := Prod.mk.inj (Option.some.inj hb)
        obtain ⟨candidate, hc, hnew⟩ := hl
        exact ⟨rfl, Nat.le_refl _, rfl, candidate, ElectionInv.vote_keeps _ _ _ hc, hnew⟩
    · left
      simpa only [World.apply, set₂_apply, if_neg hv] using hb
  | bump _ _ | retire _ | collect _ _ | lead _ | append _ _ | accept _ _ _ | advance _ _ =>
    exact .inl hb

theorem Inv.grows (h : Inv nodes w) (ha : ElectionGuard nodes w a) (hl : LogGuard nodes w a) :
    Grows w (w.apply a) := by
  cases a with
  | lead i =>
    have hnone := h.election.leader_eq_none ha.1 ha.2
    have hempty := h.history.vacant _ hnone
    refine ⟨fun t ht => ?_, fun t => ?_, fun t p ht hp _ => ?_, fun v t => ?_⟩
    · simp only [World.apply, Function.update_apply]
      split
      · simp
      · exact ht
    · simp only [World.apply, Function.update_apply]
      split
      · rename_i ht
        rw [ht, hempty]
        exact List.nil_prefix
      · exact List.prefix_refl _
    · have hne : t ≠ (w.replica i).term := by
        rintro rfl
        exact ht hnone
      simpa only [World.apply, Function.update_of_ne hne] using hp
    · simp only [World.apply, set₂_apply]
      split
      · rename_i hvt
        have hack := h.history.ackLe v t
        rw [hvt.2, hempty] at hack
        have h0 : w.acked v t = 0 := by
          rw [hvt.2]
          exact Nat.le_zero.mp hack
        omega
      · exact Nat.le_refl _
  | append i e =>
    have hlog := (h.replica i).leading ha
    have he : term e = (w.replica i).term := hl
    refine ⟨fun t ht => ht, fun t => ?_, fun t p ht hp hlt => ?_, fun v t => ?_⟩
    · simp only [World.apply, Function.update_apply]
      split
      · rename_i ht
        rw [ht, hlog]
        exact List.prefix_append _ _
      · exact List.prefix_refl _
    · simp only [World.apply, Function.update_apply] at hp
      split at hp
      · rename_i ht
        rw [ht, hlog]
        rcases List.prefix_concat_iff.mp hp with hall | hp'
        · have := hlt e (by simp [hall])
          omega
        · exact hp'
      · exact hp
    · simp only [World.apply, set₂_apply]
      split
      · rename_i hvt
        have hack := h.history.ackLe v t
        rw [hvt.2, hlog] at hack
        rw [hvt.2]
        omega
      · exact Nat.le_refl _
  | accept i log ack =>
    refine Grows.of_same rfl rfl fun v t => ?_
    simp only [World.apply, set₂_apply]
    split
    · rename_i hvt
      rw [hvt.1, hvt.2]
      exact Nat.le_max_left _ _
    · exact Nat.le_refl _
  | bump _ _ | retire _ | stand _ | vote _ _ | collect _ _ | advance _ _ =>
    exact Grows.of_same rfl rfl fun _ _ => Nat.le_refl _

/-- The log of a replica changes only by a leader's new entry or by what the term's
leader sent; what it shares with that leader stays. -/
theorem log_apply (h : Inv nodes w) (hl : LogGuard nodes w a) (j : ν) {p : List ε}
    (hp : p <+: (w.replica j).log)
    (hleader : w.leader (w.replica j).term ≠ none → p <+: w.termLog (w.replica j).term) :
    p <+: ((w.apply a).replica j).log := by
  by_cases hj : j = a.actor
  · subst j
    cases a with
    | append i e =>
      have : ((w.apply (.append i e)).replica i).log = (w.replica i).log ++ [e] := by
        simp [World.apply, World.setReplica]
      exact this ▸ hp.trans (List.prefix_append _ _)
    | accept i log ack =>
      have : ((w.apply (.accept i log ack)).replica i).log = log := by
        simp [World.apply, World.setReplica]
      obtain ⟨⟨part, hpart, hcase⟩, _, _⟩ := hl
      show p <+: ((w.apply (.accept i log ack)).replica i).log
      rw [this]
      by_cases hnone : w.leader (w.replica i).term = none
      · have hnil : part = [] := by
          rw [h.history.vacant _ hnone] at hpart
          exact List.prefix_nil.mp hpart
        rcases hcase with ⟨_, rfl⟩ | ⟨hnot, _⟩
        · exact hp
        · exact absurd (hnil ▸ List.nil_prefix) hnot
      · exact keep_shared hp (hleader hnone) hpart hcase
    | bump i _ | retire i | stand i | collect i _ | advance i _ =>
      simpa [Act.actor, World.apply] using hp
    | vote i _ | lead i => simpa [Act.actor, World.apply, World.setReplica] using hp
  · rw [w.apply_replica_ne a hj]
    exact hp

theorem log_grounded (h : Inv nodes w) (ha : ElectionGuard nodes w a) (hl : LogGuard nodes w a)
    (j : ν) : Grounded (w.apply a) ((w.apply a).replica j).log ∧
      ∀ e ∈ ((w.apply a).replica j).log, term e ≤ ((w.apply a).replica j).term := by
  have hg := h.grows ha hl
  have hterm := term_apply ha j
  have hold : Grounded (w.apply a) (w.replica j).log ∧
      ∀ e ∈ (w.replica j).log, term e ≤ ((w.apply a).replica j).term :=
    ⟨(h.replica j).grounded.grow hg, fun e he => ((h.replica j).bound e he).trans hterm⟩
  by_cases hj : j = a.actor
  · subst j
    cases a with
    | append i e =>
      have he : term e = (w.replica i).term := hl
      have hlog : ((w.apply (.append i e)).replica i).log = (w.replica i).log ++ [e] := by
        simp [World.apply, World.setReplica]
      have htermLog : (w.apply (.append i e)).termLog (w.replica i).term =
          (w.replica i).log ++ [e] := by simp [World.apply]
      simp only [Act.actor] at hold hterm ⊢
      rw [hlog]
      refine ⟨fun p d hp => ?_, fun d hd => ?_⟩
      · rcases List.prefix_concat_iff.mp hp with hall | hp'
        · obtain ⟨_, hde⟩ := List.append_inj' hall rfl
          obtain rfl := List.cons.inj hde |>.1
          rw [he, htermLog]
          exact hp
        · exact hold.1 p d hp'
      · rcases List.mem_append.mp hd with hd' | hd'
        · exact hold.2 d hd'
        · obtain rfl := List.mem_singleton.mp hd'
          omega
    | accept i log ack =>
      have hlog : ((w.apply (.accept i log ack)).replica i).log = log := by
        simp [World.apply, World.setReplica]
      simp only [Act.actor] at hold hterm ⊢
      rw [hlog]
      obtain ⟨⟨part, hpart, hcase⟩, _, _⟩ := hl
      rcases hcase with ⟨_, rfl⟩ | ⟨_, rfl⟩
      · exact hold
      · refine ⟨((h.history.grounded _).grow hg).of_isPrefix hpart, fun d hd => ?_⟩
        exact (h.history.bound _ d (hpart.subset hd)).trans hterm
    | bump i _ | retire i | stand i | collect i _ | advance i _ =>
      simpa [Act.actor, World.apply] using hold
    | vote i _ | lead i => simpa [Act.actor, World.apply, World.setReplica] using hold
  · rw [w.apply_replica_ne a hj] at hold ⊢
    exact hold

/-- A vote from a later term than a confirmation was cast by a replica past it. -/
theorem no_later_ballot (h : Inv nodes w) {v : ν} {t u : Nat} (ht : t = (w.replica v).term)
    (htu : t < u) {b : ν × List ε} (hb : w.ballot v u = some b) : False := by
  have := (h.election.past v u b hb).1
  omega

theorem keptBallot_apply (h : Inv nodes w) (ha : ElectionGuard nodes w a)
    (hl : LogGuard nodes w a) {v c : ν} {t n u : Nat} {log : List ε}
    (hn : n ≤ (w.apply a).acked v t) (htu : t < u)
    (hb : (w.apply a).ballot v u = some (c, log)) (hc : Carried (w.apply a) t n u) :
    ((w.apply a).termLog t).take n <+: log := by
  have hg := h.grows ha hl
  have hold : n ≤ w.acked v t := by
    rcases acked_apply hn with hold | ⟨_, ht⟩
    · exact hold
    · rcases ballot_apply hl hb with hb' | ⟨_, _, hsame, _⟩
      · exact (no_later_ballot h ht htu hb').elim
      · exact hsame ▸ hn
  rw [h.history.take_grow hg hold]
  have hc' := hc.shrink h.history hg hold
  rcases ballot_apply hl hb with hb' | ⟨rfl, hu, _, _⟩
  · exact h.history.keptBallot v t n u c log hold htu hb' hc'
  · exact (h.replica v).kept t n hold (hc'.mono hu)

/-- The part a voter confirmed reaches the log of the leader it elects: the election
restriction compares last terms, and a log is fixed by its last term and length. -/
theorem elected_has {v i : ν} (h : Inv nodes w) {t n : Nat} (hn : n ≤ w.acked v t)
    (ht : t < (w.replica i).term) (hnone : w.leader (w.replica i).term = none)
    (hrole : (w.replica i).role = .candidate) (hv : v ∈ (w.replica i).votes)
    (hown : ∃ e ∈ (w.termLog t).take n, term e = t)
    (hc : Carried w t n ((w.replica i).term - 1)) :
    (w.termLog t).take n <+: (w.replica i).log := by
  obtain ⟨log, hb⟩ := h.election.counted i hrole v hv
  obtain ⟨candidate, hcand, hnew⟩ := h.history.newest v _ i log hb
  obtain rfl : candidate = (w.replica i).log := by
    rw [(h.replica i).running hrole] at hcand
    exact ((Prod.mk.inj (Option.some.inj hcand)).2).symm
  have hvote : (w.termLog t).take n <+: log := by
    refine h.history.keptBallot v t n _ i log hn ht hb fun s hts hs hls => ?_
    rcases Nat.eq_or_lt_of_le hs with rfl | hlt
    · exact absurd hnone hls
    · exact hc s hts (by omega) hls
  obtain ⟨e, he, hte⟩ := hown
  have hne : log ≠ [] := List.ne_nil_of_mem (hvote.subset he)
  have hlast := (h.history.ballotLog v _ i log hb).lastTerm hne
  rcases hnew with hlt | ⟨heq, hlen⟩
  · have hts : t ≤ lastTerm log := hte ▸ h.history.bound _ e (hlast.subset (hvote.subset he))
    have hne' : (w.replica i).log ≠ [] := by
      intro hnil
      rw [hnil] at hlt
      exact absurd hlt (Nat.not_lt_zero _)
    have hlast' := (h.replica i).grounded.lastTerm hne'
    obtain ⟨q, d, hqd⟩ := exists_last hne'
    have hd : lastTerm (w.replica i).log = term d := by rw [hqd, lastTerm_append]
    have hdmem : d ∈ (w.replica i).log := by simp [hqd]
    have hled : w.leader (lastTerm (w.replica i).log) ≠ none := by
      intro hvacant
      rw [h.history.vacant _ hvacant] at hlast'
      exact hne' (List.prefix_nil.mp hlast')
    have hpast : lastTerm (w.replica i).log < (w.replica i).term := by
      have hle := (h.replica i).bound d hdmem
      refine Nat.lt_of_le_of_ne (hd ▸ hle) fun heq => ?_
      rw [heq] at hled
      exact hled hnone
    have hcar := hc _ (by omega) (by omega) hled
    rcases Nat.le_total ((w.termLog t).take n).length (w.replica i).log.length with hle | hle
    · exact List.prefix_of_prefix_length_le hcar hlast' hle
    · have hback := List.prefix_of_prefix_length_le hlast' hcar hle
      have := h.history.bound t d (List.mem_of_mem_take (hback.subset hdmem))
      omega
  · have hne' : (w.replica i).log ≠ [] := by
      intro hnil
      rw [hnil] at hlen
      exact hne (List.eq_nil_of_length_eq_zero (Nat.le_zero.mp hlen))
    have hlast' := (h.replica i).grounded.lastTerm hne'
    rw [heq] at hlast'
    exact hvote.trans (List.prefix_of_prefix_length_le hlast hlast' hlen)

theorem inherited_apply (h : Inv nodes w) (ha : ElectionGuard nodes w a)
    (hl : LogGuard nodes w a) {v : ν} {t n u : Nat} (hn : n ≤ (w.apply a).acked v t)
    (htu : t < u) (hu : (w.apply a).leader u ≠ none) (hv : v ∈ (w.apply a).electorate u)
    (hown : ∃ e ∈ ((w.apply a).termLog t).take n, term e = t)
    (hc : Carried (w.apply a) t n (u - 1)) :
    ((w.apply a).termLog t).take n <+: (w.apply a).termLog u := by
  have hg := h.grows ha hl
  rcases leader_apply hu with hold | ⟨i, rfl, rfl⟩
  · obtain ⟨i, hi⟩ := Option.ne_none_iff_exists'.mp hold
    have hsame : (w.apply a).electorate u = w.electorate u := by
      cases a with
      | lead j =>
        have hne : u ≠ (w.replica j).term := by
          rintro rfl
          exact hold (h.election.leader_eq_none ha.1 ha.2)
        simp [World.apply, hne]
      | bump _ _ | retire _ | stand _ | vote _ _ | collect _ _ | append _ _ | accept _ _ _
      | advance _ _ => rfl
    rw [hsame] at hv
    obtain ⟨log, hb⟩ := (h.election.elected u i hi).2 v hv
    have hnold : n ≤ w.acked v t := by
      rcases acked_apply hn with hnold | ⟨_, ht⟩
      · exact hnold
      · exact (no_later_ballot h ht htu hb).elim
    rw [h.history.take_grow hg hnold] at hown ⊢
    exact (h.history.inherited v t n u hnold htu hold hv hown
      (hc.shrink h.history hg hnold)).trans (hg.termLog u)
  · have hnone := h.election.leader_eq_none ha.1 ha.2
    have hvotes : v ∈ (w.replica i).votes := by simpa [World.apply] using hv
    have hnold : n ≤ w.acked v t := by
      rcases acked_apply hn with hnold | ⟨rfl, ht⟩
      · exact hnold
      · exact absurd htu (by omega)
    have hlog : (w.apply (.lead i)).termLog (w.replica i).term = (w.replica i).log := by
      simp [World.apply]
    rw [h.history.take_grow hg hnold] at hown ⊢
    rw [hlog]
    exact elected_has h hnold htu hnone ha.1 hvotes hown (hc.shrink h.history hg hnold)

theorem HistoryInv.apply (h : Inv nodes w) (ha : ElectionGuard nodes w a)
    (hl : LogGuard nodes w a) : HistoryInv (w.apply a) where
  vacant t hnone := by
    rcases termLog_apply h ha t with hsame | ⟨hsome, _, _⟩
    · rw [hsame]
      refine h.history.vacant t ?_
      by_contra hsome
      exact (h.grows ha hl).leader t hsome hnone
    · exact absurd hnone hsome
  grounded t := by
    rcases termLog_apply h ha t with hsame | ⟨_, _, hlog⟩
    · rw [hsame]
      exact (h.history.grounded t).grow (h.grows ha hl)
    · rw [hlog]
      exact (log_grounded h ha hl _).1
  bound t e he := by
    rcases termLog_apply h ha t with hsame | ⟨_, ht, hlog⟩
    · exact h.history.bound t e (hsame ▸ he)
    · rw [ht]
      exact (log_grounded h ha hl _).2 e (hlog ▸ he)
  ballotLog v t c log hb := by
    rcases ballot_apply hl hb with hold | ⟨rfl, _⟩
    · exact (h.history.ballotLog v t c log hold).grow (h.grows ha hl)
    · exact (h.replica v).grounded.grow (h.grows ha hl)
  newest v t c log hb := by
    rcases ballot_apply hl hb with hold | ⟨_, _, _, hnew⟩
    · obtain ⟨candidate, hc, hnew⟩ := h.history.newest v t c log hold
      exact ⟨candidate, (h.election.extend ha).ballot c t _ hc, hnew⟩
    · exact hnew
  ackLe v t := by
    have hg := h.grows ha hl
    rcases acked_apply (Nat.le_refl ((w.apply a).acked v t)) with hold | ⟨rfl, rfl⟩
    · exact (hold.trans (h.history.ackLe v t)).trans (hg.termLog t).length_le
    · cases a with
      | lead i => simp [World.apply, Act.actor]
      | append i e => simp [World.apply, Act.actor]
      | accept i log ack =>
        have hack := h.history.ackLe i (w.replica i).term
        obtain ⟨_, hle, _⟩ := hl
        simp only [World.apply, Act.actor, set₂_apply, and_self, if_true]
        exact Nat.max_le.mpr ⟨hack, hle⟩
      | bump _ _ | retire _ | stand _ | vote _ _ | collect _ _ | advance _ _ =>
        exact h.history.ackLe _ _
  keptBallot _ _ _ _ _ _ hn htu hb hc := keptBallot_apply h ha hl hn htu hb hc
  inherited _ _ _ _ hn htu hu hv hown hc := inherited_apply h ha hl hn htu hu hv hown hc

/-- A chosen part of a replica's log stays in it. -/
theorem chosen_apply (h : Inv nodes w) (ha : ElectionGuard nodes w a) (hl : LogGuard nodes w a)
    {j : ν} {c : Nat} (hc : Chosen nodes w (w.replica j).term (w.replica j).log c) :
    Chosen nodes (w.apply a) ((w.apply a).replica j).term ((w.apply a).replica j).log c := by
  refine hc.grow (h.grows ha hl) (term_apply ha j) fun t n ht hcn hcomm hp => ?_
  refine log_apply h hl j hp fun hled => ?_
  rcases Nat.eq_or_lt_of_le ht with rfl | hlt
  · exact List.take_prefix _ _
  · exact (List.take_prefix_take_left hcn).trans
      (leader_completeness h.election h.history hcomm _ hlt hled)

theorem kept_apply (h : Inv nodes w) (ha : ElectionGuard nodes w a) (hl : LogGuard nodes w a)
    {j : ν} {t n : Nat} (hn : n ≤ (w.apply a).acked j t)
    (hc : Carried (w.apply a) t n ((w.apply a).replica j).term) :
    ((w.apply a).termLog t).take n <+: ((w.apply a).replica j).log := by
  have hg := h.grows ha hl
  by_cases hold : n ≤ w.acked j t
  · rw [h.history.take_grow hg hold]
    have hc' := (hc.shrink h.history hg hold).mono (term_apply ha j)
    refine log_apply h hl j ((h.replica j).kept t n hold hc') fun hled => ?_
    rcases Nat.eq_zero_or_pos n with rfl | hpos
    · exact List.nil_prefix
    · rcases Nat.eq_or_lt_of_le ((h.replica j).ackPast t (by omega)) with rfl | hlt
      · exact List.take_prefix _ _
      · exact hc' _ hlt (Nat.le_refl _) hled
  · rcases acked_apply hn with hold' | ⟨rfl, rfl⟩
    · exact absurd hold' hold
    · cases a with
      | lead i | append i _ =>
        simp only [Act.actor, World.apply, World.setReplica, Function.update_self]
        exact List.take_prefix _ _
      | accept i log ack =>
        have hlog : ((w.apply (.accept i log ack)).replica i).log = log := by
          simp [World.apply, World.setReplica]
        obtain ⟨_, _, hack⟩ := hl
        simp only [Act.actor] at hold hn ⊢
        rw [hlog]
        simp only [World.apply, set₂_apply, and_self, if_true] at hn
        exact (List.take_prefix_take_left (by omega)).trans hack
      | bump _ _ | retire _ | stand _ | vote _ _ | collect _ _ | advance _ _ =>
        exact absurd hn hold

theorem running_apply (h : Inv nodes w) (ha : ElectionGuard nodes w a) {j : ν}
    (hj : ((w.apply a).replica j).role = .candidate) :
    (w.apply a).ballot j ((w.apply a).replica j).term =
      some (j, ((w.apply a).replica j).log) := by
  have hkeep := (h.election.extend ha).ballot
  by_cases hja : j = a.actor
  · subst j
    cases a with
    | stand i => simp [World.apply, World.setReplica, Act.actor]
    | vote i _ | collect i _ | advance i _ =>
      simp only [Act.actor, World.apply, World.setReplica, Function.update_self] at hj
      have hb := hkeep _ _ _ ((h.replica i).running hj)
      simpa [World.apply, World.setReplica, Act.actor] using hb
    | bump i _ | retire i | lead i => simp [World.apply, World.setReplica, Act.actor] at hj
    | append i _ | accept i _ _ =>
      simp only [Act.actor, World.apply, World.setReplica, Function.update_self] at hj
      exact absurd (hj.symm.trans ha) (by decide)
  · rw [w.apply_replica_ne a hja] at hj ⊢
    exact hkeep _ _ _ ((h.replica j).running hj)

theorem leading_apply (h : Inv nodes w) (ha : ElectionGuard nodes w a)
    (hl : LogGuard nodes w a) {j : ν} (hj : ((w.apply a).replica j).role = .leader) :
    (w.apply a).termLog ((w.apply a).replica j).term = ((w.apply a).replica j).log := by
  have hreign := (h.election.apply ha).reigns j hj
  by_cases hja : j = a.actor
  · subst j
    cases a with
    | lead i | append i _ => simp [World.apply, World.setReplica, Act.actor]
    | vote i _ | collect i _ | advance i _ =>
      simp only [Act.actor, World.apply, World.setReplica, Function.update_self] at hj ⊢
      exact (h.replica i).leading hj
    | bump i _ | retire i | stand i => simp [World.apply, World.setReplica, Act.actor] at hj
    | accept i _ _ =>
      simp only [Act.actor, World.apply, World.setReplica, Function.update_self] at hj
      exact absurd (hj.symm.trans ha) (by decide)
  · rw [w.apply_replica_ne a hja] at hj hreign ⊢
    have hlog := (h.replica j).leading hj
    cases a with
    | lead i =>
      have hne : (w.replica j).term ≠ (w.replica i).term := by
        intro ht
        simp only [World.apply, ht, Function.update_self] at hreign
        exact hja (Option.some.inj hreign).symm
      simpa [World.apply, hne] using hlog
    | append i _ =>
      have hne : (w.replica j).term ≠ (w.replica i).term := by
        intro ht
        have hi := h.election.reigns i ha
        rw [← ht, h.election.reigns j hj] at hi
        exact hja (Option.some.inj hi)
      simpa [World.apply, hne] using hlog
    | bump _ _ | retire _ | stand _ | vote _ _ | collect _ _ | accept _ _ _ | advance _ _ =>
      exact hlog

theorem holding_apply (h : Inv nodes w) (ha : ElectionGuard nodes w a)
    (hl : LogGuard nodes w a) {j : ν} (hj : ((w.apply a).replica j).role = .leader) :
    ((w.apply a).replica j).log.length ≤ (w.apply a).acked j ((w.apply a).replica j).term := by
  by_cases hja : j = a.actor
  · subst j
    cases a with
    | lead i | append i _ => simp [World.apply, World.setReplica, Act.actor]
    | vote i _ | collect i _ | advance i _ =>
      simp only [Act.actor, World.apply, World.setReplica, Function.update_self] at hj ⊢
      exact (h.replica i).holding hj
    | bump i _ | retire i | stand i => simp [World.apply, World.setReplica, Act.actor] at hj
    | accept i _ _ =>
      simp only [Act.actor, World.apply, World.setReplica, Function.update_self] at hj
      exact absurd (hj.symm.trans ha) (by decide)
  · rw [w.apply_replica_ne a hja] at hj ⊢
    exact ((h.replica j).holding hj).trans ((h.grows ha hl).acked _ _)

theorem ReplicaInv.apply (h : Inv nodes w) (ha : ElectionGuard nodes w a)
    (hl : LogGuard nodes w a) (j : ν) : ReplicaInv nodes (w.apply a) j where
  running := running_apply h ha
  leading := leading_apply h ha hl
  holding := holding_apply h ha hl
  grounded := (log_grounded h ha hl j).1
  bound := (log_grounded h ha hl j).2
  ackPast t ht := by
    rcases acked_apply (Nat.le_refl ((w.apply a).acked j t)) with hold | ⟨_, rfl⟩
    · exact ((h.replica j).ackPast t (by omega)).trans (term_apply ha j)
    · exact term_apply ha j
  kept _ _ hn hc := kept_apply h ha hl hn hc
  chosen := by
    by_cases hj : ((w.apply a).replica j).commit = (w.replica j).commit
    · rw [hj]
      exact chosen_apply h ha hl (h.replica j).chosen
    · cases a with
      | advance i c =>
        by_cases hji : j = i
        · subst j
          simpa [World.apply, World.setReplica] using chosen_apply h ha hl hl
        · exact absurd (by rw [w.apply_replica_ne _ hji]) hj
      | bump i _ | retire i | stand i | vote i _ | collect i _ | lead i | append i _
      | accept i _ _ =>
        refine absurd ?_ hj
        by_cases hji : j = i <;> simp [World.apply, World.setReplica, hji]

theorem Inv.apply (h : Inv nodes w) (ha : ElectionGuard nodes w a) (hl : LogGuard nodes w a) :
    Inv nodes (w.apply a) :=
  ⟨h.election.apply ha, HistoryInv.apply h ha hl, ReplicaInv.apply h ha hl⟩

end Act

end Suture.Consensus
