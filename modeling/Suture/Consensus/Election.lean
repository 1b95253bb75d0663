import Mathlib.Data.Finset.Basic
import Mathlib.Logic.Function.Basic
import Suture.Foundation.Quorum

/-!
# One leader per term

The protocol a leader-based replicated log runs, over an arbitrary set of
replicas and an arbitrary type of log entries stamped with a term. Messages are
left out: what a message would report is a fact of the recorded history (`ballot`,
`leader`, `electorate`, `termLog`, `acked`), which no act ever takes back.

Then the election half of the protocol: which acts it allows, what they preserve, and
that a leader, once recorded for a term, stays the only one. Logs play no part.
-/

namespace Suture.Consensus
set_option autoImplicit false
set_option linter.unusedSectionVars false
open Foundation

universe u v

/-- Log entries carry the term they were created in. -/
class Stamped (ε : Type v) where
  term : ε → Nat

export Stamped (term)

inductive Role where
  | passive
  | candidate
  | leader
deriving DecidableEq, Repr

structure Replica (ν : Type u) (ε : Type v) where
  term : Nat
  votedFor : Option ν
  role : Role
  votes : Finset ν
  log : List ε
  commit : Nat

/-- The replicas, and the history of the run so far. `ballot v t` is the vote `v`
cast in term `t` with the log it then had; `electorate t` are the voters that made
`leader t`; `termLog t` is the log of that leader, as far as it has grown; `acked v t`
is how much of `termLog t` replica `v` has confirmed while in term `t`. -/
structure World (ν : Type u) (ε : Type v) where
  replica : ν → Replica ν ε
  ballot : ν → Nat → Option (ν × List ε)
  leader : Nat → Option ν
  electorate : Nat → Finset ν
  termLog : Nat → List ε
  acked : ν → Nat → Nat

inductive Act (ν : Type u) (ε : Type v) where
  | bump (i : ν) (t : Nat)
  | retire (i : ν)
  | stand (i : ν)
  | vote (i c : ν)
  | collect (i v : ν)
  | lead (i : ν)
  | append (i : ν) (e : ε)
  | accept (i : ν) (log : List ε) (ack : Nat)
  | advance (i : ν) (commit : Nat)

variable {ν : Type u} {ε : Type v} [DecidableEq ν]

/-- Updates a doubly indexed table at one place. -/
def set₂ {α : Type v} (f : ν → Nat → α) (i : ν) (t : Nat) (a : α) : ν → Nat → α :=
  Function.update f i (Function.update (f i) t a)

@[simp] theorem set₂_apply {α : Type v} (f : ν → Nat → α) (i j : ν) (t s : Nat) (a : α) :
    set₂ f i t a j s = if j = i ∧ s = t then a else f j s := by
  unfold set₂
  by_cases hj : j = i
  · subst j
    by_cases hs : s = t
    · simp [hs]
    · simp [hs]
  · simp [hj]

namespace World

/-- What replica `i` itself becomes. -/
def setReplica (w : World ν ε) (i : ν) (r : Replica ν ε) : World ν ε :=
  { w with replica := Function.update w.replica i r }

def apply (w : World ν ε) : Act ν ε → World ν ε
  | .bump i t =>
    w.setReplica i { w.replica i with term := t, votedFor := none, role := .passive }
  | .retire i => w.setReplica i { w.replica i with role := .passive }
  | .stand i =>
    let r := w.replica i
    { w.setReplica i { r with
        term := r.term + 1, votedFor := some i, role := .candidate, votes := {i} } with
      ballot := set₂ w.ballot i (r.term + 1) (some (i, r.log)) }
  | .vote i c =>
    let r := w.replica i
    { w.setReplica i { r with votedFor := some c } with
      ballot := set₂ w.ballot i r.term ((w.ballot i r.term).orElse fun _ => some (c, r.log)) }
  | .collect i v =>
    let r := w.replica i
    w.setReplica i { r with votes := insert v r.votes }
  | .lead i =>
    let r := w.replica i
    { w.setReplica i { r with role := .leader } with
      leader := Function.update w.leader r.term (some i)
      electorate := Function.update w.electorate r.term r.votes
      termLog := Function.update w.termLog r.term r.log
      acked := set₂ w.acked i r.term r.log.length }
  | .append i e =>
    let r := w.replica i
    { w.setReplica i { r with log := r.log ++ [e] } with
      termLog := Function.update w.termLog r.term (r.log ++ [e])
      acked := set₂ w.acked i r.term (r.log.length + 1) }
  | .accept i log ack =>
    let r := w.replica i
    { w.setReplica i { r with log } with
      acked := set₂ w.acked i r.term (max (w.acked i r.term) ack) }
  | .advance i commit => w.setReplica i { w.replica i with commit }

@[simp] theorem setReplica_replica (w : World ν ε) (i j : ν) (r : Replica ν ε) :
    (w.setReplica i r).replica j = if j = i then r else w.replica j := by
  simp only [setReplica, Function.update_apply]

end World

def Act.actor : Act ν ε → ν
  | .bump i _ | .retire i | .stand i | .vote i _ | .collect i _ | .lead i | .append i _
  | .accept i _ _ | .advance i _ => i

namespace World

theorem apply_replica_ne (w : World ν ε) (a : Act ν ε) {j : ν} (h : j ≠ a.actor) :
    (w.apply a).replica j = w.replica j := by
  cases a <;> exact Function.update_of_ne h _ _

end World

/-! ### Elections -/

/-- A vote is cast once per term, is counted in the term it was cast in, and a
majority of the fixed node set makes a leader. -/
def ElectionGuard (nodes : Finset ν) (w : World ν ε) : Act ν ε → Prop
  | .bump i t => (w.replica i).term < t
  | .stand i => i ∈ nodes
  | .vote i c => i ∈ nodes ∧ ((w.replica i).votedFor = none ∨ (w.replica i).votedFor = some c)
  | .collect i v => (w.replica i).role = .candidate ∧
      ∃ log, w.ballot v (w.replica i).term = some (i, log)
  | .lead i => (w.replica i).role = .candidate ∧
      nodes.card / 2 + 1 ≤ (w.replica i).votes.card
  | .append i _ => (w.replica i).role = .leader
  | .accept i _ _ => (w.replica i).role = .passive
  | .retire _ | .advance _ _ => True

structure ElectionInv (nodes : Finset ν) (w : World ν ε) : Prop where
  voted : ∀ i c, (w.replica i).votedFor = some c ↔
    ∃ log, w.ballot i (w.replica i).term = some (c, log)
  past : ∀ i t b, w.ballot i t = some b → t ≤ (w.replica i).term ∧ i ∈ nodes
  counted : ∀ i, (w.replica i).role = .candidate → ∀ v ∈ (w.replica i).votes,
    ∃ log, w.ballot v (w.replica i).term = some (i, log)
  reigns : ∀ i, (w.replica i).role = .leader → w.leader (w.replica i).term = some i
  fresh : ∀ i, (w.replica i).role = .candidate → w.leader (w.replica i).term ≠ some i
  reached : ∀ t i, w.leader t = some i → t ≤ (w.replica i).term
  elected : ∀ t i, w.leader t = some i → IsQuorum nodes (w.electorate t) ∧
    ∀ v ∈ w.electorate t, ∃ log, w.ballot v t = some (i, log)

/-- What a later point of a run still records. -/
structure Extends (w w' : World ν ε) : Prop where
  leader : ∀ t i, w.leader t = some i → w'.leader t = some i
  ballot : ∀ i t b, w.ballot i t = some b → w'.ballot i t = some b

theorem Extends.refl (w : World ν ε) : Extends w w := ⟨fun _ _ h => h, fun _ _ _ h => h⟩

theorem Extends.trans {w w' w'' : World ν ε} (h : Extends w w') (h' : Extends w' w'') :
    Extends w w'' :=
  ⟨fun t i hi => h'.leader t i (h.leader t i hi),
    fun i t b hb => h'.ballot i t b (h.ballot i t b hb)⟩

namespace ElectionInv
variable {nodes : Finset ν} {w : World ν ε}

/-- A candidate with a majority is running in a term nobody has won. -/
theorem leader_eq_none (h : ElectionInv nodes w) {i : ν}
    (hrole : (w.replica i).role = .candidate)
    (hmaj : nodes.card / 2 + 1 ≤ (w.replica i).votes.card) :
    w.leader (w.replica i).term = none := by
  cases hl : w.leader (w.replica i).term with
  | none => rfl
  | some j =>
    obtain ⟨hquorum, hvoters⟩ := h.elected _ j hl
    have hvotes : IsQuorum nodes (w.replica i).votes := by
      refine ⟨fun v hv => ?_, hmaj⟩
      obtain ⟨log, hb⟩ := h.counted i hrole v hv
      exact (h.past v _ _ hb).2
    obtain ⟨v, hv, hv'⟩ := hquorum.meet hvotes
    obtain ⟨log, hb⟩ := hvoters v hv
    obtain ⟨log', hb'⟩ := h.counted i hrole v hv'
    have hij : j = i := by
      rw [hb] at hb'
      exact (Prod.mk.inj (Option.some.inj hb')).1
    subst j
    exact absurd hl (h.fresh i hrole)

theorem ballot_none_of_lt (h : ElectionInv nodes w) {i : ν} {t : Nat}
    (ht : (w.replica i).term < t) : w.ballot i t = none := by
  cases hb : w.ballot i t with
  | none => rfl
  | some b => exact absurd (h.past i t b hb).1 (by omega)

theorem leader_ne_of_lt (h : ElectionInv nodes w) {i : ν} {t : Nat}
    (ht : (w.replica i).term < t) : w.leader t ≠ some i := by
  intro hl
  have := h.reached t i hl
  omega


/-- Acts that leave terms, votes and the election record alone. -/
theorem of_same {w' : World ν ε} (h : ElectionInv nodes w)
    (hterm : ∀ j, (w'.replica j).term = (w.replica j).term)
    (hvoted : ∀ j, (w'.replica j).votedFor = (w.replica j).votedFor)
    (hvotes : ∀ j, (w'.replica j).votes = (w.replica j).votes)
    (hrole : ∀ j, (w'.replica j).role = (w.replica j).role ∨ (w'.replica j).role = .passive)
    (hballot : w'.ballot = w.ballot) (hleader : w'.leader = w.leader)
    (helectorate : w'.electorate = w.electorate) : ElectionInv nodes w' := by
  have hrole' : ∀ j r, r ≠ .passive → (w'.replica j).role = r → (w.replica j).role = r := by
    intro j r hr hj
    rcases hrole j with hsame | hpass
    · exact hsame ▸ hj
    · exact absurd (hj.symm.trans hpass) hr
  constructor
  · intro j c
    rw [hterm, hvoted, hballot]
    exact h.voted j c
  · intro j t b hb
    rw [hterm]
    exact h.past j t b (hballot ▸ hb)
  · intro j hj v hv
    rw [hterm, hballot]
    exact h.counted j (hrole' j _ (by decide) hj) v (hvotes j ▸ hv)
  · intro j hj
    rw [hterm, hleader]
    exact h.reigns j (hrole' j _ (by decide) hj)
  · intro j hj
    rw [hterm, hleader]
    exact h.fresh j (hrole' j _ (by decide) hj)
  · intro t j hj
    rw [hterm]
    exact h.reached t j (hleader ▸ hj)
  · intro t j hj
    rw [helectorate, hballot]
    exact h.elected t j (hleader ▸ hj)

theorem bump (h : ElectionInv nodes w) {i : ν} {t : Nat} (ht : (w.replica i).term < t) :
    ElectionInv nodes (w.apply (.bump i t)) := by
  constructor
  · intro j c
    by_cases hj : j = i
    · subst j
      have hnone : w.ballot i t = none := h.ballot_none_of_lt ht
      simp [World.apply, hnone, World.setReplica]
    · simpa [World.apply, World.setReplica, hj] using h.voted j c
  · intro j s b hb
    have hold := h.past j s b hb
    by_cases hj : j = i
    · subst j
      simp only [World.apply, World.setReplica_replica, if_pos]
      exact ⟨by omega, hold.2⟩
    · simpa [World.apply, hj] using hold
  · intro j hj v hv
    by_cases hji : j = i
    · simp [World.apply, hji] at hj
    · simp only [World.apply, World.setReplica_replica, if_neg hji] at hj hv ⊢
      exact h.counted j hj v hv
  · intro j hj
    by_cases hji : j = i
    · simp [World.apply, hji] at hj
    · simp only [World.apply, World.setReplica_replica, if_neg hji] at hj ⊢
      exact h.reigns j hj
  · intro j hj
    by_cases hji : j = i
    · simp [World.apply, hji] at hj
    · simp only [World.apply, World.setReplica_replica, if_neg hji] at hj ⊢
      exact h.fresh j hj
  · intro s j hj
    have hold := h.reached s j hj
    by_cases hji : j = i
    · subst j
      simp only [World.apply, World.setReplica_replica, if_pos]
      omega
    · simpa [World.apply, hji] using hold
  · exact fun s j hj => h.elected s j hj

/-- A new candidacy is recorded in an empty place of the history. -/
theorem stand_ballot (h : ElectionInv nodes w) {i : ν} (j : ν) (t : Nat) (b : ν × List ε)
    (hb : w.ballot j t = some b) : (w.apply (.stand i)).ballot j t = some b := by
  simp only [World.apply, set₂_apply]
  split
  · rename_i hjt
    rw [hjt.1, hjt.2, h.ballot_none_of_lt (Nat.lt_succ_self _)] at hb
    exact absurd hb (by simp)
  · exact hb

theorem stand (h : ElectionInv nodes w) {i : ν} (hi : i ∈ nodes) :
    ElectionInv nodes (w.apply (.stand i)) := by
  have hnone : w.ballot i ((w.replica i).term + 1) = none := h.ballot_none_of_lt (by omega)
  have hkeep := h.stand_ballot (i := i)
  constructor
  · intro j c
    by_cases hj : j = i
    · subst j
      simp [World.apply, eq_comm]
    · simpa [World.apply, hj] using h.voted j c
  · intro j s b hb
    by_cases hj : j = i
    · subst j
      simp only [World.apply, World.setReplica_replica, if_pos]
      by_cases hs : s = (w.replica i).term + 1
      · exact ⟨by omega, hi⟩
      · have hb' : w.ballot i s = some b := by simpa [World.apply, hs] using hb
        have := (h.past i s b hb').1
        exact ⟨by omega, hi⟩
    · have hb' : w.ballot j s = some b := by simpa [World.apply, hj] using hb
      simpa [World.apply, hj] using h.past j s b hb'
  · intro j hj v hv
    by_cases hji : j = i
    · subst j
      have hv' : v = i := by simpa [World.apply] using hv
      subst v
      exact ⟨(w.replica i).log, by simp [World.apply]⟩
    · simp only [World.apply, World.setReplica_replica, if_neg hji] at hj hv ⊢
      obtain ⟨log, hb⟩ := h.counted j hj v hv
      exact ⟨log, hkeep v _ _ hb⟩
  · intro j hj
    by_cases hji : j = i
    · simp [World.apply, hji] at hj
    · simp only [World.apply, World.setReplica_replica, if_neg hji] at hj ⊢
      exact h.reigns j hj
  · intro j hj
    by_cases hji : j = i
    · subst j
      simpa [World.apply, World.setReplica] using h.leader_ne_of_lt (Nat.lt_succ_self _)
    · simp only [World.apply, World.setReplica_replica, if_neg hji] at hj ⊢
      exact h.fresh j hj
  · intro s j hj
    have hold := h.reached s j hj
    by_cases hji : j = i
    · subst j
      simp only [World.apply, World.setReplica_replica, if_pos]
      omega
    · simpa [World.apply, hji] using hold
  · intro s j hj
    obtain ⟨hquorum, hvoters⟩ := h.elected s j hj
    refine ⟨hquorum, fun v hv => ?_⟩
    obtain ⟨log, hb⟩ := hvoters v hv
    exact ⟨log, hkeep v s _ hb⟩

/-- A vote the replica may cast goes into an empty place of the history, or
repeats the one on record. -/
theorem vote_ballot (h : ElectionInv nodes w) {i c : ν}
    (hfree : (w.replica i).votedFor = none ∨ (w.replica i).votedFor = some c) :
    (w.ballot i (w.replica i).term = none ∨
      ∃ log, w.ballot i (w.replica i).term = some (c, log)) := by
  rcases hfree with hnone | hsome
  · left
    cases hb : w.ballot i (w.replica i).term with
    | none => rfl
    | some b =>
      have := (h.voted i b.1).mpr ⟨b.2, hb⟩
      rw [hnone] at this
      exact absurd this (by simp)
  · exact .inr ((h.voted i c).mp hsome)

theorem vote_keeps {i c : ν} (j : ν) (t : Nat) (b : ν × List ε)
    (hb : w.ballot j t = some b) : (w.apply (.vote i c)).ballot j t = some b := by
  simp only [World.apply, set₂_apply]
  split
  · rename_i hjt
    obtain ⟨rfl, rfl⟩ := hjt
    rw [hb]
    rfl
  · exact hb

theorem vote (h : ElectionInv nodes w) {i c : ν} (hi : i ∈ nodes)
    (hfree : (w.replica i).votedFor = none ∨ (w.replica i).votedFor = some c) :
    ElectionInv nodes (w.apply (.vote i c)) := by
  have hkeep := vote_keeps (w := w) (i := i) (c := c)
  have hnew : ∃ log, (w.apply (.vote i c)).ballot i (w.replica i).term = some (c, log) := by
    simp only [World.apply, set₂_apply, and_self, if_true]
    rcases h.vote_ballot hfree with hnone | ⟨log, hb⟩
    · exact ⟨_, by rw [hnone]; rfl⟩
    · exact ⟨log, by rw [hb]; rfl⟩
  have hterm : ∀ j, ((w.apply (.vote i c)).replica j).term = (w.replica j).term := by
    intro j
    by_cases hj : j = i <;> simp [World.apply, World.setReplica, hj]
  have hrole : ∀ j, ((w.apply (.vote i c)).replica j).role = (w.replica j).role := by
    intro j
    by_cases hj : j = i <;> simp [World.apply, World.setReplica, hj]
  have hvotes : ∀ j, ((w.apply (.vote i c)).replica j).votes = (w.replica j).votes := by
    intro j
    by_cases hj : j = i <;> simp [World.apply, World.setReplica, hj]
  constructor
  · intro j d
    rw [hterm]
    by_cases hj : j = i
    · subst j
      obtain ⟨log, hb⟩ := hnew
      have hd : ((w.apply (.vote i c)).replica i).votedFor = some c := by
        simp [World.apply, World.setReplica]
      rw [hd, hb]
      simp
    · have hv := h.voted j d
      simpa [World.apply, World.setReplica, hj] using hv
  · intro j s b hb
    rw [hterm]
    by_cases hjs : j = i ∧ s = (w.replica i).term
    · rw [hjs.1, hjs.2]
      exact ⟨Nat.le_refl _, hi⟩
    · refine h.past j s b ?_
      simpa only [World.apply, set₂_apply, if_neg hjs] using hb
  · intro j hj v hv
    rw [hterm]
    rw [hrole] at hj
    rw [hvotes] at hv
    obtain ⟨log, hb⟩ := h.counted j hj v hv
    exact ⟨log, hkeep _ _ _ hb⟩
  · intro j hj
    rw [hterm]
    exact h.reigns j (hrole j ▸ hj)
  · intro j hj
    rw [hterm]
    exact h.fresh j (hrole j ▸ hj)
  · intro s j hj
    rw [hterm]
    exact h.reached s j hj
  · intro s j hj
    obtain ⟨hquorum, hvoters⟩ := h.elected s j hj
    refine ⟨hquorum, fun v hv => ?_⟩
    obtain ⟨log, hb⟩ := hvoters v hv
    exact ⟨log, hkeep _ _ _ hb⟩

theorem collect (h : ElectionInv nodes w) {i v : ν} (hv : ∃ log, w.ballot v (w.replica i).term =
    some (i, log)) : ElectionInv nodes (w.apply (.collect i v)) := by
  have hsame : ∀ j, ((w.apply (.collect i v)).replica j).term = (w.replica j).term ∧
      ((w.apply (.collect i v)).replica j).votedFor = (w.replica j).votedFor ∧
      ((w.apply (.collect i v)).replica j).role = (w.replica j).role := by
    intro j
    by_cases hj : j = i <;> simp [World.apply, World.setReplica, hj]
  constructor
  · intro j c
    rw [(hsame j).1, (hsame j).2.1]
    exact h.voted j c
  · intro j s b hb
    rw [(hsame j).1]
    exact h.past j s b hb
  · intro j hj u hu
    rw [(hsame j).1]
    rw [(hsame j).2.2] at hj
    by_cases hji : j = i
    · subst j
      have hu' : u = v ∨ u ∈ (w.replica i).votes := by
        simpa [World.apply] using hu
      rcases hu' with rfl | hu'
      · exact hv
      · exact h.counted i hj u hu'
    · exact h.counted j hj u (by simpa [World.apply, hji] using hu)
  · intro j hj
    rw [(hsame j).1]
    exact h.reigns j ((hsame j).2.2 ▸ hj)
  · intro j hj
    rw [(hsame j).1]
    exact h.fresh j ((hsame j).2.2 ▸ hj)
  · intro s j hj
    rw [(hsame j).1]
    exact h.reached s j hj
  · exact fun s j hj => h.elected s j hj

theorem lead (h : ElectionInv nodes w) {i : ν} (hrole : (w.replica i).role = .candidate)
    (hmaj : nodes.card / 2 + 1 ≤ (w.replica i).votes.card) :
    ElectionInv nodes (w.apply (.lead i)) := by
  have hnone := h.leader_eq_none hrole hmaj
  have hsame : ∀ j, ((w.apply (.lead i)).replica j).term = (w.replica j).term ∧
      ((w.apply (.lead i)).replica j).votedFor = (w.replica j).votedFor ∧
      ((w.apply (.lead i)).replica j).votes = (w.replica j).votes := by
    intro j
    by_cases hj : j = i <;> simp [World.apply, World.setReplica, hj]
  constructor
  · intro j c
    rw [(hsame j).1, (hsame j).2.1]
    exact h.voted j c
  · intro j s b hb
    rw [(hsame j).1]
    exact h.past j s b hb
  · intro j hj v hv
    rw [(hsame j).1]
    rw [(hsame j).2.2] at hv
    by_cases hji : j = i
    · simp [World.apply, hji] at hj
    · exact h.counted j (by simpa [World.apply, hji] using hj) v hv
  · intro j hj
    rw [(hsame j).1]
    by_cases hji : j = i
    · simp [World.apply, hji]
    · have hl := h.reigns j (by simpa [World.apply, hji] using hj)
      simp only [World.apply, Function.update_apply]
      split
      · rename_i ht
        rw [ht, hnone] at hl
        exact absurd hl (by simp)
      · exact hl
  · intro j hj
    rw [(hsame j).1]
    by_cases hji : j = i
    · simp [World.apply, hji] at hj
    · have hl := h.fresh j (by simpa [World.apply, hji] using hj)
      simp only [World.apply, Function.update_apply]
      split
      · simpa [eq_comm] using hji
      · exact hl
  · intro s j hj
    rw [(hsame j).1]
    simp only [World.apply, Function.update_apply] at hj
    split at hj
    · rename_i hs
      rw [hs, Option.some.inj hj]
    · exact h.reached s j hj
  · intro s j hj
    simp only [World.apply, Function.update_apply] at hj ⊢
    split at hj
    · rename_i hs
      obtain rfl := Option.some.inj hj
      rw [if_pos hs, hs]
      refine ⟨⟨fun v hv => ?_, hmaj⟩, h.counted i hrole⟩
      obtain ⟨log, hb⟩ := h.counted i hrole v hv
      exact (h.past v _ _ hb).2
    · rename_i hs
      rw [if_neg hs]
      exact h.elected s j hj

theorem apply (h : ElectionInv nodes w) {a : Act ν ε} (ha : ElectionGuard nodes w a) :
    ElectionInv nodes (w.apply a) := by
  cases a with
  | bump i t => exact h.bump ha
  | stand i => exact h.stand ha
  | vote i c => exact h.vote ha.1 ha.2
  | collect i v => exact h.collect ha.2
  | lead i => exact h.lead ha.1 ha.2
  | retire i =>
    refine h.of_same ?_ ?_ ?_ ?_ rfl rfl rfl
    all_goals
      intro j
      by_cases hj : j = i <;> simp [World.apply, hj]
  | append i _ | accept i _ _ | advance i _ =>
    refine h.of_same ?_ ?_ ?_ ?_ rfl rfl rfl
    all_goals
      intro j
      by_cases hj : j = i <;> simp [World.apply, World.setReplica, hj]

theorem extend (h : ElectionInv nodes w) {a : Act ν ε} (ha : ElectionGuard nodes w a) :
    Extends w (w.apply a) := by
  cases a with
  | stand i => exact ⟨fun _ _ hl => hl, h.stand_ballot⟩
  | vote i c => exact ⟨fun _ _ hl => hl, vote_keeps⟩
  | lead i =>
    refine ⟨fun t j hl => ?_, fun _ _ _ hb => hb⟩
    simp only [World.apply, Function.update_apply]
    split
    · rename_i ht
      rw [ht, h.leader_eq_none ha.1 ha.2] at hl
      exact absurd hl (by simp)
    · exact hl
  | bump _ _ | retire _ | collect _ _ | append _ _ | accept _ _ _ | advance _ _ =>
    exact ⟨fun _ _ hl => hl, fun _ _ _ hb => hb⟩

end ElectionInv
end Suture.Consensus
