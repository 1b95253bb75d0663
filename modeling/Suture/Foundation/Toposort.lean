import Mathlib.Data.Fintype.Card
import Mathlib.Data.List.Count
import Mathlib.Data.List.Sort
import Mathlib.Data.Set.Finite.Basic
import Mathlib.Order.WellFounded
import Mathlib.Tactic.SplitIfs
import Suture.Foundation.SortedMap
import Suture.Foundation.SortedSet

/-!
# Topological sorting

Kahn's algorithm over entries that depend on keys. Each dependency counts as often as it
is listed, those on keys without an entry not at all. Entries are visited in an order in
which what they depend on comes first; those on a cycle stay behind.
-/

namespace Suture.Foundation
set_option autoImplicit false

universe u v w
variable {α : Type u} {β : Type v} {δ : Type w} [LinearOrder α]

local instance lawfulBEq : LawfulBEq α := inferInstance

namespace Toposort

/-! ### The algorithm -/

/-- How many dependencies each key waits for, and the keys that wait for each. -/
structure Counts (α : Type u) where
  inDegree : List (α × Nat)
  children : List (α × List α)

def count (entries : List (α × β)) (id : α) (counts : Counts α) (parent : α) : Counts α :=
  if parent ∈ entries.map Prod.fst then
    { inDegree := Assoc.insert id ((Assoc.get counts.inDegree id).getD 0 + 1) counts.inDegree
      children :=
        Assoc.insert parent ((Assoc.get counts.children parent).getD [] ++ [id]) counts.children }
  else counts

def countAll (deps : β → List α) (entries : List (α × β)) : Counts α :=
  entries.foldl (fun counts e =>
    (deps e.2).foldl (count entries e.1) { counts with
      inDegree := Assoc.insert e.1 ((Assoc.get counts.inDegree e.1).getD 0) counts.inDegree })
    ⟨[], []⟩

/-- Counts one dependency down for each key; returns the keys that wait for no more. -/
def release (inDegree : List (α × Nat)) : List α → List (α × Nat) × List α
  | [] => (inDegree, [])
  | child :: kids =>
    match Assoc.get inDegree child with
    | none => release inDegree kids
    | some degree =>
      let (rest, ready) := release (Assoc.insert child (degree - 1) inDegree) kids
      if degree - 1 = 0 then (rest, child :: ready) else (rest, ready)

/-- Visits what is ready, with the keys visited before; returns what was left. -/
def drain (children : List (α × List α)) (visit : δ → α → β → SortedSet α → δ)
    (inDegree : List (α × Nat)) (processed : SortedSet α) (waiting : List (α × β)) (acc : δ) :
    List α → δ × List (α × β)
  | [] => (acc, waiting)
  | id :: queue =>
    match _hfound : Assoc.get waiting id with
    | none => drain children visit inDegree processed waiting acc queue
    | some b =>
      let (rest, ready) := release inDegree ((Assoc.get children id).getD [])
      drain children visit rest (processed.insert id) (Assoc.erase id waiting)
        (visit acc id b processed) (queue ++ ready.insertionSort (· ≤ ·))
termination_by queue => (waiting.length, queue.length)
decreasing_by
  · exact Prod.Lex.right _ (Nat.lt_succ_self _)
  · refine Prod.Lex.left _ _ (List.length_filter_lt_length_iff_exists.mpr ?_)
    exact ⟨(id, b), Assoc.mem_of_get _hfound, by simp⟩

def run (deps : β → List α) (visit : δ → α → β → SortedSet α → δ) (entries : List (α × β))
    (acc : δ) : δ × List (α × β) :=
  let counts := countAll deps entries
  let roots := (counts.inDegree.filter fun e => e.2 = 0).map Prod.fst
  drain counts.children visit counts.inDegree .empty entries acc (roots.insertionSort (· ≤ ·))

/-! ### Counting -/

def keys (entries : List (α × β)) : List α := entries.map Prod.fst

/-- The keys that wait for one, as often as they list it. -/
def kids (children : List (α × List α)) (parent : α) : List α := (Assoc.get children parent).getD []

/-- How many dependencies have not been visited. -/
def pending (entries : List (α × β)) (processed : SortedSet α) (ps : List α) : Nat :=
  ps.countP fun p => decide (p ∈ keys entries ∧ p ∉ processed)

theorem get_of_nodup {entries : List (α × β)} (h : (keys entries).Nodup) {id : α} {b : β}
    (hmem : (id, b) ∈ entries) : Assoc.get entries id = some b := by
  induction entries with
  | nil => cases hmem
  | cons e rest ih =>
    obtain ⟨id', b'⟩ := e
    obtain ⟨hnew, hrest⟩ := List.nodup_cons.mp h
    rw [Assoc.get_cons]
    rcases List.mem_cons.mp hmem with heq | hrestMem
    · obtain ⟨rfl, rfl⟩ := Prod.mk.inj heq
      rw [if_pos rfl]
    · rw [if_neg, ih hrest hrestMem]
      rintro rfl
      exact hnew (List.mem_map.mpr ⟨_, hrestMem, rfl⟩)

theorem mem_keys_iff {entries : List (α × β)} {id : α} :
    id ∈ keys entries ↔ ∃ b, Assoc.get entries id = some b := by
  rw [← Option.ne_none_iff_exists', ne_eq, Assoc.get_eq_none_iff, not_not, keys]

/-- What a list of dependencies of `id` adds to the counts. -/
structure Counted (entries : List (α × β)) (id : α) (ps : List α) (counts counts' : Counts α) :
    Prop where
  degree : ∀ n, Assoc.get counts.inDegree id = some n →
    Assoc.get counts'.inDegree id = some (n + pending entries .empty ps)
  others : ∀ j, j ≠ id → Assoc.get counts'.inDegree j = Assoc.get counts.inDegree j
  children : ∀ p ∈ keys entries,
    (kids counts'.children p).count id = (kids counts.children p).count id + ps.count p
  otherChildren : ∀ p j, j ≠ id →
    (kids counts'.children p).count j = (kids counts.children p).count j
  sorted : Assoc.Sorted counts.inDegree → Assoc.Sorted counts'.inDegree

theorem counted_one (entries : List (α × β)) (id parent : α) (counts : Counts α) :
    Counted entries id [parent] counts (count entries id counts parent) := by
  unfold count
  split
  · rename_i hparent
    have hpending : pending entries .empty [parent] = 1 := by
      simp [pending, show parent ∈ keys entries from hparent]
    refine ⟨fun n hn => ?_, fun j hj => ?_, fun p hp => ?_, fun p j hj => ?_,
      fun h => h.insert _ _⟩
    · rw [Assoc.get_insert, if_pos rfl, hn, hpending]
      rfl
    · rw [Assoc.get_insert, if_neg hj]
    · unfold kids
      rw [Assoc.get_insert]
      by_cases hpp : p = parent
      · subst hpp
        simp
      · simp [hpp, Ne.symm hpp]
    · unfold kids
      rw [Assoc.get_insert]
      by_cases hpp : p = parent
      · subst hpp
        simp [Ne.symm hj]
      · rw [if_neg hpp]
  · rename_i hparent
    have hpending : pending entries .empty [parent] = 0 := by
      simp [pending, show parent ∉ keys entries from hparent]
    refine ⟨fun n hn => ?_, fun _ _ => rfl, fun p hp => ?_, fun _ _ _ => rfl, fun h => h⟩
    · rw [hn, hpending]
      rfl
    · have hpp : parent ≠ p := fun h => hparent (h ▸ hp)
      simp [hpp]

theorem counted_foldl (entries : List (α × β)) (id : α) (ps : List α) (counts : Counts α) :
    Counted entries id ps counts (ps.foldl (count entries id) counts) := by
  induction ps generalizing counts with
  | nil => exact ⟨fun n hn => hn, fun _ _ => rfl, fun _ _ => rfl, fun _ _ _ => rfl, fun h => h⟩
  | cons parent ps ih =>
    have h := counted_one entries id parent counts
    have h' := ih (count entries id counts parent)
    rw [List.foldl_cons]
    refine ⟨fun n hn => ?_, fun j hj => ?_, fun p hp => ?_, fun p j hj => ?_,
      fun hs => h'.sorted (h.sorted hs)⟩
    · rw [h'.degree _ (h.degree n hn), show parent :: ps = [parent] ++ ps from rfl, pending,
        pending, pending, List.countP_append, Nat.add_assoc]
    · rw [h'.others j hj, h.others j hj]
    · rw [h'.children p hp, h.children p hp, show parent :: ps = [parent] ++ ps from rfl,
        List.count_append, Nat.add_assoc]
    · rw [h'.otherChildren p j hj, h.otherChildren p j hj]

/-- The counts are those of the dependencies of the entries. -/
structure CountsOf (deps : β → List α) (entries es : List (α × β)) (counts : Counts α) :
    Prop where
  degree : ∀ id b, (id, b) ∈ es →
    Assoc.get counts.inDegree id = some (pending entries .empty (deps b))
  noDegree : ∀ id, id ∉ keys es → Assoc.get counts.inDegree id = none
  children : ∀ id b, (id, b) ∈ es → ∀ p ∈ keys entries,
    (kids counts.children p).count id = (deps b).count p
  noChildren : ∀ id, id ∉ keys es → ∀ p, (kids counts.children p).count id = 0
  sorted : Assoc.Sorted counts.inDegree

theorem countsOf_append {deps : β → List α} {entries es : List (α × β)} {counts : Counts α}
    (h : CountsOf deps entries es counts) {id : α} {b : β} (hnew : id ∉ keys es) :
    CountsOf deps entries (es ++ [(id, b)]) ((deps b).foldl (count entries id) { counts with
      inDegree := Assoc.insert id ((Assoc.get counts.inDegree id).getD 0) counts.inDegree }) := by
  have hc := counted_foldl entries id (deps b) { counts with
    inDegree := Assoc.insert id ((Assoc.get counts.inDegree id).getD 0) counts.inDegree }
  have hne : ∀ {j c}, (j, c) ∈ es → j ≠ id := by
    rintro j c hj rfl
    exact hnew (List.mem_map_of_mem hj)
  refine ⟨fun j c hj => ?_, fun j hj => ?_, fun j c hj p hp => ?_, fun j hj p => ?_,
    hc.sorted (h.sorted.insert _ _)⟩
  · rcases List.mem_append.mp hj with hj | hj
    · rw [hc.others j (hne hj), Assoc.get_insert, if_neg (hne hj), h.degree j c hj]
    · cases List.mem_singleton.mp hj
      rw [hc.degree 0, Nat.zero_add]
      rw [Assoc.get_insert, if_pos rfl, h.noDegree id hnew]
      rfl
  · have hj : j ∉ keys es ∧ j ≠ id := by simpa [keys, not_or] using hj
    rw [hc.others j hj.2, Assoc.get_insert, if_neg hj.2, h.noDegree j hj.1]
  · rcases List.mem_append.mp hj with hj | hj
    · rw [hc.otherChildren p j (hne hj)]
      exact h.children j c hj p hp
    · cases List.mem_singleton.mp hj
      rw [hc.children p hp]
      dsimp only
      rw [h.noChildren id hnew p, Nat.zero_add]
  · have hj : j ∉ keys es ∧ j ≠ id := by simpa [keys, not_or] using hj
    rw [hc.otherChildren p j hj.2]
    exact h.noChildren j hj.1 p

theorem countsOf_countAll (deps : β → List α) {entries : List (α × β)}
    (hnodup : (keys entries).Nodup) : CountsOf deps entries entries (countAll deps entries) := by
  have hfold : ∀ rest es counts, CountsOf deps entries es counts → (keys (es ++ rest)).Nodup →
      CountsOf deps entries (es ++ rest) (rest.foldl (fun counts e =>
        (deps e.2).foldl (count entries e.1) { counts with
          inDegree := Assoc.insert e.1 ((Assoc.get counts.inDegree e.1).getD 0)
            counts.inDegree }) counts) := by
    intro rest
    induction rest with
    | nil =>
      intro es counts h _
      rwa [List.append_nil]
    | cons e rest ih =>
      intro es counts h hnodup
      have hsplit : es ++ e :: rest = (es ++ [e]) ++ rest := by simp
      rw [hsplit] at hnodup ⊢
      refine ih (es ++ [e]) _ (countsOf_append h fun hmem => ?_) hnodup
      rw [keys, List.map_append, List.map_append, List.append_assoc] at hnodup
      exact (List.nodup_append.mp hnodup).2.2 _ hmem _ (List.mem_cons_self ..) rfl
  exact hfold entries [] ⟨[], []⟩
    ⟨nofun, fun _ _ => rfl, nofun, fun _ _ _ => rfl, .nil⟩ hnodup

/-! ### Releasing -/

theorem release_spec {ks : List α} : ∀ {inDegree : List (α × Nat)},
    (∀ c n, Assoc.get inDegree c = some n → ks.count c ≤ n) →
    (∀ c, Assoc.get (release inDegree ks).1 c = (Assoc.get inDegree c).map (· - ks.count c)) ∧
      ∀ c, c ∈ (release inDegree ks).2 ↔ c ∈ ks ∧ Assoc.get inDegree c = some (ks.count c) := by
  induction ks with
  | nil =>
    intro inDegree _
    refine ⟨fun c => ?_, fun c => by simp [release]⟩
    simp [release]
  | cons child ks ih =>
    intro inDegree hle
    cases hchild : Assoc.get inDegree child with
    | none =>
      obtain ⟨hget, hready⟩ := @ih inDegree fun c n hn =>
        (List.count_le_count_cons).trans (hle c n hn)
      rw [release, hchild]
      refine ⟨fun c => ?_, fun c => ?_⟩
      · rw [hget]
        by_cases hc : c = child
        · rw [hc, hchild]
          rfl
        · rw [List.count_cons_of_ne (Ne.symm hc)]
      · rw [hready]
        by_cases hc : c = child
        · rw [hc, hchild]
          simp
        · rw [List.count_cons_of_ne (Ne.symm hc)]
          simp [hc]
    | some degree =>
      have hdegree := hle child degree hchild
      rw [List.count_cons_self] at hdegree
      obtain ⟨hget, hready⟩ := @ih (Assoc.insert child (degree - 1) inDegree)
        fun c n hn => by
          rw [Assoc.get_insert] at hn
          split at hn
          · rename_i hc
            cases hn
            rw [hc]
            omega
          · exact (List.count_le_count_cons).trans (hle c n hn)
      have hmem : ∀ c, c ∈ (release inDegree (child :: ks)).2 ↔
          (degree - 1 = 0 ∧ c = child) ∨
            c ∈ (release (Assoc.insert child (degree - 1) inDegree) ks).2 := fun c => by
        rw [release, hchild]
        dsimp only
        split_ifs with hzero <;> simp [hzero]
      refine ⟨fun c => ?_, fun c => ?_⟩
      · have hrest : (release inDegree (child :: ks)).1 =
            (release (Assoc.insert child (degree - 1) inDegree) ks).1 := by
          rw [release, hchild]
          dsimp only
          split_ifs <;> rfl
        rw [hrest, hget, Assoc.get_insert]
        by_cases hc : c = child
        · rw [if_pos hc, hc, hchild, List.count_cons_self]
          simp only [Option.map_some, Option.some.injEq]
          omega
        · rw [if_neg hc, List.count_cons_of_ne (Ne.symm hc)]
      · rw [hmem, hready, Assoc.get_insert]
        by_cases hc : c = child
        · subst hc
          have hcount : 0 < ks.count c ↔ c ∈ ks := List.count_pos_iff
          simp only [hchild, if_true, List.count_cons_self, Option.some.injEq,
            List.mem_cons_self, true_and, and_true, ← hcount]
          omega
        · rw [if_neg hc, List.count_cons_of_ne (Ne.symm hc)]
          simp [hc]

/-! ### Draining -/

/-- What holds between two visits. -/
structure Draining (deps : β → List α) (entries : List (α × β)) (inDegree : List (α × Nat))
    (processed : SortedSet α) (waiting : List (α × β)) (queue : List α) : Prop where
  waiting : ∀ id, Assoc.get waiting id = if id ∈ processed then none else Assoc.get entries id
  known : ∀ id ∈ processed, id ∈ keys entries
  closed : ∀ id ∈ processed, ∀ b, Assoc.get entries id = some b →
    ∀ p ∈ deps b, p ∈ keys entries → p ∈ processed
  degree : ∀ id b, Assoc.get entries id = some b → id ∉ processed →
    Assoc.get inDegree id = some (pending entries processed (deps b))
  ready : ∀ id b, Assoc.get entries id = some b → id ∉ processed →
    (id ∈ queue ↔ pending entries processed (deps b) = 0)

theorem pending_eq_zero {entries : List (α × β)} {processed : SortedSet α} {ps : List α} :
    pending entries processed ps = 0 ↔ ∀ p ∈ ps, p ∈ keys entries → p ∈ processed := by
  simp [pending, List.countP_eq_zero]

/-- A visit takes away as much as its key was waited for. -/
theorem pending_insert {entries : List (α × β)} {processed : SortedSet α} {id : α}
    (hknown : id ∈ keys entries) (hnew : id ∉ processed) (ps : List α) :
    pending entries (processed.insert id) ps + ps.count id = pending entries processed ps := by
  unfold pending
  induction ps with
  | nil => rfl
  | cons p ps ih =>
    rw [List.countP_cons, List.countP_cons, List.count_cons]
    by_cases hp : p = id
    · subst hp
      simp only [hknown, hnew, SortedSet.mem_insert, true_or, not_true, and_false, not_false_eq_true,
        and_self, decide_true, decide_false, if_true, beq_self_eq_true] at ih ⊢
      simp only [Bool.false_eq_true, if_false]
      omega
    · have hsame : decide (p ∈ keys entries ∧ p ∉ processed.insert id) =
          decide (p ∈ keys entries ∧ p ∉ processed) := by simp [hp]
      rw [hsame]
      simp only [beq_iff_eq, hp, if_false]
      omega

theorem draining_start {deps : β → List α} {entries : List (α × β)} {counts : Counts α}
    (hcounts : CountsOf deps entries entries counts) : Draining deps entries counts.inDegree .empty
      entries (((counts.inDegree.filter fun e => e.2 = 0).map Prod.fst).insertionSort (· ≤ ·)) := by
  refine ⟨fun id => ?_, nofun, nofun, fun id b hb _ => ?_, fun id b hb _ => ?_⟩
  · rw [if_neg (SortedSet.not_mem_empty id)]
  · exact hcounts.degree id b (Assoc.mem_of_get hb)
  · have hdegree := hcounts.degree id b (Assoc.mem_of_get hb)
    rw [List.mem_insertionSort, List.mem_map]
    constructor
    · rintro ⟨⟨j, n⟩, hj, rfl⟩
      obtain ⟨hmem, hzero⟩ := List.mem_filter.mp hj
      rw [hcounts.sorted.get_of_mem hmem] at hdegree
      cases hdegree
      exact of_decide_eq_true hzero
    · intro hzero
      rw [hzero] at hdegree
      exact ⟨(id, 0), List.mem_filter.mpr ⟨Assoc.mem_of_get hdegree, rfl⟩, rfl⟩

theorem Draining.visit {deps : β → List α} {entries waiting : List (α × β)}
    {children : List (α × List α)} {inDegree : List (α × Nat)} {processed : SortedSet α}
    {id : α} {queue : List α}
    (hkids : ∀ c b, Assoc.get entries c = some b → ∀ p ∈ keys entries,
      (kids children p).count c = (deps b).count p)
    (hnoKids : ∀ c, c ∉ keys entries → ∀ p, c ∉ kids children p)
    (h : Draining deps entries inDegree processed waiting (id :: queue)) {b : β}
    (hfound : Assoc.get waiting id = some b) :
    Draining deps entries (release inDegree (kids children id)).1 (processed.insert id)
      (Assoc.erase id waiting)
      (queue ++ (release inDegree (kids children id)).2.insertionSort (· ≤ ·)) := by
  have hget := h.waiting id
  rw [hfound] at hget
  split at hget
  · cases hget
  rename_i hnew
  have hknown : id ∈ keys entries := mem_keys_iff.mpr ⟨b, hget.symm⟩
  -- What waits for `id` has not been visited, and counts it.
  have hchild : ∀ c ∈ kids children id, ∃ b', Assoc.get entries c = some b' ∧ c ∉ processed := by
    intro c hc
    by_cases hcknown : c ∈ keys entries
    · obtain ⟨b', hb'⟩ := mem_keys_iff.mp hcknown
      refine ⟨b', hb', fun hcp => hnew (h.closed c hcp b' hb' id ?_ hknown)⟩
      rwa [← List.count_pos_iff, ← hkids c b' hb' id hknown, List.count_pos_iff]
    · exact absurd hc (hnoKids c hcknown id)
  have hle : ∀ c n, Assoc.get inDegree c = some n → (kids children id).count c ≤ n := by
    intro c n hn
    by_cases hc : c ∈ kids children id
    · obtain ⟨b', hb', hcnew⟩ := hchild c hc
      rw [h.degree c b' hb' hcnew] at hn
      cases hn
      rw [hkids c b' hb' id hknown, ← pending_insert hknown hnew]
      exact Nat.le_add_left _ _
    · rw [List.count_eq_zero_of_not_mem hc]
      exact Nat.zero_le n
  obtain ⟨hdegree, hready⟩ := release_spec hle
  have hself : ∀ p ∈ deps b, p ∈ keys entries → p ∈ processed :=
    pending_eq_zero.mp ((h.ready id b hget.symm hnew).mp (List.mem_cons_self ..))
  refine ⟨fun c => ?_, fun c hc => ?_, fun c hc b' hb' p hp hpknown => ?_,
    fun c b' hb' hcnew => ?_, fun c b' hb' hcnew => ?_⟩
  · rw [Assoc.get_erase, h.waiting]
    by_cases hc : c = id <;> simp [hc]
  · rcases SortedSet.mem_insert.mp hc with rfl | hc
    · exact hknown
    · exact h.known c hc
  · rcases SortedSet.mem_insert.mp hc with rfl | hc
    · rw [← hget] at hb'
      cases hb'
      exact SortedSet.mem_insert.mpr (.inr (hself p hp hpknown))
    · exact SortedSet.mem_insert.mpr (.inr (h.closed c hc b' hb' p hp hpknown))
  · have hcold : c ∉ processed := fun hc => hcnew (SortedSet.mem_insert.mpr (.inr hc))
    have hpending := pending_insert hknown hnew (deps b')
    rw [hdegree, h.degree c b' hb' hcold, hkids c b' hb' id hknown, ← hpending]
    simp
  · have hne : c ≠ id := fun hc => hcnew (SortedSet.mem_insert.mpr (.inl hc))
    have hcold : c ∉ processed := fun hc => hcnew (SortedSet.mem_insert.mpr (.inr hc))
    have hpending := pending_insert hknown hnew (deps b')
    have hold := h.ready c b' hb' hcold
    rw [List.mem_cons, or_iff_right hne] at hold
    rw [List.mem_append, List.mem_insertionSort, hready, h.degree c b' hb' hcold, hold,
      hkids c b' hb' id hknown, Option.some.injEq, ← List.count_pos_iff,
      hkids c b' hb' id hknown]
    omega

/-- The visits keep what each of them keeps, and miss only what waits for something left. -/
theorem drain_spec {deps : β → List α} {entries : List (α × β)} {children : List (α × List α)}
    {visit : δ → α → β → SortedSet α → δ}
    (hkids : ∀ c b, Assoc.get entries c = some b → ∀ p ∈ keys entries,
      (kids children p).count c = (deps b).count p)
    (hnoKids : ∀ c, c ∉ keys entries → ∀ p, c ∉ kids children p)
    (I : SortedSet α → δ → Prop)
    (hvisit : ∀ processed acc id b, I processed acc → Assoc.get entries id = some b →
      id ∉ processed → (∀ p ∈ deps b, p ∈ keys entries → p ∈ processed) →
      I (processed.insert id) (visit acc id b processed))
    {inDegree : List (α × Nat)} {processed : SortedSet α} {waiting : List (α × β)} {acc : δ}
    {queue : List α} (h : Draining deps entries inDegree processed waiting queue)
    (hI : I processed acc) :
    ∃ processed' inDegree', I processed' (drain children visit inDegree processed waiting acc queue).1 ∧
      Draining deps entries inDegree' processed'
        (drain children visit inDegree processed waiting acc queue).2 [] := by
  fun_induction drain children visit inDegree processed waiting acc queue with
  | case1 => exact ⟨_, _, hI, h⟩
  | case2 inDegree processed waiting acc id queue hnone ih =>
    refine ih { h with ready := fun c b hb hc => ?_ } hI
    have hne : c ≠ id := by
      rintro rfl
      have := h.waiting c
      rw [hnone, if_neg hc, hb] at this
      cases this
    rw [← h.ready c b hb hc, List.mem_cons, or_iff_right hne]
  | case3 inDegree processed waiting acc id queue b hfound rest ready hrelease ih =>
    have hnext := h.visit hkids hnoKids hfound
    unfold kids at hnext
    rw [hrelease] at hnext
    have hget := h.waiting id
    rw [hfound] at hget
    split at hget
    · cases hget
    rename_i hnew
    refine ih hnext (hvisit _ _ _ _ hI hget.symm hnew ?_)
    exact pending_eq_zero.mp ((h.ready id b hget.symm hnew).mp (List.mem_cons_self ..))

/-! ### Sorting -/

/-- One entry waits for another. -/
def Waits (deps : β → List α) (entries : List (α × β)) (c p : α) : Prop :=
  p ∈ keys entries ∧ ∃ b, Assoc.get entries c = some b ∧ p ∈ deps b

/-- What is left waits for something left; without cycles nothing can. -/
theorem Draining.all_processed {deps : β → List α} {entries waiting : List (α × β)}
    {inDegree : List (α × Nat)} {processed : SortedSet α}
    (h : Draining deps entries inDegree processed waiting [])
    (hacyclic : ∀ c, ¬ Relation.TransGen (Waits deps entries) c c) :
    ∀ id ∈ keys entries, id ∈ processed := by
  let below : {c // c ∈ keys entries} → {c // c ∈ keys entries} → Prop := fun p c =>
    Relation.TransGen (Waits deps entries) c.1 p.1
  have : Finite {c // c ∈ keys entries} := (List.finite_toSet (keys entries)).to_subtype
  have : IsTrans _ below := ⟨fun _ _ _ hab hbc => hbc.trans hab⟩
  have : Std.Irrefl below := ⟨fun c => hacyclic c.1⟩
  have hwf : WellFounded below := Finite.wellFounded_of_trans_of_irrefl below
  intro id hid
  refine hwf.induction (C := fun c => c.1 ∈ processed) ⟨id, hid⟩ fun c ih => ?_
  by_contra hnew
  obtain ⟨b, hb⟩ := mem_keys_iff.mp c.2
  have hpending := (not_congr (h.ready c.1 b hb hnew)).mp List.not_mem_nil
  rw [pending_eq_zero] at hpending
  push Not at hpending
  obtain ⟨p, hp, hpknown, hpnew⟩ := hpending
  exact hpnew (ih ⟨p, hpknown⟩ (.single ⟨hpknown, b, hb, hp⟩))

/-- Without cycles everything is visited, each after what it waits for. -/
theorem run_spec {deps : β → List α} {entries : List (α × β)} (hnodup : (keys entries).Nodup)
    (hacyclic : ∀ c, ¬ Relation.TransGen (Waits deps entries) c c)
    (visit : δ → α → β → SortedSet α → δ) (I : SortedSet α → δ → Prop)
    (hvisit : ∀ processed acc id b, I processed acc → Assoc.get entries id = some b →
      id ∉ processed → (∀ p ∈ deps b, p ∈ keys entries → p ∈ processed) →
      I (processed.insert id) (visit acc id b processed)) {acc : δ} (hI : I .empty acc) :
    (run deps visit entries acc).2 = [] ∧
      ∃ processed, (∀ id, id ∈ processed ↔ id ∈ keys entries) ∧
        I processed (run deps visit entries acc).1 := by
  have hcounts := countsOf_countAll deps hnodup
  have hkids : ∀ c b, Assoc.get entries c = some b → ∀ p ∈ keys entries,
      (kids (countAll deps entries).children p).count c = (deps b).count p := fun c b hb =>
    hcounts.children c b (Assoc.mem_of_get hb)
  have hnoKids : ∀ c, c ∉ keys entries → ∀ p, c ∉ kids (countAll deps entries).children p :=
    fun c hc p => List.count_eq_zero.mp (hcounts.noChildren c hc p)
  obtain ⟨processed, inDegree, hI, hdone⟩ :=
    drain_spec hkids hnoKids I hvisit (draining_start hcounts) hI
  have hall := hdone.all_processed hacyclic
  refine ⟨List.eq_nil_iff_forall_not_mem.mpr ?_, processed, fun id => ⟨hdone.known id, hall id⟩, hI⟩
  rintro ⟨id, b⟩ hmem
  have hwaiting := hdone.waiting id
  have hne : Assoc.get (run deps visit entries acc).2 id ≠ none := fun hnone =>
    Assoc.get_eq_none_iff.mp hnone (List.mem_map_of_mem hmem)
  refine hne (hwaiting.trans ?_)
  split
  · rfl
  · rename_i hnew
    exact Assoc.get_eq_none_iff.mpr fun hknown => hnew (hall id hknown)

/-! ### The order of the visits -/

/-- Appends each key as it is visited. -/
def record (visited : List α) (id : α) (_ : β) (_ : SortedSet α) : List α := visited ++ [id]

def order (deps : β → List α) (entries : List (α × β)) : List α := (run deps record entries []).1

/-- The keys that wait for nothing. -/
def roots (deps : β → List α) (entries : List (α × β)) : List α :=
  (((countAll deps entries).inDegree.filter fun e => e.2 = 0).map Prod.fst).insertionSort (· ≤ ·)

variable {deps : β → List α} {entries : List (α × β)}

theorem mem_roots (hnodup : (keys entries).Nodup) {id : α} :
    id ∈ roots deps entries ↔
      ∃ b, Assoc.get entries id = some b ∧ ∀ p ∈ deps b, p ∉ keys entries := by
  have hcounts := countsOf_countAll deps hnodup
  have hstart := draining_start hcounts
  have hnone : ∀ b, pending entries .empty (deps b) = 0 ↔ ∀ p ∈ deps b, p ∉ keys entries :=
    fun b => pending_eq_zero.trans
      ⟨fun h p hp hk => SortedSet.not_mem_empty p (h p hp hk), fun h p hp hk => absurd hk (h p hp)⟩
  constructor
  · intro hid
    have hknown : id ∈ keys entries := by
      by_contra hmissing
      rw [roots, List.mem_insertionSort] at hid
      obtain ⟨⟨j, n⟩, hj, rfl⟩ := List.mem_map.mp hid
      have hget := hcounts.sorted.get_of_mem (List.mem_filter.mp hj).1
      rw [hcounts.noDegree j hmissing] at hget
      cases hget
    obtain ⟨b, hb⟩ := mem_keys_iff.mp hknown
    exact ⟨b, hb, (hnone b).mp ((hstart.ready id b hb (SortedSet.not_mem_empty id)).mp hid)⟩
  · intro ⟨b, hb, hdeps⟩
    exact (hstart.ready id b hb (SortedSet.not_mem_empty id)).mpr ((hnone b).mpr hdeps)

theorem roots_sorted (hnodup : (keys entries).Nodup) :
    (roots deps entries).Pairwise (· < ·) := by
  have hsorted := (countsOf_countAll deps hnodup).sorted
  have hle := List.pairwise_insertionSort (· ≤ ·)
    (((countAll deps entries).inDegree.filter fun e => e.2 = 0).map Prod.fst)
  have hkeys : ((((countAll deps entries).inDegree.filter fun e => e.2 = 0).map Prod.fst)).Pairwise
      (· ≠ ·) := by
    rw [List.pairwise_map]
    exact (hsorted.filter _).imp fun h => h.ne
  have hne := (List.perm_insertionSort (· ≤ ·) _).symm.pairwise hkeys fun h => h.symm
  exact (hle.and hne).imp fun h => lt_of_le_of_ne h.1 h.2

theorem drain_prefix {children : List (α × List α)} {inDegree : List (α × Nat)}
    {processed : SortedSet α} {waiting : List (α × β)} {visited queue : List α} :
    visited <+: (drain children record inDegree processed waiting visited queue).1 := by
  fun_induction drain children record inDegree processed waiting visited queue with
  | case1 => exact List.prefix_refl _
  | case2 _ _ _ _ _ _ _ ih => exact ih
  | case3 _ _ _ _ _ _ _ _ _ _ _ ih => exact (List.prefix_append _ _).trans ih

/-- What waits in the queue is visited before anything that is queued later. -/
theorem drain_queue {children : List (α × List α)} {inDegree : List (α × Nat)}
    {processed : SortedSet α} {waiting : List (α × β)} {visited ids queue : List α}
    (hids : ids.Nodup) (hwaiting : ∀ id ∈ ids, Assoc.get waiting id ≠ none) :
    visited ++ ids <+:
      (drain children record inDegree processed waiting visited (ids ++ queue)).1 := by
  induction ids generalizing inDegree processed waiting visited queue with
  | nil =>
    rw [List.append_nil]
    exact drain_prefix
  | cons id ids ih =>
    obtain ⟨hid, hids⟩ := List.nodup_cons.mp hids
    obtain ⟨b, hb⟩ := Option.ne_none_iff_exists'.mp (hwaiting id (List.mem_cons_self ..))
    have hrest : ∀ j ∈ ids, Assoc.get (Assoc.erase id waiting) j ≠ none := by
      intro j hj
      have hne : j ≠ id := fun h => hid (h ▸ hj)
      rw [Assoc.get_erase, if_neg hne]
      exact hwaiting j (List.mem_cons_of_mem _ hj)
    have hsplit : visited ++ id :: ids = (visited ++ [id]) ++ ids := by simp
    rw [List.cons_append, drain]
    split
    · rename_i hnone
      rw [hb] at hnone
      cases hnone
    · cases release inDegree ((Assoc.get children id).getD []) with
      | mk rest ready =>
        dsimp only
        rw [hsplit, List.append_assoc ids]
        exact ih hids hrest

theorem roots_prefix (hnodup : (keys entries).Nodup) :
    roots deps entries <+: order deps entries := by
  have hwaiting : ∀ id ∈ roots deps entries, Assoc.get entries id ≠ none := by
    intro id hid
    obtain ⟨b, hb, -⟩ := (mem_roots hnodup).mp hid
    rw [hb]
    exact Option.some_ne_none b
  have hids : (roots deps entries).Nodup := (roots_sorted hnodup).imp ne_of_lt
  have hdrain : [] ++ roots deps entries <+: (drain (countAll deps entries).children record
      (countAll deps entries).inDegree .empty entries [] (roots deps entries ++ [])).1 :=
    drain_queue hids hwaiting
  rw [List.append_nil, List.nil_append] at hdrain
  exact hdrain

/-- What has been visited, each once and after what it depends on. -/
structure Visited (deps : β → List α) (entries : List (α × β)) (processed : SortedSet α)
    (visited : List α) : Prop where
  nodup : visited.Nodup
  mem : ∀ id, id ∈ visited ↔ id ∈ processed
  closed : ∀ id ∈ processed, ∀ b, Assoc.get entries id = some b → ∀ p ∈ deps b,
    p ∈ keys entries → p ∈ processed
  ordered : visited.Pairwise fun a later => ∀ b, Assoc.get entries a = some b → later ∉ deps b

theorem visited_record {processed : SortedSet α} {visited : List α} {id : α} {b : β}
    (h : Visited deps entries processed visited) (hb : Assoc.get entries id = some b)
    (hnew : id ∉ processed) (hdeps : ∀ p ∈ deps b, p ∈ keys entries → p ∈ processed) :
    Visited deps entries (processed.insert id) (record visited id b processed) := by
  have hknown : id ∈ keys entries := mem_keys_iff.mpr ⟨b, hb⟩
  refine ⟨?_, fun j => ?_, fun j hj c hc p hp hpk => ?_, ?_⟩
  · exact List.nodup_append.mpr ⟨h.nodup, List.nodup_singleton id, fun a ha c hc hac =>
      hnew ((h.mem id).mp (List.mem_singleton.mp hc ▸ hac ▸ ha))⟩
  · rw [record, List.mem_append, List.mem_singleton, h.mem, SortedSet.mem_insert]
    exact or_comm
  · rw [SortedSet.mem_insert]
    rcases SortedSet.mem_insert.mp hj with rfl | hj
    · rw [hb] at hc
      cases hc
      exact .inr (hdeps p hp hpk)
    · exact .inr (h.closed j hj c hc p hp hpk)
  · refine List.pairwise_append.mpr ⟨h.ordered, List.pairwise_singleton .., ?_⟩
    intro a ha later hlater c hc hmem
    rw [List.mem_singleton.mp hlater] at hmem
    exact hnew (h.closed a ((h.mem a).mp ha) c hc id hmem hknown)

/-- Without cycles every key is visited. -/
theorem order_spec (hnodup : (keys entries).Nodup)
    (hacyclic : ∀ c, ¬ Relation.TransGen (Waits deps entries) c c) :
    (order deps entries).Nodup ∧ (∀ id, id ∈ order deps entries ↔ id ∈ keys entries) ∧
      (order deps entries).Pairwise fun a later =>
        ∀ b, Assoc.get entries a = some b → later ∉ deps b := by
  have hstart : Visited deps entries .empty [] :=
    ⟨.nil, fun _ => Iff.rfl, fun id hid => absurd hid (SortedSet.not_mem_empty id), .nil⟩
  obtain ⟨-, processed, hall, hvisited⟩ := run_spec hnodup hacyclic record
    (Visited deps entries) (fun _ _ _ _ h hb hnew hdeps => visited_record h hb hnew hdeps) hstart
  exact ⟨hvisited.nodup, fun id => (hvisited.mem id).trans (hall id), hvisited.ordered⟩

end Toposort
end Suture.Foundation
