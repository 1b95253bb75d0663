import Mathlib.Data.List.Count
import Mathlib.Data.List.Induction
import Mathlib.Order.Nat

/-!
# Counting in fixed windows

A counter lets at most so many requests into a window, which starts with the first request after
the last one has ended. A window may end just before another one, so any stretch of its length
sees at most twice as many.
-/

namespace Suture.Foundation.Windows
set_option autoImplicit false

universe u v w

/-- A request let in, and when the window it fell into had started. -/
structure Grant where
  start : Nat
  time : Nat

variable {W M now : Nat} {hist : List Grant}

/-- Windows of length `W`, each with at most `M` grants. -/
structure Spaced (W M : Nat) (hist : List Grant) : Prop where
  inside : ∀ g ∈ hist, g.start ≤ g.time ∧ g.time < g.start + W
  apart : ∀ g ∈ hist, ∀ g' ∈ hist,
    g.start = g'.start ∨ g.start + W ≤ g'.start ∨ g'.start + W ≤ g.start
  few : ∀ s, hist.countP (fun g => decide (g.start = s)) ≤ M

/-- Grants that all fell into one window. -/
theorem Spaced.countP_le (h : Spaced W M hist) {p : Grant → Bool}
    (hp : ∀ g ∈ hist, ∀ g' ∈ hist, p g = true → p g' = true → g.start = g'.start) :
    hist.countP p ≤ M := by
  by_cases hnone : ∃ g ∈ hist, p g = true
  · obtain ⟨g, hg, hpg⟩ := hnone
    refine (List.countP_mono_left fun g' hg' hpg' => ?_).trans (h.few g.start)
    exact decide_eq_true (hp g' hg' g hg hpg' hpg)
  · rw [List.countP_eq_zero.mpr fun g hg hpg => hnone ⟨g, hg, hpg⟩]
    exact Nat.zero_le M

/-- Any stretch of length `W` meets at most two windows. -/
theorem Spaced.rate (h : Spaced W M hist) (t : Nat) :
    hist.countP (fun g => decide (t ≤ g.time ∧ g.time < t + W)) ≤ 2 * M := by
  have hearly : hist.countP (fun g => decide (t ≤ g.time ∧ g.start < t)) ≤ M := by
    refine h.countP_le fun g hg g' hg' hpg hpg' => ?_
    simp only [decide_eq_true_eq] at hpg hpg'
    have := h.inside g hg
    have := h.inside g' hg'
    have := h.apart g hg g' hg'
    omega
  have hlate : hist.countP (fun g => decide (t ≤ g.start ∧ g.start < t + W)) ≤ M := by
    refine h.countP_le fun g hg g' hg' hpg hpg' => ?_
    simp only [decide_eq_true_eq] at hpg hpg'
    have := h.apart g hg g' hg'
    omega
  have hsplit : ∀ l : List Grant, (∀ g ∈ l, g.start ≤ g.time) →
      l.countP (fun g => decide (t ≤ g.time ∧ g.time < t + W)) ≤
        l.countP (fun g => decide (t ≤ g.time ∧ g.start < t)) +
          l.countP (fun g => decide (t ≤ g.start ∧ g.start < t + W)) := by
    intro l
    induction l with
    | nil => simp
    | cons g l ih =>
      intro hl
      obtain ⟨hg, hl⟩ := List.forall_mem_cons.mp hl
      have := ih hl
      simp only [List.countP_cons, decide_eq_true_eq]
      split_ifs <;> omega
  have := hsplit hist fun g hg => (h.inside g hg).1
  omega

/-! ### One counter -/

/-- A request at a time; the counter is how many were let in since the window started. -/
def allow (W limit now : Nat) : Option (Nat × Nat) → Bool × Option (Nat × Nat)
  | none => (true, some (1, now))
  | some (count, start) =>
    if start + W ≤ now then (true, some (1, now))
    else if count < limit then (true, some (count + 1, start))
    else (false, some (count, start))

/-- A counter whose window has ended may be forgotten. -/
def Trimmed (W now : Nat) (c c' : Option (Nat × Nat)) : Prop :=
  c' = c ∨ c' = none ∧ ∃ count start, c = some (count, start) ∧ start + W ≤ now

/-- A counter counts the grants of the last window. -/
structure Counts (W M now : Nat) (hist : List Grant) (c : Option (Nat × Nat)) : Prop where
  spaced : Spaced W M hist
  running : ∀ count start, c = some (count, start) → start ≤ now ∧ 1 ≤ count ∧
    count = hist.countP (fun g => decide (g.start = start)) ∧
    ∀ g ∈ hist, g.start = start ∨ g.start + W ≤ start
  ended : c = none → ∀ g ∈ hist, g.start + W ≤ now

variable {c c' : Option (Nat × Nat)}

theorem counts_nil (W M now : Nat) : Counts W M now [] none :=
  ⟨⟨nofun, nofun, fun _ => Nat.zero_le M⟩, nofun, fun _ => nofun⟩

theorem Counts.later (h : Counts W M now hist c) {now' : Nat} (hle : now ≤ now') :
    Counts W M now' hist c where
  spaced := h.spaced
  running count start hc := by
    obtain ⟨hstart, hrest⟩ := h.running count start hc
    exact ⟨hstart.trans hle, hrest⟩
  ended hc g hg := (h.ended hc g hg).trans hle

/-- Once the window has ended, everything let in was let in before. -/
theorem Counts.past (h : Counts W M now hist c)
    (hc : ∀ count start, c = some (count, start) → start + W ≤ now) :
    ∀ g ∈ hist, g.start + W ≤ now := by
  intro g hg
  cases c with
  | none => exact h.ended rfl g hg
  | some c =>
    obtain ⟨count, start⟩ := c
    have := hc count start rfl
    have := (h.running count start rfl).2.2.2 g hg
    omega

theorem Counts.trimmed (h : Counts W M now hist c) (hc : Trimmed W now c c') :
    Counts W M now hist c' := by
  rcases hc with rfl | ⟨rfl, count, start, rfl, hend⟩
  · exact h
  · refine ⟨h.spaced, nofun, fun _ => h.past ?_⟩
    rintro _ _ ⟨⟩
    exact hend

theorem countP_concat (p : Grant → Bool) (g : Grant) :
    (hist ++ [g]).countP p = hist.countP p + if p g then 1 else 0 := by
  rw [List.countP_append, List.countP_singleton]

/-- A request after the last window starts another. -/
theorem Counts.start (h : Counts W M now hist c) (hW : 0 < W) (hM : 1 ≤ M)
    (hpast : ∀ g ∈ hist, g.start + W ≤ now) :
    Counts W M now (hist ++ [⟨now, now⟩]) (some (1, now)) := by
  have hnone : hist.countP (fun g => decide (g.start = now)) = 0 :=
    List.countP_eq_zero.mpr fun g hg => by
      have := hpast g hg
      simp only [decide_eq_true_eq]
      omega
  refine ⟨⟨?_, ?_, fun s => ?_⟩, ?_, nofun⟩
  · intro g hg
    rcases List.mem_append.mp hg with hg | hg
    · exact h.spaced.inside g hg
    · obtain rfl := List.mem_singleton.mp hg
      exact ⟨Nat.le_refl _, Nat.lt_add_of_pos_right hW⟩
  · intro g hg g' hg'
    rcases List.mem_append.mp hg with hg | hg <;> rcases List.mem_append.mp hg' with hg' | hg'
    · exact h.spaced.apart g hg g' hg'
    · obtain rfl := List.mem_singleton.mp hg'
      exact .inr (.inl (hpast g hg))
    · obtain rfl := List.mem_singleton.mp hg
      exact .inr (.inr (hpast g' hg'))
    · rw [List.mem_singleton.mp hg, List.mem_singleton.mp hg']
      exact .inl rfl
  · rw [countP_concat]
    have := h.spaced.few s
    by_cases hs : now = s
    · subst s
      simp [hnone, hM]
    · simpa [hs] using this
  · rintro _ _ ⟨⟩
    refine ⟨Nat.le_refl _, Nat.le_refl _, by rw [countP_concat, hnone]; simp, fun g hg => ?_⟩
    rcases List.mem_append.mp hg with hg | hg
    · exact .inr (hpast g hg)
    · exact .inl (by rw [List.mem_singleton.mp hg])

/-- A request into a window that has room. -/
theorem Counts.join {count start : Nat} (h : Counts W M now hist (some (count, start)))
    (hopen : now < start + W) (hroom : count < M) :
    Counts W M now (hist ++ [⟨start, now⟩]) (some (count + 1, start)) := by
  obtain ⟨hstart, _, hcount, hlast⟩ := h.running count start rfl
  refine ⟨⟨?_, ?_, fun s => ?_⟩, ?_, nofun⟩
  · intro g hg
    rcases List.mem_append.mp hg with hg | hg
    · exact h.spaced.inside g hg
    · obtain rfl := List.mem_singleton.mp hg
      exact ⟨hstart, hopen⟩
  · intro g hg g' hg'
    rcases List.mem_append.mp hg with hg | hg <;> rcases List.mem_append.mp hg' with hg' | hg'
    · exact h.spaced.apart g hg g' hg'
    · obtain rfl := List.mem_singleton.mp hg'
      exact (hlast g hg).imp_right .inl
    · obtain rfl := List.mem_singleton.mp hg
      exact (hlast g' hg').imp Eq.symm .inr
    · rw [List.mem_singleton.mp hg, List.mem_singleton.mp hg']
      exact .inl rfl
  · rw [countP_concat]
    have := h.spaced.few s
    by_cases hs : start = s
    · subst s
      simp only [decide_true, if_true, ← hcount]
      omega
    · simpa [hs] using this
  · rintro _ _ ⟨⟩
    refine ⟨hstart, Nat.le_add_left 1 count, by rw [countP_concat, ← hcount]; simp, fun g hg => ?_⟩
    rcases List.mem_append.mp hg with hg | hg
    · exact hlast g hg
    · exact .inl (by rw [List.mem_singleton.mp hg])

/-- What a request leaves behind: one more grant, or a window that is full. -/
theorem Counts.allow (h : Counts W M now hist c) (hW : 0 < W) (hM : 1 ≤ M) {limit : Nat}
    (hlimit : limit ≤ M) :
    ((allow W limit now c).1 = true ∧
      ∃ start, Counts W M now (hist ++ [⟨start, now⟩]) (allow W limit now c).2) ∨
    ((allow W limit now c).1 = false ∧ Counts W M now hist (allow W limit now c).2 ∧
      max limit 1 ≤ hist.countP (fun g => decide (now < g.time + W))) := by
  cases c with
  | none => exact .inl ⟨rfl, now, h.start hW hM (h.ended rfl)⟩
  | some c =>
    obtain ⟨count, start⟩ := c
    by_cases hend : start + W ≤ now
    · rw [Windows.allow, if_pos hend]
      refine .inl ⟨rfl, now, h.start hW hM (h.past ?_)⟩
      rintro _ _ ⟨⟩
      exact hend
    by_cases hroom : count < limit
    · rw [Windows.allow, if_neg hend, if_pos hroom]
      exact .inl ⟨rfl, start, h.join (by omega) (by omega)⟩
    · rw [Windows.allow, if_neg hend, if_neg hroom]
      refine .inr ⟨rfl, h, ?_⟩
      obtain ⟨_, hone, hcount, _⟩ := h.running count start rfl
      have hsub : hist.countP (fun g => decide (g.start = start)) ≤
          hist.countP (fun g => decide (now < g.time + W)) := by
        refine List.countP_mono_left fun g hg hgs => ?_
        simp only [decide_eq_true_eq] at hgs ⊢
        have := (h.spaced.inside g hg).1
        omega
      omega

/-! ### A table of counters -/

section Table
variable {σ : Type u} {ρ : Type v} {κ : Type w}

/-- A request at its time, after those let in so far. -/
def serve (check : Nat → ρ → σ → Bool × σ) (g : List (Nat × ρ) × σ) (r : Nat × ρ) :
    List (Nat × ρ) × σ :=
  (if (check r.1 r.2 g.2).1 then g.1 ++ [r] else g.1, (check r.1 r.2 g.2).2)

/-- The requests let in, and the state after all of them. -/
def served (check : Nat → ρ → σ → Bool × σ) (s : σ) (rs : List (Nat × ρ)) : List (Nat × ρ) × σ :=
  rs.foldl (serve check) ([], s)

/-- The check keeps a counter for each key; some requests have none. -/
structure Keeps (W : Nat) (check : Nat → ρ → σ → Bool × σ) (key : ρ → Option κ) (limit : ρ → Nat)
    (counter : σ → κ → Option (Nat × Nat)) : Prop where
  own : ∀ now r s k, key r = some k → ∃ c, Trimmed W now (counter s k) c ∧
    (check now r s).1 = (allow W (limit r) now c).1 ∧
    counter (check now r s).2 k = (allow W (limit r) now c).2
  other : ∀ now r s k, key r ≠ some k → Trimmed W now (counter s k) (counter (check now r s).2 k)

variable [DecidableEq κ] {check : Nat → ρ → σ → Bool × σ} {key : ρ → Option κ} {limit : ρ → Nat}
  {counter : σ → κ → Option (Nat × Nat)} {k : κ} {s : σ} {rs : List (Nat × ρ)}

/-- The counter of a key counts what was let in under it. -/
def Tracks (W M now : Nat) (key : ρ → Option κ) (counter : σ → κ → Option (Nat × Nat)) (k : κ)
    (g : List (Nat × ρ) × σ) : Prop :=
  ∃ hist : List Grant, hist.map Grant.time =
      (g.1.filter fun r => decide (key r.2 = some k)).map Prod.fst ∧
    Counts W M now hist (counter g.2 k)

theorem Keeps.serve (h : Keeps W check key limit counter) (hW : 0 < W) (hM : 1 ≤ M)
    {g : List (Nat × ρ) × σ} {r : Nat × ρ} (hg : Tracks W M r.1 key counter k g)
    (hlimit : key r.2 = some k → limit r.2 ≤ M) :
    Tracks W M r.1 key counter k (serve check g r) := by
  obtain ⟨hist, htimes, hcounts⟩ := hg
  by_cases hkey : key r.2 = some k
  · obtain ⟨c, htrim, hanswer, hcounter⟩ := h.own r.1 r.2 g.2 k hkey
    rcases (hcounts.trimmed htrim).allow hW hM (hlimit hkey) with
      ⟨hok, start, hnew⟩ | ⟨hok, hsame, -⟩
    · refine ⟨hist ++ [⟨start, r.1⟩], ?_, ?_⟩
      · simp [Windows.serve, hanswer, hok, hkey, htimes]
      · rw [Windows.serve, hcounter]
        exact hnew
    · refine ⟨hist, ?_, ?_⟩
      · simpa [Windows.serve, hanswer, hok] using htimes
      · rw [Windows.serve, hcounter]
        exact hsame
  · refine ⟨hist, ?_, hcounts.trimmed (h.other r.1 r.2 g.2 k hkey)⟩
    rw [Windows.serve, htimes]
    split <;> simp [hkey]

theorem Keeps.tracks (h : Keeps W check key limit counter) (hW : 0 < W) (hM : 1 ≤ M)
    (hs : counter s k = none) (hclock : (rs.map Prod.fst).Pairwise (· ≤ ·))
    (hlimit : ∀ r ∈ rs, key r.2 = some k → limit r.2 ≤ M) {now : Nat}
    (hnow : ∀ r ∈ rs, r.1 ≤ now) : Tracks W M now key counter k (served check s rs) := by
  induction rs using List.reverseRecOn generalizing now with
  | nil => exact ⟨[], rfl, hs ▸ counts_nil W M now⟩
  | append_singleton rs r ih =>
    rw [List.map_append, List.pairwise_append] at hclock
    have hbefore : ∀ q ∈ rs, q.1 ≤ r.1 := fun q hq =>
      hclock.2.2 q.1 (List.mem_map_of_mem hq) r.1 (by simp)
    have hstep := h.serve hW hM
      (ih hclock.1 (fun q hq => hlimit q (List.mem_append_left _ hq)) hbefore)
      (hlimit r (by simp))
    obtain ⟨hist, htimes, hcounts⟩ := hstep
    rw [served, List.foldl_append]
    exact ⟨hist, htimes, hcounts.later (hnow r (by simp))⟩

omit [DecidableEq κ] in
theorem exists_bound (f : Nat × ρ → Nat) (rs : List (Nat × ρ)) : ∃ M, ∀ r ∈ rs, f r ≤ M := by
  induction rs with
  | nil => exact ⟨0, nofun⟩
  | cons r rs ih =>
    obtain ⟨M, hM⟩ := ih
    refine ⟨max (f r) M, List.forall_mem_cons.mpr ⟨Nat.le_max_left .., fun q hq => ?_⟩⟩
    exact (hM q hq).trans (Nat.le_max_right ..)

theorem countP_times {hist : List Grant} {granted : List (Nat × ρ)} (p : Nat → Bool)
    (h : hist.map Grant.time = (granted.filter fun r => decide (key r.2 = some k)).map Prod.fst) :
    granted.countP (fun r => decide (key r.2 = some k) && p r.1) =
      hist.countP fun g => p g.time := by
  have hcount := congrArg (List.countP p) h
  rw [List.countP_map, List.countP_map, List.countP_filter] at hcount
  rw [show (fun g : Grant => p g.time) = p ∘ Grant.time from rfl, hcount]
  exact List.countP_congr fun r _ => by simp [and_comm]

/-- In any stretch as long as a window, at most twice the limit is let in under a key. -/
theorem Keeps.rate (h : Keeps W check key limit counter) (hW : 0 < W) (hM : 1 ≤ M)
    (hs : counter s k = none) (hclock : (rs.map Prod.fst).Pairwise (· ≤ ·))
    (hlimit : ∀ r ∈ rs, key r.2 = some k → limit r.2 ≤ M) (t : Nat) :
    (served check s rs).1.countP (fun r => decide (key r.2 = some k) &&
      decide (t ≤ r.1 ∧ r.1 < t + W)) ≤ 2 * M := by
  obtain ⟨now, hnow⟩ := exists_bound Prod.fst rs
  obtain ⟨hist, htimes, hcounts⟩ := h.tracks hW hM hs hclock hlimit hnow
  rw [countP_times (fun time => decide (t ≤ time ∧ time < t + W)) htimes]
  exact hcounts.spaced.rate t

/-- A request is refused only when its window is full. -/
theorem Keeps.refused (h : Keeps W check key limit counter) (hW : 0 < W) (hs : counter s k = none)
    (hclock : (rs.map Prod.fst).Pairwise (· ≤ ·)) {now : Nat} (hnow : ∀ r ∈ rs, r.1 ≤ now) {r : ρ}
    (hkey : key r = some k) (hrefused : (check now r (served check s rs).2).1 = false) :
    max (limit r) 1 ≤ (served check s rs).1.countP (fun q => decide (key q.2 = some k) &&
      decide (now < q.1 + W)) := by
  obtain ⟨M, hM⟩ := exists_bound (fun q => limit q.2) ((now, r) :: rs)
  obtain ⟨hr, hM⟩ := List.forall_mem_cons.mp hM
  obtain ⟨hist, htimes, hcounts⟩ := h.tracks (M := max M 1) hW (Nat.le_max_right ..) hs hclock
    (fun q hq _ => (hM q hq).trans (Nat.le_max_left ..)) hnow
  obtain ⟨c, htrim, hanswer, -⟩ := h.own now r (served check s rs).2 k hkey
  rw [countP_times (fun time => decide (now < time + W)) htimes]
  rcases (hcounts.trimmed htrim).allow hW (Nat.le_max_right ..)
      (hr.trans (Nat.le_max_left M 1)) with ⟨hok, -⟩ | ⟨-, -, hfull⟩
  · rw [hanswer, hok] at hrefused
    cases hrefused
  · exact hfull

end Table

end Suture.Foundation.Windows
