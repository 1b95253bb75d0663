import Suture.Foundation.Program

/-!
# Loops of checked writes

A step of such a loop fails and leaves the state, or writes. Which item fails first, and
what is written before it, are functions of the state at the start.
-/

namespace Suture.Foundation.Program
set_option autoImplicit false

variable {σ ε α : Type}

/-- Like `forEach`, with the position of each item. -/
def forEachFrom (f : Nat → α → Program σ ε Unit) : Nat → List α → Program σ ε Unit
  | _, [] => pure ()
  | k, a :: as => do
    f k a
    forEachFrom f (k + 1) as

def checkedWrite (check : σ → Option ε) (write : σ → σ) : Program σ ε Unit := fun s =>
  match check s with
  | some e => (.error e, s)
  | none => (.ok (), write s)

variable (check : Nat → α → σ → Option ε) (write : Nat → α → σ → σ)

def writeAll : Nat → List α → σ → σ
  | _, [], s => s
  | k, a :: as, s => writeAll (k + 1) as (write k a s)

/-- How many items pass before the first that fails, and its failure. -/
def firstFailure : Nat → List α → σ → Option (Nat × ε)
  | _, [], _ => none
  | k, a :: as, s =>
    match check k a s with
    | some e => some (0, e)
    | none => (firstFailure (k + 1) as (write k a s)).map fun p => (p.1 + 1, p.2)

variable {check write}

theorem forEachFrom_checked {f : Nat → α → Program σ ε Unit}
    (hf : ∀ k a, f k a = checkedWrite (check k a) (write k a)) (k : Nat) (as : List α) (s : σ) :
    forEachFrom f k as s =
      match firstFailure check write k as s with
      | none => (.ok (), writeAll write k as s)
      | some (n, e) => (.error e, writeAll write k (as.take n) s) := by
  induction as generalizing k s with
  | nil => rfl
  | cons a as ih =>
    rw [forEachFrom, firstFailure]
    have hstep : f k a s = checkedWrite (check k a) (write k a) s := by rw [hf]
    unfold checkedWrite at hstep
    cases hcheck : check k a s with
    | some e =>
      rw [hcheck] at hstep
      exact bind_of_error hstep
    | none =>
      rw [hcheck] at hstep
      rw [bind_of_ok hstep, ih]
      cases firstFailure check write (k + 1) as (write k a s) with
      | none => rfl
      | some p => rfl

/-- Loops whose states are related make the same checks. -/
theorem firstFailure_congr {τ : Type} {check' : Nat → α → τ → Option ε} {write' : Nat → α → τ → τ}
    {R : σ → τ → Prop} (hcheck : ∀ k a s t, R s t → check k a s = check' k a t)
    (hwrite : ∀ k a s t, R s t → R (write k a s) (write' k a t)) (k : Nat) (as : List α) {s : σ}
    {t : τ} (h : R s t) : firstFailure check write k as s = firstFailure check' write' k as t := by
  induction as generalizing k s t with
  | nil => rfl
  | cons a as ih => rw [firstFailure, firstFailure, hcheck k a s t h, ih (k + 1) (hwrite k a s t h)]

/-- An item before the first failure passes, when those before it are written. -/
theorem check_eq_none {k n : Nat} {as : List α} {a : α} {s : σ} (ha : as[n]? = some a)
    (hn : ∀ m e, firstFailure check write k as s = some (m, e) → n < m) :
    check (k + n) a (writeAll write k (as.take n) s) = none := by
  induction as generalizing k n s with
  | nil => cases ha
  | cons b as ih =>
    rw [firstFailure] at hn
    cases hcheck : check k b s with
    | some e =>
      rw [hcheck] at hn
      exact absurd (hn 0 e rfl) (Nat.not_lt_zero n)
    | none =>
      rw [hcheck] at hn
      cases n with
      | zero =>
        cases ha
        exact hcheck
      | succ n =>
        rw [show k + (n + 1) = k + 1 + n by omega, List.take_succ_cons, writeAll]
        refine ih ha fun m e hfail => ?_
        have := hn (m + 1) e (by rw [hfail]; rfl)
        omega

/-- What every write keeps, the loop keeps. -/
theorem writeAll_of_step {P : σ → Prop} (hstep : ∀ k a s, P s → P (write k a s)) (k : Nat)
    (as : List α) {s : σ} (h : P s) : P (writeAll write k as s) := by
  induction as generalizing k s with
  | nil => exact h
  | cons a as ih => exact ih (k + 1) (hstep k a s h)

/-- A loop whose items each give a value that only they and what is kept decide. What holds
of the values holds from then on. -/
theorem mapEach_run {β : Type} {f : α → Program σ ε β} {g : α → β} {P : σ → Prop}
    {Q : β → σ → Prop} (hf : ∀ a s b t, P s → f a s = (.ok b, t) →
      b = g a ∧ P t ∧ Q b t ∧ ∀ c, Q c s → Q c t) {as : List α} {s t : σ} {bs : List β} (hs : P s)
    (h : mapEach f as s = (.ok bs, t)) :
    bs = as.map g ∧ P t ∧ (∀ b ∈ bs, Q b t) ∧ ∀ c, Q c s → Q c t := by
  induction as generalizing s bs with
  | nil =>
    cases h
    exact ⟨rfl, hs, nofun, fun _ => id⟩
  | cons a as ih =>
    obtain ⟨b, s₁, hb, h⟩ := bind_ok h
    obtain ⟨bs', s₂, hbs, h⟩ := bind_ok h
    cases h
    obtain ⟨rfl, hs₁, hQ, hkeep⟩ := hf a s b s₁ hs hb
    obtain ⟨rfl, hs₂, hQs, hkeeps⟩ := ih hs₁ hbs
    exact ⟨rfl, hs₂, List.forall_mem_cons.mpr ⟨hkeeps _ hQ, hQs⟩,
      fun c hc => hkeeps c (hkeep c hc)⟩

/-! ### Failures -/

section Failures
variable {β : Type} {D : Drift σ} {m : Program σ ε α} {k : α → Program σ ε β}

/-- Programs that never fail. -/
def Returns (m : Program σ ε α) : Prop := ∀ s, ∃ a t, m s = (.ok a, t)

/-- Programs that only move along an order before they fail. -/
def FailsQuiet (D : Drift σ) (m : Program σ ε α) : Prop :=
  ∀ s e t, m s = (.error e, t) → D.le s t

theorem returns_pure (a : α) : Returns (pure a : Program σ ε α) := fun s => ⟨a, s, rfl⟩

theorem returns_modify (f : σ → σ) : Returns (modify f : Program σ ε Unit) :=
  fun s => ⟨(), f s, rfl⟩

theorem returns_attempt (m : Program σ ε α) : Returns m.attempt := fun s => ⟨_, (m s).2, rfl⟩

theorem Returns.bind (hm : Returns m) (hk : ∀ a, Returns (k a)) : Returns (m >>= k) := by
  intro s
  obtain ⟨a, t, hrun⟩ := hm s
  rw [bind_of_ok hrun]
  exact hk a t

theorem Returns.forEach {f : α → Program σ ε Unit} (hf : ∀ a, Returns (f a)) (as : List α) :
    Returns (Program.forEach f as) := by
  induction as with
  | nil => exact returns_pure ()
  | cons a as ih => exact (hf a).bind fun _ => ih

theorem Returns.failsQuiet (hm : Returns m) : FailsQuiet D m := by
  intro s e t h
  obtain ⟨a, u, hrun⟩ := hm s
  rw [hrun] at h
  cases h

theorem FailsQuiet.bind (hm : Quiet D m) (hk : ∀ a, FailsQuiet D (k a)) :
    FailsQuiet D (m >>= k) := by
  intro s e t h
  have hle := hm s
  rcases hrun : m s with ⟨e' | a, u⟩
  · rw [bind_of_error hrun] at h
    rw [hrun] at hle
    cases h
    exact hle
  · rw [bind_of_ok hrun] at h
    rw [hrun] at hle
    exact D.trans hle (hk a u e t h)

end Failures

/-! ### Refusals -/

section Refusals
variable {β τ : Type} {s : σ}

/-- The program fails and leaves the state as it was. -/
def Refuses (m : Program σ ε α) (s : σ) : Prop := ∃ e, m s = (.error e, s)

theorem not_refuses_pure (a : α) : ¬ Refuses (pure a : Program σ ε α) s := nofun

theorem refuses_fail (e : ε) : Refuses (fail e : Program σ ε α) s := ⟨e, rfl⟩

theorem refuses_require_bind (p : Prop) [Decidable p] (e : ε) (k : Unit → Program σ ε β) :
    Refuses (require p e >>= k) s ↔ ¬ p ∨ Refuses (k ()) s := by
  unfold Refuses
  by_cases hp : p
  · rw [require_bind hp]
    exact ⟨.inr, fun h => h.resolve_left (not_not_intro hp)⟩
  · rw [require_bind_of_not hp]
    exact ⟨fun _ => .inl hp, fun _ => ⟨e, rfl⟩⟩

theorem quiet_checkedWrite {D : Drift σ} (check : σ → Option ε) {write : σ → σ}
    (h : ∀ s, D.le s (write s)) : Quiet D (checkedWrite check write) := by
  intro s
  unfold checkedWrite
  cases check s with
  | some e => exact D.refl s
  | none => exact h s

/-- What is written first must not change anything, if nothing after it takes it back. -/
theorem refuses_checkedWrite_bind {check : σ → Option ε} {write : σ → σ}
    {k : Unit → Program σ ε β} (view : σ → τ) (hwrite : view (write s) = view s → write s = s)
    (hk : Quiet (.ofView view) (k ())) :
    Refuses (checkedWrite check write >>= k) s ↔
      check s ≠ none ∨ write s = s ∧ Refuses (k ()) s := by
  cases hcheck : check s with
  | some e =>
    have hrun : checkedWrite check write s = (.error e, s) := by rw [checkedWrite, hcheck]
    exact ⟨fun _ => .inl (Option.some_ne_none e), fun _ => ⟨e, bind_of_error hrun⟩⟩
  | none =>
    have hrun : checkedWrite check write s = (.ok (), write s) := by rw [checkedWrite, hcheck]
    unfold Refuses
    rw [bind_of_ok hrun]
    constructor
    · rintro ⟨e, h⟩
      have hview : view (k () (write s)).2 = view (write s) := hk (write s)
      rw [h] at hview
      have hsame := hwrite hview.symm
      rw [hsame] at h
      exact .inr ⟨hsame, e, h⟩
    · rintro (hnone | ⟨hsame, e, h⟩)
      · exact absurd rfl hnone
      · rw [hsame]
        exact ⟨e, h⟩

end Refusals

end Suture.Foundation.Program
