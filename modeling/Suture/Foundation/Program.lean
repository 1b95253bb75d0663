import Mathlib.Logic.Basic

/-!
# Programs with state and failure

A program returns or fails, and leaves a new state either way. `Discipline.Safe` is
the triple for an invariant and an order along which states may move: both hold at
every end, whatever comes first.
-/

namespace Suture.Foundation
set_option autoImplicit false

def Program (σ ε α : Type) : Type := σ → Except ε α × σ

namespace Program
variable {σ ε α β : Type}

instance : Monad (Program σ ε) where
  pure a := fun s => (.ok a, s)
  bind m k := fun s =>
    match m s with
    | (.ok a, s') => k a s'
    | (.error e, s') => (.error e, s')

def read : Program σ ε σ := fun s => (.ok s, s)

def modify (f : σ → σ) : Program σ ε Unit := fun s => (.ok (), f s)

def fail (e : ε) : Program σ ε α := fun s => (.error e, s)

def ofExcept : Except ε α → Program σ ε α
  | .ok a => pure a
  | .error e => fail e

def require (p : Prop) [Decidable p] (e : ε) : Program σ ε Unit := if p then pure () else fail e

/-- Runs a program; its failure is a value, its changes stay. -/
def attempt (m : Program σ ε α) : Program σ ε (Except ε α) := fun s => (.ok (m s).1, (m s).2)

def forEach (f : α → Program σ ε Unit) : List α → Program σ ε Unit
  | [] => pure ()
  | a :: as => do f a; forEach f as

def mapEach (f : α → Program σ ε β) : List α → Program σ ε (List β)
  | [] => pure []
  | a :: as => do
    let b ← f a
    let bs ← mapEach f as
    return b :: bs

def foldEach (f : β → α → Program σ ε β) : β → List α → Program σ ε β
  | b, [] => pure b
  | b, a :: as => do
    let b ← f b a
    foldEach f b as

theorem bind_ok {m : Program σ ε α} {k : α → Program σ ε β} {s s' : σ} {b : β}
    (h : (m >>= k) s = (.ok b, s')) : ∃ a t, m s = (.ok a, t) ∧ k a t = (.ok b, s') := by
  change (match m s with
    | (.ok a, t) => k a t
    | (.error e, t) => (.error e, t)) = _ at h
  rcases hm : m s with ⟨_ | a, t⟩
  · rw [hm] at h
    cases h
  · rw [hm] at h
    exact ⟨a, t, rfl, h⟩

theorem bind_of_ok {m : Program σ ε α} {k : α → Program σ ε β} {s t : σ} {a : α}
    (h : m s = (.ok a, t)) : (m >>= k) s = k a t := by
  change (match m s with
    | (.ok a, t) => k a t
    | (.error e, t) => (.error e, t)) = _
  rw [h]

theorem bind_of_error {m : Program σ ε α} {k : α → Program σ ε β} {s t : σ} {e : ε}
    (h : m s = (.error e, t)) : (m >>= k) s = (.error e, t) := by
  change (match m s with
    | (.ok a, t) => k a t
    | (.error e, t) => (.error e, t)) = _
  rw [h]

theorem ok_of_toOption {r : Except ε α} {a : α} (h : r.toOption = some a) : r = .ok a := by
  cases r with
  | error e => cases h
  | ok b => exact congrArg _ (Option.some.inj h)

theorem ok_of_isSome {r : Except ε α} (h : r.toOption.isSome = true) : ∃ a, r = .ok a :=
  (Option.isSome_iff_exists.mp h).imp fun _ => ok_of_toOption

theorem returns_of_isSome {m : Program σ ε α} {s : σ} (h : (m s).1.toOption.isSome = true) :
    ∃ a, m s = (.ok a, (m s).2) :=
  (ok_of_isSome h).imp fun _ ha => Prod.ext ha rfl

/-- A run of whose result something is known returns it. -/
theorem returns_of_map {m : Program σ ε α} {s : σ} {f : α → β} {b : β}
    (h : (m s).1.toOption.map f = some b) : ∃ a, m s = (.ok a, (m s).2) ∧ f a = b := by
  obtain ⟨a, hrun⟩ := returns_of_isSome (m := m) (s := s)
    (by rw [← Option.isSome_map (f := f), h, Option.isSome_some])
  rw [hrun] at h
  exact ⟨a, hrun, Option.some.inj h⟩

theorem read_bind (k : σ → Program σ ε β) (s : σ) : (read >>= k) s = k s s := rfl

theorem modify_bind (f : σ → σ) (k : Unit → Program σ ε β) (s : σ) :
    (modify f >>= k) s = k () (f s) := rfl

theorem require_bind {p : Prop} [Decidable p] (hp : p) (e : ε) (k : Unit → Program σ ε β) (s : σ) :
    (require p e >>= k) s = k () s := by
  rw [require, if_pos hp]
  rfl

theorem require_bind_of_not {p : Prop} [Decidable p] (hp : ¬ p) (e : ε)
    (k : Unit → Program σ ε β) (s : σ) : (require p e >>= k) s = (.error e, s) := by
  rw [require, if_neg hp]
  rfl

theorem attempt_bind {m : Program σ ε α} {s t : σ} {r : Except ε α} (h : m s = (r, t))
    (k : Except ε α → Program σ ε β) : (m.attempt >>= k) s = k r t :=
  bind_of_ok (by rw [attempt, h])

theorem ofExcept_run (r : Except ε α) (s : σ) : ofExcept r s = (r, s) := by
  cases r <;> rfl

end Program

/-- An order along which states may move. -/
structure Drift (σ : Type) where
  le : σ → σ → Prop
  refl : ∀ s, le s s
  trans : ∀ {s t u}, le s t → le t u → le s u

/-- Moves that leave a view of the state alone. -/
def Drift.ofView {σ τ : Type} (view : σ → τ) : Drift σ where
  le s t := view t = view s
  refl _ := rfl
  trans h h' := h'.trans h

namespace Program
variable {σ ε α β : Type} {D : Drift σ}

/-! ### Programs that only move along an order -/

def Quiet (D : Drift σ) (m : Program σ ε α) : Prop := ∀ s, D.le s (m s).2

theorem quiet_pure (a : α) : Quiet D (pure a : Program σ ε α) := D.refl

theorem quiet_read : Quiet D (read : Program σ ε σ) := D.refl

theorem quiet_fail (e : ε) : Quiet D (fail e : Program σ ε α) := D.refl

theorem quiet_modify {f : σ → σ} (h : ∀ s, D.le s (f s)) :
    Quiet D (modify f : Program σ ε Unit) := h

theorem quiet_ofExcept (r : Except ε α) : Quiet D (ofExcept r : Program σ ε α) := by
  cases r <;> exact D.refl

theorem quiet_require (p : Prop) [Decidable p] (e : ε) :
    Quiet D (require p e : Program σ ε Unit) := by
  unfold require
  split
  · exact quiet_pure ()
  · exact quiet_fail e

theorem Quiet.bind {m : Program σ ε α} {k : α → Program σ ε β} (hm : Quiet D m)
    (hk : ∀ a, Quiet D (k a)) : Quiet D (m >>= k) := by
  intro s
  have hle := hm s
  rcases h : m s with ⟨r | a, t⟩
  · rw [bind_of_error h]
    rwa [h] at hle
  · rw [bind_of_ok h]
    rw [h] at hle
    exact D.trans hle (hk a t)

theorem Quiet.attempt {m : Program σ ε α} (hm : Quiet D m) : Quiet D m.attempt := hm

theorem Quiet.forEach {f : α → Program σ ε Unit} (hf : ∀ a, Quiet D (f a)) (as : List α) :
    Quiet D (forEach f as) := by
  induction as with
  | nil => exact quiet_pure ()
  | cons a as ih => exact (hf a).bind fun _ => ih

theorem Quiet.mapEach {f : α → Program σ ε β} (hf : ∀ a, Quiet D (f a)) (as : List α) :
    Quiet D (mapEach f as) := by
  induction as with
  | nil => exact quiet_pure []
  | cons a as ih => exact (hf a).bind fun _ => ih.bind fun _ => quiet_pure _

theorem Quiet.foldEach {f : β → α → Program σ ε β} (hf : ∀ b a, Quiet D (f b a)) (b : β)
    (as : List α) : Quiet D (foldEach f b as) := by
  induction as generalizing b with
  | nil => exact quiet_pure b
  | cons a as ih => exact (hf b a).bind fun b => ih b

end Program

/-- An invariant, and an order along which states may move. -/
structure Discipline (σ : Type) extends Drift σ where
  inv : σ → Prop

namespace Discipline
variable {σ ε α β : Type} (D : Discipline σ)

/-- From `s` the program ends in the invariant, up the order, and what it returns
meets `Q`. -/
structure Safe (m : Program σ ε α) (s : σ) (Q : α → σ → Prop) : Prop where
  inv : D.inv (m s).2
  le : D.le s (m s).2
  post : ∀ a, (m s).1 = .ok a → Q a (m s).2

variable {D}

theorem safe_pure {s : σ} (hs : D.inv s) {a : α} {Q : α → σ → Prop} (hQ : Q a s) :
    D.Safe (pure a : Program σ ε α) s Q where
  inv := hs
  le := D.refl s
  post := by
    rintro _ ⟨⟩
    exact hQ

theorem safe_fail {s : σ} (hs : D.inv s) (e : ε) {Q : α → σ → Prop} :
    D.Safe (Program.fail e) s Q where
  inv := hs
  le := D.refl s
  post := nofun

theorem safe_modify {s : σ} {f : σ → σ} (hinv : D.inv (f s)) (hle : D.le s (f s))
    {Q : Unit → σ → Prop} (hQ : Q () (f s)) :
    D.Safe (Program.modify f : Program σ ε Unit) s Q where
  inv := hinv
  le := hle
  post := fun _ _ => hQ

theorem safe_ofExcept {s : σ} (hs : D.inv s) {r : Except ε α} {Q : α → σ → Prop}
    (hQ : ∀ a, r = .ok a → Q a s) : D.Safe (Program.ofExcept r) s Q := by
  cases r with
  | ok a => exact safe_pure hs (hQ a rfl)
  | error e => exact safe_fail hs e

theorem Safe.mono {m : Program σ ε α} {s : σ} {Q Q' : α → σ → Prop} (h : D.Safe m s Q)
    (hQ : ∀ a t, D.inv t → D.le s t → Q a t → Q' a t) : D.Safe m s Q' where
  inv := h.inv
  le := h.le
  post := fun a ha => hQ a _ h.inv h.le (h.post a ha)

theorem Safe.bind {m : Program σ ε α} {k : α → Program σ ε β} {s : σ} {Q : α → σ → Prop}
    {Q' : β → σ → Prop} (hm : D.Safe m s Q)
    (hk : ∀ a t, D.inv t → D.le s t → Q a t → D.Safe (k a) t Q') : D.Safe (m >>= k) s Q' := by
  have hinv := hm.inv
  have hle := hm.le
  have hpost := hm.post
  rcases h : m s with ⟨e | a, t⟩
  · rw [h] at hinv hle
    have hrun := Program.bind_of_error (k := k) h
    refine ⟨?_, ?_, ?_⟩
    · rwa [hrun]
    · rwa [hrun]
    · rw [hrun]
      exact nofun
  · rw [h] at hinv hle hpost
    have hrun := Program.bind_of_ok (k := k) h
    have hsafe := hk a t hinv hle (hpost a rfl)
    refine ⟨?_, ?_, ?_⟩
    · rw [hrun]
      exact hsafe.inv
    · rw [hrun]
      exact D.trans hle hsafe.le
    · rw [hrun]
      exact hsafe.post

/-- Adds what every run that returns is known to end in. -/
theorem Safe.and_run {m : Program σ ε α} {s : σ} {Q Q' : α → σ → Prop} (h : D.Safe m s Q)
    (hrun : ∀ a t, m s = (.ok a, t) → Q' a t) : D.Safe m s fun a t => Q a t ∧ Q' a t where
  inv := h.inv
  le := h.le
  post := fun a ha => ⟨h.post a ha, hrun a _ (Prod.ext ha rfl)⟩

/-- A first step whose run is known. -/
theorem Safe.step {m : Program σ ε α} {k : α → Program σ ε β} {s t : σ} {a : α}
    {Q : β → σ → Prop} (hrun : m s = (.ok a, t)) (hle : D.le s t) (h : D.Safe (k a) t Q) :
    D.Safe (m >>= k) s Q := by
  refine ⟨?_, ?_, ?_⟩ <;> rw [Program.bind_of_ok hrun]
  · exact h.inv
  · exact D.trans hle h.le
  · exact h.post

theorem Safe.step_error {m : Program σ ε α} {k : α → Program σ ε β} {s t : σ} {e : ε}
    {Q : β → σ → Prop} (hrun : m s = (.error e, t)) (ht : D.inv t) (hle : D.le s t) :
    D.Safe (m >>= k) s Q := by
  refine ⟨?_, ?_, ?_⟩ <;> rw [Program.bind_of_error hrun]
  · exact ht
  · exact hle
  · exact nofun

theorem Safe.read_bind {k : σ → Program σ ε β} {s : σ} {Q : β → σ → Prop}
    (h : D.Safe (k s) s Q) : D.Safe (Program.read >>= k) s Q := ⟨h.inv, h.le, h.post⟩

theorem Safe.require_bind {p : Prop} [Decidable p] {e : ε} {k : Unit → Program σ ε β} {s : σ}
    {Q : β → σ → Prop} (hs : D.inv s) (h : p → D.Safe (k ()) s Q) :
    D.Safe (Program.require p e >>= k) s Q := by
  by_cases hp : p
  · rw [Program.require, if_pos hp]
    exact ⟨(h hp).inv, (h hp).le, (h hp).post⟩
  · rw [Program.require, if_neg hp]
    exact ⟨hs, D.refl s, nofun⟩

theorem Safe.attempt {m : Program σ ε α} {s : σ} {Q : α → σ → Prop} (hm : D.Safe m s Q) :
    D.Safe m.attempt s fun r t => ∀ a, r = .ok a → Q a t where
  inv := hm.inv
  le := hm.le
  post := by
    rintro _ ⟨⟩
    exact hm.post

theorem Safe.forEach {f : α → Program σ ε Unit} {as : List α}
    (hf : ∀ a ∈ as, ∀ t, D.inv t → D.Safe (f a) t fun _ _ => True) {s : σ} (hs : D.inv s) :
    D.Safe (Program.forEach f as) s fun _ _ => True := by
  induction as generalizing s with
  | nil => exact safe_pure hs trivial
  | cons a as ih =>
    refine (hf a (List.mem_cons_self ..) s hs).bind fun _ t ht _ _ => ?_
    exact ih (fun b hb => hf b (List.mem_cons_of_mem _ hb)) ht

theorem Safe.mapEach {f : α → Program σ ε β} {as : List α} {s : σ} {P : β → σ → Prop}
    (hP : ∀ b t u, D.le t u → P b t → P b u)
    (hf : ∀ a ∈ as, ∀ t, D.inv t → D.le s t → D.Safe (f a) t P) (hs : D.inv s) :
    D.Safe (Program.mapEach f as) s fun bs t => ∀ b ∈ bs, P b t := by
  induction as generalizing s with
  | nil => exact safe_pure hs nofun
  | cons a as ih =>
    refine (hf a (List.mem_cons_self ..) s hs (D.refl s)).bind fun b t ht hle hb => ?_
    refine (ih (fun c hc u hu htu => hf c (List.mem_cons_of_mem _ hc) u hu (D.trans hle htu))
      ht).bind fun bs u hu htu hbs => safe_pure hu ?_
    exact List.forall_mem_cons.mpr ⟨hP b t u htu hb, hbs⟩

/-- A program is safe if its moves keep the invariant and go up the order. -/
theorem safe_of_quiet {E : Drift σ} (h : ∀ {s t}, E.le s t → D.inv s → D.inv t ∧ D.le s t)
    {m : Program σ ε α} (hm : Program.Quiet E m) {s : σ} (hs : D.inv s) :
    D.Safe m s fun _ _ => True where
  inv := (h (hm s) hs).1
  le := (h (hm s) hs).2
  post := fun _ _ => trivial

end Discipline
end Suture.Foundation
