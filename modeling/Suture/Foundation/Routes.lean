import Suture.Foundation.KeyEdits

/-!
# What edits of a keyed map come to

What a list of edits makes of one key is a choice among the old entries in a fixed order: the
first of them that is there is taken over, or written over. Two lists come to the same on every
map just when their choices agree for every two keys.
-/

namespace Suture.Foundation
set_option autoImplicit false

universe u v
variable {κ : Type u} {α : Type v}

/-- Old entries in the order they are chosen, each kept or written over, and what is left when
none of them is there. -/
structure Route (κ : Type u) (α : Type v) where
  choices : List (κ × Option α)
  fallback : Option α
deriving DecidableEq, Repr

namespace Route

def evalChoices (m : κ → Option α) (fallback : Option α) : List (κ × Option α) → Option α
  | [] => fallback
  | (key, written) :: rest =>
    match m key with
    | some old => some (written.getD old)
    | none => evalChoices m fallback rest

def eval (r : Route κ α) (m : κ → Option α) : Option α := evalChoices m r.fallback r.choices

def untouched (key : κ) : Route κ α := ⟨[(key, none)], none⟩

def gone : Route κ α := ⟨[], none⟩

def orElse (r r' : Route κ α) : Route κ α :=
  match r.fallback with
  | some value => ⟨r.choices, some value⟩
  | none => ⟨r.choices ++ r'.choices, r'.fallback⟩

def overwrite (value : α) (r : Route κ α) : Route κ α where
  choices := r.choices.map fun c => (c.1, some value)
  fallback := r.fallback.map fun _ => value

theorem evalChoices_cons (m : κ → Option α) (fallback : Option α) (c : κ × Option α)
    (rest : List (κ × Option α)) : evalChoices m fallback (c :: rest) =
      ((m c.1).map fun old => c.2.getD old).or (evalChoices m fallback rest) := by
  rw [evalChoices]
  cases m c.1 <;> rfl

theorem evalChoices_append (m : κ → Option α) (fallback : Option α) (l l' : List (κ × Option α)) :
    evalChoices m fallback (l ++ l') = (evalChoices m none l).or (evalChoices m fallback l') := by
  induction l with
  | nil => rfl
  | cons c rest ih => rw [List.cons_append, evalChoices_cons, evalChoices_cons, ih, Option.or_assoc]

theorem evalChoices_eq_or (m : κ → Option α) (fallback : Option α) (l : List (κ × Option α)) :
    evalChoices m fallback l = (evalChoices m none l).or fallback := by
  have happend := evalChoices_append m fallback l []
  rwa [List.append_nil] at happend

@[simp] theorem eval_untouched (key : κ) (m : κ → Option α) : (untouched key).eval m = m key := by
  rw [untouched, eval, evalChoices_cons]
  cases m key <;> rfl

@[simp] theorem eval_gone (m : κ → Option α) : (gone : Route κ α).eval m = none := rfl

theorem eval_orElse (r r' : Route κ α) (m : κ → Option α) :
    (r.orElse r').eval m = (r.eval m).or (r'.eval m) := by
  unfold orElse eval
  cases hfallback : r.fallback with
  | some value =>
    dsimp only
    rw [evalChoices_eq_or]
    cases evalChoices m none r.choices <;> rfl
  | none => exact evalChoices_append ..

theorem eval_overwrite (value : α) (r : Route κ α) (m : κ → Option α) :
    (r.overwrite value).eval m = (r.eval m).map fun _ => value := by
  obtain ⟨choices, fallback⟩ := r
  unfold overwrite eval
  dsimp only
  induction choices with
  | nil => rfl
  | cons c rest ih =>
    rw [List.map_cons, evalChoices_cons, evalChoices_cons, ih]
    cases m c.1 <;> rfl

section Edits
variable [DecidableEq κ]

def edit (routes : κ → Route κ α) : KeyEdit κ α → κ → Route κ α
  | .create key value => Function.update routes key ((routes key).orElse ⟨[], some value⟩)
  | .modify key value => Function.update routes key ((routes key).overwrite value)
  | .delete key => Function.update routes key gone
  | .rename source destination =>
    if source = destination then routes
    else Function.update (Function.update routes source gone) destination
      ((routes source).orElse (routes destination))

/-- What becomes of every key. -/
def ofEdits (edits : List (KeyEdit κ α)) : κ → Route κ α := edits.foldl edit untouched

theorem eval_edit {m₀ m : κ → Option α} {routes : κ → Route κ α}
    (h : ∀ k, m k = (routes k).eval m₀) (e : KeyEdit κ α) (k : κ) :
    KeyEdit.run m e k = (edit routes e k).eval m₀ := by
  cases e with
  | create key value =>
    simp only [KeyEdit.run, edit, Function.update_apply]
    split
    · rw [eval_orElse, h]
      rfl
    · exact h k
  | modify key value =>
    simp only [KeyEdit.run, edit, Function.update_apply]
    split
    · rw [eval_overwrite, h]
    · exact h k
  | delete key =>
    simp only [KeyEdit.run, edit, Function.update_apply]
    split
    · rw [eval_gone]
    · exact h k
  | rename source destination =>
    simp only [KeyEdit.run, edit]
    by_cases hsame : source = destination
    · subst hsame
      rw [if_pos rfl, ← h]
      cases hsource : m source with
      | none => rfl
      | some value =>
        by_cases hk : k = source
        · simp [hk, hsource]
        · simp [hk]
    · rw [if_neg hsame]
      have hor : ((routes source).orElse (routes destination)).eval m₀ =
          (m source).or (m destination) := by rw [eval_orElse, ← h, ← h]
      cases hsource : m source with
      | none =>
        rw [hsource] at hor
        by_cases hd : k = destination
        · simp [hd, hor]
        · by_cases hs : k = source
          · subst hs
            simp [hsame, hsource]
          · simp [hd, hs, h]
      | some value =>
        rw [hsource] at hor
        by_cases hd : k = destination
        · simp [hd, hor]
        · by_cases hs : k = source
          · simp [hs, hsame]
          · simp [hd, hs, h]

/-- The routes tell what a list of edits does. -/
theorem runAll_eq_eval (edits : List (KeyEdit κ α)) (m : κ → Option α) (k : κ) :
    KeyEdit.runAll m edits k = (ofEdits edits k).eval m := by
  have hfold : ∀ (edits : List (KeyEdit κ α)) (m' : κ → Option α) (routes : κ → Route κ α),
      (∀ k, m' k = (routes k).eval m) →
        ∀ k, edits.foldl KeyEdit.run m' k = (edits.foldl edit routes k).eval m := by
    intro edits
    induction edits with
    | nil => exact fun _ _ h => h
    | cons e rest ih => exact fun m' routes h => ih _ _ (eval_edit h e)
  exact hfold edits m untouched (fun k => (eval_untouched k m).symm) k

end Edits

/-! ### Which routes are the same -/

/-- What a route leads to: the entry of a key, or a value. -/
inductive Goal (κ : Type u) (α : Type v) where
  | entry (key : κ)
  | value (value : α)
deriving DecidableEq, Repr

def Goal.read (f : κ → α) : Goal κ α → α
  | .entry k => f k
  | .value v => v

def goalOf (c : κ × Option α) : Goal κ α :=
  match c.2 with
  | none => .entry c.1
  | some value => .value value

section Pick
variable [DecidableEq κ]

/-- Where the route leads when just these keys are there. -/
def pick (r : Route κ α) (there : List κ) : Option (Goal κ α) :=
  ((r.choices.find? fun c => decide (c.1 ∈ there)).map goalOf).or (r.fallback.map .value)

/-- The routes lead to the same goals when at most two keys are there. -/
def Same (r r' : Route κ α) : Prop := ∀ there : List κ, there.length ≤ 2 → r.pick there = r'.pick there

theorem eval_eq_pick (r : Route κ α) (there : List κ) (f : κ → α) :
    r.eval (listed there f) = (r.pick there).map (Goal.read f) := by
  obtain ⟨choices, fallback⟩ := r
  unfold eval pick listed
  dsimp only
  induction choices with
  | nil => cases fallback <;> rfl
  | cons c rest ih =>
    rw [evalChoices_cons, List.find?_cons, ih]
    by_cases hc : c.1 ∈ there
    · obtain ⟨key, written⟩ := c
      cases written <;> simp [hc, goalOf, Goal.read]
    · simp [hc]

end Pick

/-- The choice that a map takes. -/
def first (r : Route κ α) (m : κ → Option α) : Option (κ × Option α) :=
  r.choices.find? fun c => (m c.1).isSome

theorem first_isSome {r : Route κ α} {m : κ → Option α} {c : κ × Option α}
    (h : r.first m = some c) : ∃ old, m c.1 = some old := by
  have hthere := List.find?_some h
  exact Option.isSome_iff_exists.mp hthere

theorem eval_eq_first (r : Route κ α) (m : κ → Option α) : r.eval m =
    match r.first m with
    | some c => (m c.1).map fun old => c.2.getD old
    | none => r.fallback := by
  obtain ⟨choices, fallback⟩ := r
  unfold eval first
  dsimp only
  induction choices with
  | nil => rfl
  | cons c rest ih =>
    rw [evalChoices_cons, List.find?_cons, ih]
    cases hc : m c.1 <;> simp [hc]

theorem map_getD_eq_read {m : κ → Option α} {c : κ × Option α} {old : α} (hold : m c.1 = some old)
    (other : α) : (m c.1).map (fun old => c.2.getD old) =
      some ((goalOf c).read fun k => (m k).getD other) := by
  obtain ⟨key, written⟩ := c
  cases written <;> simp_all [goalOf, Goal.read]

section Same
variable [DecidableEq κ] {r r' : Route κ α} {m : κ → Option α}

/-- With keys that are all there, the route stops where it stops on the whole map. -/
theorem pick_of_first {there : List κ} (hthere : ∀ k ∈ there, (m k).isSome)
    {c : κ × Option α} (hfirst : r.first m = some c) (hc : c.1 ∈ there) :
    r.pick there = some (goalOf c) := by
  obtain ⟨_, before, after, hsplit, hbefore⟩ := List.find?_eq_some_iff_append.mp hfirst
  have hfind : r.choices.find? (fun c => decide (c.1 ∈ there)) = some c := by
    refine List.find?_eq_some_iff_append.mpr
      ⟨decide_eq_true hc, before, after, hsplit, fun d hd => ?_⟩
    have hmissing := hbefore d hd
    rw [Bool.not_eq_true', decide_eq_false_iff_not]
    intro hmem
    rw [hthere d.1 hmem] at hmissing
    cases hmissing
  rw [pick, hfind]
  rfl

theorem pick_of_first_none {there : List κ} (hthere : ∀ k ∈ there, (m k).isSome)
    (hfirst : r.first m = none) : r.pick there = r.fallback.map .value := by
  have hfind : r.choices.find? (fun c => decide (c.1 ∈ there)) = none := by
    rw [first, List.find?_eq_none] at hfirst
    rw [List.find?_eq_none]
    intro c hc hmem
    exact hfirst c hc (hthere c.1 (of_decide_eq_true hmem))
  rw [pick, hfind]
  rfl

/-- Where one route stops at an entry and the other at none, the entry is written over. -/
theorem Same.eval_of_first (h : Same r r') {c : κ × Option α} (hr : r.first m = some c)
    (hr' : r'.first m = none) : (m c.1).map (fun old => c.2.getD old) = r'.fallback := by
  obtain ⟨old, hold⟩ := first_isSome hr
  have hthere : ∀ k ∈ [c.1], (m k).isSome := by simp [hold]
  have hpick := h [c.1] (by simp)
  rw [pick_of_first hthere hr (by simp), pick_of_first_none hthere hr'] at hpick
  rw [map_getD_eq_read hold old]
  cases hfallback : r'.fallback with
  | none => simp [hfallback] at hpick
  | some v =>
    rw [hfallback, Option.map_some, Option.some.injEq] at hpick
    rw [hpick]
    rfl

/-- Routes that lead to the same goals give the same entries: the keys where they stop are all
that has to be there. -/
theorem Same.eval_eq (h : Same r r') (m : κ → Option α) : r.eval m = r'.eval m := by
  rw [eval_eq_first, eval_eq_first]
  cases hr : r.first m with
  | none =>
    cases hr' : r'.first m with
    | none =>
      have hpick := h [] (Nat.zero_le 2)
      rw [pick_of_first_none (by simp) hr, pick_of_first_none (by simp) hr'] at hpick
      exact Option.map_injective (fun _ _ => Goal.value.inj) hpick
    | some c' => exact (Same.eval_of_first (fun there hlen => (h there hlen).symm) hr' hr).symm
  | some c =>
    cases hr' : r'.first m with
    | none => exact h.eval_of_first hr hr'
    | some c' =>
      obtain ⟨old, hold⟩ := first_isSome hr
      obtain ⟨old', hold'⟩ := first_isSome hr'
      have hthere : ∀ k ∈ [c.1, c'.1], (m k).isSome := by simp [hold, hold']
      have hpick := h [c.1, c'.1] (by simp)
      rw [pick_of_first hthere hr (by simp), pick_of_first hthere hr' (by simp),
        Option.some.injEq] at hpick
      dsimp only
      rw [map_getD_eq_read hold old, map_getD_eq_read hold' old, hpick]

omit [DecidableEq κ] in
/-- Goals that read the same in every map are the same. -/
theorem goal_eq_of_read [Nontrivial α] {g g' : Option (Goal κ α)}
    (h : ∀ f : κ → α, g.map (Goal.read f) = g'.map (Goal.read f)) : g = g' := by
  classical
  obtain ⟨x, y, hxy⟩ := exists_pair_ne α
  cases g with
  | none =>
    cases g' with
    | none => rfl
    | some goal' => simpa using h fun _ => x
  | some goal =>
    cases g' with
    | none => simpa using h fun _ => x
    | some goal' =>
      simp only [Option.map_some, Option.some.injEq] at h ⊢
      cases goal with
      | entry key =>
        cases goal' with
        | entry key' =>
          by_contra hne
          have hread := h fun k => if k = key then x else y
          have hkey : key' ≠ key := fun heq => hne (by rw [heq])
          simp [Goal.read, hkey, hxy] at hread
        | value v =>
          obtain ⟨w, hw⟩ := exists_ne v
          exact absurd (h fun _ => w) hw
      | value v =>
        cases goal' with
        | entry key' =>
          obtain ⟨w, hw⟩ := exists_ne v
          exact absurd (h fun _ => w).symm hw
        | value v' => rw [show v = v' from h fun _ => x]

theorem same_of_eval_eq [Nontrivial α] (h : ∀ (there : List κ) (f : κ → α),
    r.eval (listed there f) = r'.eval (listed there f)) : Same r r' := by
  intro there _
  refine goal_eq_of_read fun f => ?_
  rw [← eval_eq_pick, ← eval_eq_pick]
  exact h there f

end Same
end Route
end Suture.Foundation
