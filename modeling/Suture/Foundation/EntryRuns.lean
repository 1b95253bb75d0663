import Mathlib.Data.List.Induction
import Mathlib.Logic.Nontrivial.Basic
import Suture.Foundation.KeyEdits

/-!
# Creates, modifies and deletes

Without renamings every key has its own edits. They come to one edit when they delete last, only
modify, or only create.
-/

namespace Suture.Foundation.KeyEdit
set_option autoImplicit false

universe u v
variable {κ : Type u} {α : Type v}

/-- What edits of one key make of its entry. -/
def entryRun (es : List (KeyEdit κ α)) (entry : Option α) : Option α :=
  es.foldl (fun entry e => e.onEntry entry) entry

def value : KeyEdit κ α → Option α
  | .create _ value | .modify _ value => some value
  | .delete _ | .rename _ _ => none

def IsCreate (e : KeyEdit κ α) : Prop := ∃ v, e = .create e.key v

def IsModify (e : KeyEdit κ α) : Prop := ∃ v, e = .modify e.key v

theorem entryRun_concat (es : List (KeyEdit κ α)) (e : KeyEdit κ α) (entry : Option α) :
    entryRun (es ++ [e]) entry = e.onEntry (entryRun es entry) := by
  rw [entryRun, List.foldl_append]
  rfl

theorem runAll_eq_entryRun [DecidableEq κ] {es : List (KeyEdit κ α)}
    (h : ∀ e ∈ es, e.IsContent) (m : κ → Option α) (k : κ) :
    runAll m es k = entryRun (es.filter fun e => decide (e.key = k)) (m k) := by
  induction es generalizing m with
  | nil => rfl
  | cons e es ih =>
    refine (ih (fun d hd => h d (List.mem_cons_of_mem _ hd)) _).trans ?_
    rw [run_content_apply _ (h e (List.mem_cons_self ..)), List.filter_cons]
    by_cases hk : k = e.key
    · rw [if_pos hk, if_pos (decide_eq_true hk.symm)]
      rfl
    · rw [if_neg hk, if_neg fun hd => hk (of_decide_eq_true hd).symm]

/-! ### Edits of one key -/

section Entry
variable {es : List (KeyEdit κ α)}

/-- Edits are never without any effect. -/
theorem exists_entryRun_ne [Nontrivial α] (hcontent : ∀ e ∈ es, e.IsContent) (hne : es ≠ []) :
    ∃ entry, entryRun es entry ≠ entry := by
  obtain ⟨init, e, rfl⟩ := (List.eq_nil_or_concat' es).resolve_left hne
  cases e with
  | create k v =>
    refine ⟨none, ?_⟩
    rw [entryRun_concat, onEntry]
    cases entryRun init none with
    | none => exact Option.some_ne_none v
    | some x => exact Option.some_ne_none x
  | modify k v =>
    obtain ⟨w, hw⟩ := exists_ne v
    refine ⟨some w, fun h => ?_⟩
    rw [entryRun_concat, onEntry] at h
    obtain ⟨_, -, hvw⟩ := Option.map_eq_some_iff.mp h
    exact hw hvw.symm
  | delete k =>
    obtain ⟨w, -⟩ := exists_pair_ne α
    refine ⟨some w, ?_⟩
    rw [entryRun_concat]
    exact (Option.some_ne_none w).symm
  | rename a b =>
    exact absurd rfl (hcontent _ (List.mem_append_right _ (List.mem_singleton.mpr rfl)) a b)

/-- Edits that do not only create leave nothing of an old entry. -/
theorem isCreate_or_entryRun_eq (hcontent : ∀ e ∈ es, e.IsContent) :
    (∀ e ∈ es, e.IsCreate) ∨ ∃ made, ∀ w, entryRun es (some w) = made := by
  induction es with
  | nil => exact .inl nofun
  | cons e es ih =>
    cases e with
    | create k v =>
      rcases ih fun d hd => hcontent d (List.mem_cons_of_mem _ hd) with hall | hmade
      · exact .inl (List.forall_mem_cons.mpr ⟨⟨v, rfl⟩, hall⟩)
      · exact .inr hmade
    | modify k v => exact .inr ⟨entryRun es (some v), fun _ => rfl⟩
    | delete k => exact .inr ⟨entryRun es none, fun _ => rfl⟩
    | rename a b => exact absurd rfl (hcontent _ (List.mem_cons_self ..) a b)

theorem entryRun_of_isCreate (hall : ∀ e ∈ es, e.IsCreate) (entry : Option α) :
    entryRun es entry = entry.or (es.head?.bind value) := by
  induction es generalizing entry with
  | nil => cases entry <;> rfl
  | cons e es ih =>
    obtain ⟨⟨v, he⟩, hes⟩ := List.forall_mem_cons.mp hall
    rw [he]
    refine (ih hes _).trans ?_
    cases entry <;> rfl

theorem entryRun_eq_create_iff [Nontrivial α] (hcontent : ∀ e ∈ es, e.IsContent) (v : α) :
    (∀ entry, entryRun es entry = entry.or (some v)) ↔
      (∀ e ∈ es, e.IsCreate) ∧ es.head?.bind value = some v := by
  constructor
  · intro h
    rcases isCreate_or_entryRun_eq hcontent with hall | ⟨made, hmade⟩
    · refine ⟨hall, ?_⟩
      have hnone := h none
      rwa [entryRun_of_isCreate hall] at hnone
    · obtain ⟨x, y, hxy⟩ := exists_pair_ne α
      have hx := (hmade x).symm.trans (h (some x))
      have hy := (hmade y).symm.trans (h (some y))
      exact absurd (Option.some.inj (hx.symm.trans hy)) hxy
  · rintro ⟨hall, hhead⟩ entry
    rw [entryRun_of_isCreate hall, hhead]

theorem entryRun_of_isModify (hall : ∀ e ∈ es, e.IsModify) (entry : Option α) :
    entryRun es entry = entry.map fun old => (es.getLast?.bind value).getD old := by
  induction es using List.reverseRecOn with
  | nil => cases entry <;> rfl
  | append_singleton es e ih =>
    obtain ⟨v, he⟩ := hall e (List.mem_append_right _ (List.mem_singleton.mpr rfl))
    rw [entryRun_concat, ih fun d hd => hall d (List.mem_append_left _ hd), he, onEntry,
      List.getLast?_concat]
    cases entry <;> rfl

/-- Edits that keep a key without an entry so, and one with an entry so, only modify. -/
theorem isModify_of_entryRun (hcontent : ∀ e ∈ es, e.IsContent) (hnone : entryRun es none = none)
    {w : α} (hsome : entryRun es (some w) ≠ none) : ∀ e ∈ es, e.IsModify := by
  induction es using List.reverseRecOn with
  | nil => nofun
  | append_singleton es e ih =>
    rw [entryRun_concat] at hnone hsome
    have hlast := hcontent e (List.mem_append_right _ (List.mem_singleton.mpr rfl))
    have hinit : ∀ d ∈ es, d.IsContent := fun d hd => hcontent d (List.mem_append_left _ hd)
    cases e with
    | create k v =>
      rw [onEntry] at hnone
      cases hrun : entryRun es none <;> rw [hrun] at hnone <;> cases hnone
    | modify k v =>
      rw [onEntry, Option.map_eq_none_iff] at hnone
      rw [onEntry, Ne, Option.map_eq_none_iff] at hsome
      intro d hd
      rcases List.mem_append.mp hd with hd | hd
      · exact ih hinit hnone hsome d hd
      · rw [List.mem_singleton.mp hd]
        exact ⟨v, rfl⟩
    | delete k => exact absurd rfl hsome
    | rename a b => exact absurd rfl (hlast a b)

theorem entryRun_eq_modify_iff [Nontrivial α] (hcontent : ∀ e ∈ es, e.IsContent) (v : α) :
    (∀ entry, entryRun es entry = entry.map fun _ => v) ↔
      (∀ e ∈ es, e.IsModify) ∧ es.getLast?.bind value = some v := by
  constructor
  · intro h
    obtain ⟨w, hw⟩ := exists_ne v
    have hall := isModify_of_entryRun hcontent (h none) (w := w) (by rw [h]; nofun)
    refine ⟨hall, ?_⟩
    have hentry := h (some w)
    rw [entryRun_of_isModify hall] at hentry
    cases hlast : es.getLast?.bind value with
    | none =>
      rw [hlast] at hentry
      exact absurd (Option.some.inj hentry) hw
    | some u =>
      rw [hlast] at hentry
      exact congrArg some (Option.some.inj hentry)
  · rintro ⟨hall, hlast⟩ entry
    rw [entryRun_of_isModify hall, hlast]
    rfl

end Entry

/-! ### Edits that come to one -/

theorem runAll_eq_run [DecidableEq κ] {es : List (KeyEdit κ α)} (hcontent : ∀ d ∈ es, d.IsContent)
    {e : KeyEdit κ α} (he : e.IsContent) (hkeys : ∀ d ∈ es, d.key = e.key)
    (hentry : ∀ entry, entryRun es entry = e.onEntry entry) (m : κ → Option α) :
    runAll m es = run m e := by
  funext k
  rw [runAll_eq_entryRun hcontent, run_content_apply _ he]
  by_cases hk : k = e.key
  · rw [if_pos hk, List.filter_eq_self.mpr fun d hd => decide_eq_true ((hkeys d hd).trans hk.symm),
      hentry]
  · rw [if_neg hk, List.filter_eq_nil_iff.mpr fun d hd hdk =>
      hk ((of_decide_eq_true hdk).symm.trans (hkeys d hd))]
    rfl

/-- Edits that come to one edit are all of its key. -/
theorem runAll_eq_run_iff [DecidableEq κ] [Nontrivial α] {es : List (KeyEdit κ α)}
    (hcontent : ∀ e ∈ es, e.IsContent) {e : KeyEdit κ α} (he : e.IsContent) :
    (∀ (there : List κ) (f : κ → α), runAll (listed there f) es = run (listed there f) e) ↔
      (∀ d ∈ es, d.key = e.key) ∧ ∀ entry, entryRun es entry = e.onEntry entry := by
  have hmap : ∀ (k : κ) (entry : Option α), ∃ (there : List κ) (f : κ → α),
      listed there f k = entry := by
    intro k entry
    cases entry with
    | none =>
      obtain ⟨x, -⟩ := exists_pair_ne α
      exact ⟨[], fun _ => x, rfl⟩
    | some w => exact ⟨[k], fun _ => w, if_pos (List.mem_singleton.mpr rfl)⟩
  constructor
  · intro h
    have hkeys : ∀ d ∈ es, d.key = e.key := by
      intro d hd
      by_contra hne
      have hrest : ∀ c ∈ es.filter fun c => decide (c.key = d.key), c.IsContent :=
        fun c hc => hcontent c (List.mem_of_mem_filter hc)
      obtain ⟨entry, hentry⟩ := exists_entryRun_ne hrest
        (List.ne_nil_of_mem (List.mem_filter.mpr ⟨hd, decide_eq_true rfl⟩))
      obtain ⟨there, f, hf⟩ := hmap d.key entry
      have hrun := congrFun (h there f) d.key
      rw [runAll_eq_entryRun hcontent, run_content_apply _ he, if_neg hne, hf] at hrun
      exact hentry hrun
    refine ⟨hkeys, fun entry => ?_⟩
    obtain ⟨there, f, hf⟩ := hmap e.key entry
    have hrun := congrFun (h there f) e.key
    rwa [runAll_eq_entryRun hcontent, run_content_apply _ he, if_pos rfl, hf,
      List.filter_eq_self.mpr fun d hd => decide_eq_true (hkeys d hd)] at hrun
  · rintro ⟨hkeys, hentry⟩ there f
    exact runAll_eq_run hcontent he hkeys hentry _

end Suture.Foundation.KeyEdit
