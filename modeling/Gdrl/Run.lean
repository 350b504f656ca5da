import Mathlib.Data.Nat.Notation
import Mathlib.Logic.Relation

/-!
# Runs of a transition system

A system is a relation `Step : σ → α → σ → Prop` between a state, an event and the state
behind it. `Run` is a sequence of steps with the list of its events, `Reachable` a state
that some run leads to. The induction rules are stated once : `Run.invariant` for what
every step keeps, `Run.relate` for what relates the two ends of a run, `Run.appends` and
`Run.sublist` for a list that grows at its end, `Run.simulate` for a system that does
nothing another one cannot do, `Run.lockstep` for two systems side by side, and
`run_project` for a system that sees part of another one's run. `Run.exists_of_nearer` and
`Run.exists_forall` are about runs that can be found : to a state that some measure leads
to, and to several goals in turn.
-/

namespace Gdrl

variable {σ α τ β : Type*}

/-- A run from one state to another, with its events in order. -/
inductive Run (Step : σ → α → σ → Prop) : σ → List α → σ → Prop
  | nil (s : σ) : Run Step s [] s
  | cons {s s' s'' : σ} {e : α} {es : List α} (h : Step s e s') (hs : Run Step s' es s'') :
    Run Step s (e :: es) s''

namespace Run

variable {Step : σ → α → σ → Prop}

theorem append {s s' s'' : σ} {es es' : List α} (h : Run Step s es s') (h' : Run Step s' es' s'') :
    Run Step s (es ++ es') s'' := by
  induction h with
  | nil => exact h'
  | cons hstep _ ih => exact .cons hstep (ih h')

/-- A run of fewer steps is one of more. -/
theorem mono {Step' : σ → α → σ → Prop} (hle : ∀ s e s', Step s e s' → Step' s e s') {s s' : σ}
    {es : List α} (h : Run Step s es s') : Run Step' s es s' := by
  induction h with
  | nil s => exact .nil s
  | cons hstep _ ih => exact .cons (hle _ _ _ hstep) ih

/-- A run splits wherever its list of events does. -/
theorem split {s s'' : σ} {es es' : List α} (h : Run Step s (es ++ es') s'') :
    ∃ s', Run Step s es s' ∧ Run Step s' es' s'' := by
  induction es generalizing s with
  | nil => exact ⟨s, .nil s, h⟩
  | cons e es ih =>
    cases h with
    | cons hstep hs =>
      obtain ⟨s', h1, h2⟩ := ih hs
      exact ⟨s', .cons hstep h1, h2⟩

/-- In a system whose events have one outcome each, a run goes through the states of its
parts. -/
theorem rest (hdet : ∀ s e t t', Step s e t → Step s e t' → t = t') {s t s' : σ} {es es' : List α}
    (h : Run Step s es t) (h' : Run Step s (es ++ es') s') : Run Step t es' s' := by
  induction h with
  | nil => exact h'
  | cons hstep _ ih =>
    cases h' with
    | cons hstep' hs' =>
      obtain rfl := hdet _ _ _ _ hstep hstep'
      exact ih hs'

/-- What holds at the start of a run and not at its end, ends in one of its steps. -/
theorem exists_exit {I : σ → Prop} {s t : σ} {es : List α} (h : Run Step s es t) (hs : I s)
    (ht : ¬ I t) : ∃ a e b u u', es = a ++ e :: b ∧ Run Step s a u ∧ I u ∧ Step u e u' ∧ ¬ I u' ∧
      Run Step u' b t := by
  induction h with
  | nil => exact absurd hs ht
  | cons hstep hrun ih =>
    rename_i s s' s'' e es
    by_cases hs' : I s'
    · obtain ⟨a, e', b, u, u', rfl, ha, hu, hstep', hu', hb⟩ := ih hs' ht
      exact ⟨e :: a, e', b, u, u', rfl, .cons hstep ha, hu, hstep', hu', hb⟩
    · exact ⟨[], e, es, s, s', rfl, .nil s, hs, hstep, hs', hrun⟩

/-- What every step keeps, every run keeps. -/
theorem invariant {I : σ → Prop} (hI : ∀ s e s', I s → Step s e s' → I s') {s s' : σ}
    {es : List α} (h : Run Step s es s') (hs : I s) : I s' := by
  induction h with
  | nil => exact hs
  | cons hstep _ ih => exact ih (hI _ _ _ hs hstep)

/-- What relates the two ends of every step, composes and holds of no step, relates the
two ends of every run. -/
theorem relate {R : σ → σ → Prop} (hrefl : ∀ s, R s s)
    (htrans : ∀ s t u, R s t → R t u → R s u) (hstep : ∀ s e s', Step s e s' → R s s') {s s' : σ}
    {es : List α} (h : Run Step s es s') : R s s' := by
  induction h with
  | nil => exact hrefl _
  | cons hs _ ih => exact htrans _ _ _ (hstep _ _ _ hs) ih

/-- What relates a state to a value taken along, a run relates to the value folded over its
events. -/
theorem foldl {I : σ → β → Prop} {g : β → α → β}
    (hI : ∀ s e s' b, I s b → Step s e s' → I s' (g b e)) {s s' : σ} {es : List α}
    (h : Run Step s es s') {b : β} (hs : I s b) : I s' (es.foldl g b) := by
  induction h generalizing b with
  | nil => exact hs
  | cons hstep _ ih => exact ih (hI _ _ _ _ hs hstep)

/-- Where each event puts what `g` says at the end of a list, a run puts it there event by
event. -/
theorem appends {Q : α → Prop} {I : σ → Prop} {f : σ → List β} {g : α → List β}
    (hI : ∀ s e s', Q e → I s → Step s e s' → I s' ∧ f s' = f s ++ g e) {s s' : σ} {es : List α}
    (h : Run Step s es s') (hes : ∀ e ∈ es, Q e) (hs : I s) :
    I s' ∧ f s' = f s ++ es.flatMap g := by
  induction h with
  | nil => exact ⟨hs, by simp⟩
  | cons hstep _ ih =>
    rw [List.forall_mem_cons] at hes
    obtain ⟨hs', hf⟩ := hI _ _ _ hes.1 hs hstep
    obtain ⟨ht, hf'⟩ := ih hes.2 hs'
    exact ⟨ht, by rw [hf', hf, List.append_assoc, List.flatMap_cons]⟩

/-- Where each event puts at most what `g` says at the end of a list, of which it may drop
entries, a run keeps the order. -/
theorem sublist {I : σ → Prop} {f : σ → List β} {g : α → List β}
    (hI : ∀ s e s', I s → Step s e s' → I s' ∧ (f s').Sublist (f s ++ g e)) {s s' : σ}
    {es : List α} (h : Run Step s es s') (hs : I s) : (f s').Sublist (f s ++ es.flatMap g) := by
  induction h with
  | nil => simp
  | cons hstep _ ih =>
    obtain ⟨hs', hf⟩ := hI _ _ _ hs hstep
    rw [List.flatMap_cons, ← List.append_assoc]
    exact (ih hs').trans (hf.append_right _)

/-- Where every step, seen through `f`, is a step of another system or no step of it,
every run is a run of that system. -/
theorem simulate {Step' : τ → β → τ → Prop} (f : σ → τ) {I : σ → Prop}
    (hI : ∀ s e s', I s → Step s e s' → I s')
    (h : ∀ s e s', I s → Step s e s' → f s' = f s ∨ ∃ e', Step' (f s) e' (f s')) {s s' : σ}
    {es : List α} (hr : Run Step s es s') (hs : I s) : ∃ es', Run Step' (f s) es' (f s') := by
  induction hr with
  | nil => exact ⟨[], .nil _⟩
  | cons hstep _ ih =>
    obtain ⟨es', hes'⟩ := ih (hI _ _ _ hs hstep)
    rcases h _ _ _ hs hstep with heq | ⟨e', he'⟩
    · exact ⟨es', heq ▸ hes'⟩
    · exact ⟨e' :: es', .cons he' hes'⟩

/-- Two systems in lockstep. What each step keeps between them, as long as the events satisfy
`Q`, a run keeps; and where a step spoils `S` exactly if `P` fails of it, a run keeps `S`
exactly if `P` holds of all its steps. -/
theorem lockstep {Step' : τ → β → τ → Prop} {f : α → β} {Q : α → Prop} {R S : σ → τ → Prop}
    {P : σ → α → Prop} (hdet : ∀ s e t t', Step s e t → Step s e t' → t = t')
    (hstep : ∀ s e s' t, Q e → R s t → Step s e s' →
      ∃ t', Step' t (f e) t' ∧ R s' t' ∧ (S s' t' ↔ S s t ∧ P s e))
    {s s' : σ} {t : τ} {es : List α} (hr : Run Step s es s') (hes : ∀ e ∈ es, Q e) (ht : R s t) :
    ∃ t', Run Step' t (es.map f) t' ∧ R s' t' ∧
      (S s' t' ↔ S s t ∧ Run (fun s e s' => Step s e s' ∧ P s e) s es s') := by
  induction hr generalizing t with
  | nil s => exact ⟨t, .nil t, ht, (and_iff_left (.nil s)).symm⟩
  | cons hse hrun ih =>
    rename_i s u s' e es
    obtain ⟨u', hu', hR, hS⟩ := hstep _ _ _ _ (hes e List.mem_cons_self) ht hse
    obtain ⟨t', ht', hR', hS'⟩ := ih (fun e he => hes e (List.mem_cons_of_mem _ he)) hR
    refine ⟨t', .cons hu' ht', hR', hS'.trans ?_⟩
    rw [hS, and_assoc]
    refine and_congr_right fun _ => ⟨fun h => .cons ⟨hse, h.1⟩ h.2, fun h => ?_⟩
    cases h with
    | cons hse' hrest =>
      obtain rfl := hdet _ _ _ _ hse hse'.1
      exact ⟨hse'.2, hrest⟩

/-- Where every state that is not there yet has a step that brings it nearer, some run gets
there. -/
theorem exists_of_nearer {I P : σ → Prop} (d : σ → ℕ)
    (h : ∀ s, I s → ¬ P s → ∃ e s', Step s e s' ∧ I s' ∧ d s' < d s) {s : σ} (hs : I s) :
    ∃ es s', Run Step s es s' ∧ I s' ∧ P s' := by
  induction hn : d s using Nat.strongRecOn generalizing s with
  | _ n ih =>
    by_cases hP : P s
    · exact ⟨[], s, .nil s, hs, hP⟩
    · obtain ⟨e, u, hu, hI, hlt⟩ := h s hs hP
      obtain ⟨es, s', hrun, hs'⟩ := ih (d u) (hn ▸ hlt) hI rfl
      exact ⟨e :: es, s', .cons hu hrun, hs'⟩

/-- Goals that stay once they are reached can be reached one after the other. -/
theorem exists_forall {I : σ → Prop} {P : β → σ → Prop}
    (hI : ∀ s e s', I s → Step s e s' → I s')
    (hP : ∀ b s e s', I s → P b s → Step s e s' → P b s')
    (l : List β) (h : ∀ b ∈ l, ∀ s, I s → ∃ es s', Run Step s es s' ∧ P b s') {s : σ} (hs : I s) :
    ∃ es s', Run Step s es s' ∧ I s' ∧ ∀ b ∈ l, P b s' := by
  induction l with
  | nil => exact ⟨[], s, .nil s, hs, by simp⟩
  | cons b l ih =>
    rw [List.forall_mem_cons] at h
    obtain ⟨es₁, u, hu, hIu, hl⟩ := ih h.2
    obtain ⟨es₂, s', hs', hb⟩ := h.1 u hIu
    refine ⟨es₁ ++ es₂, s', hu.append hs', hs'.invariant hI hIu, ?_⟩
    rintro b' hb'
    rcases List.mem_cons.mp hb' with rfl | hb'
    · exact hb
    · have hstay := hs'.invariant (I := fun s => I s ∧ P b' s)
        (fun s e s' hs hstep => ⟨hI s e s' hs.1 hstep, hP b' s e s' hs.1 hs.2 hstep⟩)
        ⟨hIu, hl b' hb'⟩
      exact hstay.2

end Run

/-- A state that some run from an initial state leads to. -/
def Reachable (Init : σ → Prop) (Step : σ → α → σ → Prop) (s : σ) : Prop :=
  ∃ s₀ es, Init s₀ ∧ Run Step s₀ es s

namespace Reachable

variable {Init : σ → Prop} {Step : σ → α → σ → Prop}

theorem run {s s' : σ} {es : List α} (h : Reachable Init Step s) (hr : Run Step s es s') :
    Reachable Init Step s' := by
  obtain ⟨s₀, es₀, hinit, hs⟩ := h
  exact ⟨s₀, es₀ ++ es, hinit, hs.append hr⟩

theorem step {s s' : σ} {e : α} (h : Reachable Init Step s) (hs : Step s e s') :
    Reachable Init Step s' := h.run (.cons hs (.nil s'))

theorem invariant {I : σ → Prop} (hinit : ∀ s, Init s → I s)
    (hI : ∀ s e s', I s → Step s e s' → I s') {s : σ} (h : Reachable Init Step s) : I s := by
  obtain ⟨s₀, es, h₀, hr⟩ := h
  exact hr.invariant hI (hinit s₀ h₀)

end Reachable

/-! ## Executable systems -/

/-- Run a system that is a function, up to the first event it refuses. -/
def exec (step : σ → α → Option σ) (s : σ) (es : List α) : Option σ := es.foldlM step s

/-- The relation of a system that is a function. -/
def Steps (step : σ → α → Option σ) (s : σ) (e : α) (s' : σ) : Prop := step s e = some s'

theorem run_of_exec {step : σ → α → Option σ} {s s' : σ} {es : List α}
    (h : exec step s es = some s') : Run (Steps step) s es s' := by
  induction es generalizing s with
  | nil =>
    obtain rfl : s = s' := Option.some.inj h
    exact .nil s
  | cons e es ih =>
    obtain ⟨t, ht, hr⟩ := Option.bind_eq_some_iff.mp
      ((List.foldlM_cons (f := step)).symm.trans h)
    exact .cons ht (ih hr)

theorem exec_of_run {step : σ → α → Option σ} {s s' : σ} {es : List α}
    (h : Run (Steps step) s es s') : exec step s es = some s' := by
  induction h with
  | nil => rfl
  | cons hstep _ ih =>
    rw [exec, List.foldlM_cons]
    exact Option.bind_eq_some_iff.mpr ⟨_, hstep, ih⟩

/-- What a run leads to can be computed. -/
theorem map_of_run {step : σ → α → Option σ} {s s' : σ} {es : List α} {f : σ → β} {b : β}
    (h : Run (Steps step) s es s') (hf : (exec step s es).map f = some b) : f s' = b := by
  rw [exec_of_run h] at hf
  exact Option.some.inj hf

/-- The events of a run as another system sees them : `keep` says whether it sees an event, and
as which of its own. -/
def project (step : σ → α → Option σ) (keep : σ → α → Option β) : σ → List α → List β
  | _, [] => []
  | s, e :: es => (keep s e).toList ++ project step keep ((step s e).getD s) es

/-- Where a system takes the steps that it sees, and needs not take the others, every run
shows it a run of its own. -/
theorem run_project {step : σ → α → Option σ} {step' : τ → β → Option τ}
    {keep : σ → α → Option β} {R : σ → τ → Prop}
    (hskip : ∀ s e s' t, R s t → step s e = some s' → keep s e = none → R s' t)
    (hkeep : ∀ s e s' t e', R s t → step s e = some s' → keep s e = some e' →
      ∃ t', step' t e' = some t' ∧ R s' t')
    {s s' : σ} {t : τ} {es : List α} (h : Run (Steps step) s es s') (ht : R s t) :
    ∃ t', Run (Steps step') t (project step keep s es) t' ∧ R s' t' := by
  induction h generalizing t with
  | nil => exact ⟨t, .nil t, ht⟩
  | cons hstep hrun ih =>
    rename_i s u s' e es
    have hu : step s e = some u := hstep
    rw [project, hu, Option.getD_some]
    cases hk : keep s e with
    | none =>
      exact ih (hskip _ _ _ _ ht hstep hk)
    | some e' =>
      obtain ⟨t₁, ht₁, hR₁⟩ := hkeep _ _ _ _ _ ht hstep hk
      obtain ⟨t', hrun', hR⟩ := ih hR₁
      exact ⟨t', .cons ht₁ hrun', hR⟩

/-- A system that takes only the steps that `P` admits. -/
def guarded (step : σ → α → Option σ) (P : σ → α → Prop) [∀ s e, Decidable (P s e)] (s : σ)
    (e : α) : Option σ :=
  if P s e then step s e else none

theorem run_of_exec_guarded {step : σ → α → Option σ} {P : σ → α → Prop}
    [∀ s e, Decidable (P s e)] {s s' : σ} {es : List α}
    (h : exec (guarded step P) s es = some s') :
    Run (fun s e s' => step s e = some s' ∧ P s e) s es s' := by
  refine (run_of_exec h).mono fun s e s' hstep => ?_
  exact (Option.ite_none_right_eq_some.mp hstep).symm

end Gdrl
