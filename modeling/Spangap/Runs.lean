import Mathlib.Logic.Function.Basic

namespace Spangap.Runs

open List Option

variable {σ ι : Type} {step : σ → ι → Option σ} {s : σ} {as : List ι}

/-- Execute a schedule. An action that is not enabled ends the schedule with
no result, so a run that returns took every one of its steps. -/
def run (step : σ → ι → Option σ) : σ → List ι → Option σ
  | s, [] => some s
  | s, a :: as => (step s a).bind fun t => run step t as

/-- Every step of the schedule is taken from a state in which it is allowed. -/
def Meets (step : σ → ι → Option σ) (allowed : σ → ι → Prop) : σ → List ι → Prop
  | _, [] => True
  | s, a :: as => allowed s a ∧ ∀ t, step s a = some t → Meets step allowed t as

def decidableMeets (step : σ → ι → Option σ) (allowed : σ → ι → Prop)
    [∀ s a, Decidable (allowed s a)] : ∀ s as, Decidable (Meets step allowed s as)
  | _, [] => .isTrue trivial
  | s, a :: as =>
    match h : step s a with
    | none => decidable_of_iff (allowed s a) (by simp [Meets, h])
    | some t =>
      have := decidableMeets step allowed t as
      decidable_of_iff (allowed s a ∧ Meets step allowed t as) (by simp [Meets, h])

instance (step : σ → ι → Option σ) (allowed : σ → ι → Prop) [∀ s a, Decidable (allowed s a)]
    (s : σ) (as : List ι) : Decidable (Meets step allowed s as) := decidableMeets step allowed s as

@[simp] theorem run_nil (step : σ → ι → Option σ) (s : σ) : run step s [] = some s := rfl

theorem run_cons (step : σ → ι → Option σ) (s t : σ) (a : ι) (as : List ι) :
    run step s (a :: as) = some t ↔ ∃ u, step s a = some u ∧ run step u as = some t := by
  simp [run, bind_eq_some_iff]

theorem run_append (step : σ → ι → Option σ) (s t : σ) (as bs : List ι) :
    run step s (as ++ bs) = some t ↔ ∃ u, run step s as = some u ∧ run step u bs = some t := by
  induction as generalizing s with
  | nil => simp
  | cons a as ih =>
    rw [cons_append, run_cons]
    constructor
    · rintro ⟨u, hu, h⟩
      obtain ⟨w, hw, ht⟩ := (ih u).mp h
      exact ⟨w, (run_cons step s w a as).mpr ⟨u, hu, hw⟩, ht⟩
    · rintro ⟨w, hw, ht⟩
      obtain ⟨u, hu, hw⟩ := (run_cons step s w a as).mp hw
      exact ⟨u, hu, (ih u).mpr ⟨w, hw, ht⟩⟩

theorem run_total (f : σ → ι → σ) (s : σ) (as : List ι) : run (fun s a => some (f s a)) s as = some (as.foldl f s) := by
  induction as generalizing s with
  | nil => rfl
  | cons a as ih => exact ih (f s a)

theorem meets_of_forall {ok : ι → Prop} (h : ∀ a ∈ as, ok a) : Meets step (fun _ a => ok a) s as := by
  induction as generalizing s with
  | nil => trivial
  | cons a as ih =>
    obtain ⟨ha, has⟩ := forall_mem_cons.mp h
    exact ⟨ha, fun _ _ => ih has⟩

theorem meets_append {allowed : σ → ι → Prop} {t : σ} {bs : List ι} (h : Meets step allowed s (as ++ bs))
    (hrun : run step s as = some t) : Meets step allowed s as ∧ Meets step allowed t bs := by
  induction as generalizing s with
  | nil =>
    cases hrun
    exact ⟨trivial, h⟩
  | cons a as ih =>
    obtain ⟨u, hu, hrest⟩ := (run_cons step s t a as).mp hrun
    obtain ⟨has, hbs⟩ := ih (h.2 u hu) hrest
    refine ⟨⟨h.1, ?_⟩, hbs⟩
    intro w hw
    rw [hu] at hw
    cases hw
    exact has

theorem run_invariant {allowed : σ → ι → Prop} {Inv : σ → Prop} (hstep : ∀ s a t, Inv s → allowed s a → step s a = some t → Inv t)
    {t : σ} (hs : Inv s) (hok : Meets step allowed s as) (hrun : run step s as = some t) : Inv t := by
  induction as generalizing s with
  | nil =>
    cases hrun
    exact hs
  | cons a as ih =>
    obtain ⟨u, hu, hrest⟩ := (run_cons step s t a as).mp hrun
    exact ih (hstep s a u hs hok.1 hu) (hok.2 u hu) hrest

end Spangap.Runs
