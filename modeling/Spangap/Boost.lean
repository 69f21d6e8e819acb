import Spangap.Runs
import Mathlib.Data.Fintype.Card
import Mathlib.Data.List.FinRange

namespace Spangap.Boost

open List Function Runs

abbrev boostMaxTasks : Nat := 24

/-- The boost table: who has a slot, and the count of its lock, which is made when the slot is first
taken and stays with it. `held` is the thread-local pointer of a task. Beside them stand the tasks
that live and how many of its `pmBoost` calls each has not taken back. -/
structure State where
  task : Fin boostMaxTasks → Option Nat
  count : Fin boostMaxTasks → Nat
  held : Nat → Option (Fin boostMaxTasks)
  live : Nat → Bool
  manual : Nat → Nat

def start : State := ⟨fun _ => none, fun _ => 0, fun _ => none, fun _ => false, fun _ => 0⟩

def slotOf (s : State) (owner : Option Nat) : Option (Fin boostMaxTasks) := (finRange boostMaxTasks).find? (s.task · = owner)

def boostLockFind (s : State) (t : Nat) : Option (Fin boostMaxTasks) := slotOf s (some t)

def boostLockEnsure (s : State) (t : Nat) : State × Option (Fin boostMaxTasks) :=
  match boostLockFind s t with
  | some i => (s, some i)
  | none =>
    match slotOf s none with
    | some i => ({ s with task := update s.task i (some t) }, some i)
    | none => (s, none)

def pmLockAcquire (s : State) (i : Fin boostMaxTasks) : State := { s with count := update s.count i (s.count i + 1) }

/-- Both kinds of release: a count of 0 stays. -/
def boostReleaseLean (s : State) (i : Fin boostMaxTasks) : State := { s with count := update s.count i (s.count i - 1) }

def pmBoostAuto (s : State) (t : Nat) (turnOn : Bool) : State :=
  match turnOn, s.held t with
  | true, none =>
    match boostLockEnsure s t with
    | (s, some i) => pmLockAcquire { s with held := update s.held t (some i) } i
    | (s, none) => s
  | false, some i => boostReleaseLean { s with held := update s.held t none } i
  | _, _ => s

def pmBoost (s : State) (t : Nat) : State :=
  match boostLockEnsure s t with
  | (s, some i) => pmLockAcquire { s with manual := update s.manual t (s.manual t + 1) } i
  | (s, none) => s

def pmBoostEnd (s : State) (t : Nat) : State :=
  match boostLockFind s t with
  | some i => if 0 < s.count i then boostReleaseLean { s with manual := update s.manual t (s.manual t - 1) } i else s
  | none => s

def boostTlsDelCb (s : State) : Option (Fin boostMaxTasks) → State
  | none => s
  | some i => boostReleaseLean { s with task := update s.task i none } i

inductive Action where
  | create (t : Nat)
  | auto (t : Nat) (turnOn : Bool)
  | boost (t : Nat)
  | boostEnd (t : Nat)
  | delete (t : Nat)

def step (s : State) : Action → Option State
  | .create t =>
    if s.live t then none
    else some { s with live := update s.live t true, held := update s.held t none, manual := update s.manual t 0 }
  | .auto t turnOn => if s.live t then some (pmBoostAuto s t turnOn) else none
  | .boost t => if s.live t then some (pmBoost s t) else none
  | .boostEnd t => if s.live t then some (pmBoostEnd s t) else none
  | .delete t =>
    if s.live t ∧ s.manual t = 0 then some (boostTlsDelCb { s with live := update s.live t false } (s.held t)) else none

/-- A task takes back no more than its own `pmBoost` calls, and one that has a slot dies boosted. -/
def Allowed (s : State) : Action → Prop
  | .boostEnd t => 0 < s.manual t ∨ s.held t = none
  | .delete t => (s.held t).isSome ∨ ∀ i, s.task i ≠ some t
  | _ => True

instance (s : State) (a : Action) : Decidable (Allowed s a) := by
  cases a <;> unfold Allowed <;> infer_instance

structure Inv (s : State) : Prop where
  count : ∀ i t, s.task i = some t → s.live t = true ∧ s.count i = s.manual t + if (s.held t).isSome then 1 else 0
  free : ∀ i, s.task i = none → s.count i = 0
  once : ∀ i j t, s.task i = some t → s.task j = some t → i = j
  held : ∀ t i, s.live t = true → s.held t = some i → s.task i = some t
  bare : ∀ t, s.live t = true → (∀ i, s.task i ≠ some t) → s.manual t = 0

section Steps

variable {s u : State} {t : Nat} {i : Fin boostMaxTasks}

theorem slotOf_some {owner : Option Nat} (h : slotOf s owner = some i) : s.task i = owner := by
  simpa using find?_some h

theorem slotOf_none {owner : Option Nat} (h : slotOf s owner = none) (i : Fin boostMaxTasks) : s.task i ≠ owner := by
  simpa using find?_eq_none.mp h i (mem_finRange i)

theorem ensure_some (h : Inv s) (ht : s.live t = true) (hu : boostLockEnsure s t = (u, some i)) :
    Inv u ∧ u.live t = true ∧ u.task i = some t ∧ u.held = s.held := by
  unfold boostLockEnsure boostLockFind at hu
  split at hu
  next hfind =>
    cases hu
    exact ⟨h, ht, slotOf_some hfind, rfl⟩
  next hfind =>
    have hnone := slotOf_none hfind
    split at hu
    next hfree =>
      cases hu
      have hfree := slotOf_some hfree
      have hzero := h.free i hfree
      have hbare := h.bare t ht hnone
      have hheld : s.held t = none := by
        cases hi : s.held t with
        | none => rfl
        | some j => exact absurd (h.held t j ht hi) (hnone j)
      obtain ⟨h1, h2, h3, h4, h5⟩ := h
      refine ⟨⟨?_, ?_, ?_, ?_, ?_⟩, ht, by simp, rfl⟩ <;> simp only [update_apply] <;> grind
    next => cases hu

theorem ensure_none (hu : boostLockEnsure s t = (u, none)) : u = s ∧ ∀ i, s.task i ≠ none ∧ s.task i ≠ some t := by
  unfold boostLockEnsure boostLockFind at hu
  split at hu
  next => cases hu
  next hfind =>
    split at hu
    next => cases hu
    next hfree =>
      cases hu
      exact ⟨rfl, fun i => ⟨slotOf_none hfree i, slotOf_none hfind i⟩⟩

theorem inv_auto (h : Inv s) (ht : s.live t = true) (turnOn : Bool) : Inv (pmBoostAuto s t turnOn) := by
  unfold pmBoostAuto
  split
  next hheld =>
    split
    next u i hu =>
      obtain ⟨⟨h1, h2, h3, h4, h5⟩, hlive, htask, hsame⟩ := ensure_some h ht hu
      rw [← hsame] at hheld
      refine ⟨?_, ?_, ?_, ?_, ?_⟩ <;> simp only [pmLockAcquire, update_apply] <;> grind
    next u hu => rwa [(ensure_none hu).1]
  next i hheld =>
    have htask := h.held t i ht hheld
    obtain ⟨h1, h2, h3, h4, h5⟩ := h
    refine ⟨?_, ?_, ?_, ?_, ?_⟩ <;> simp only [ boostReleaseLean, update_apply] <;> grind
  next => exact h

theorem inv_boost (h : Inv s) (ht : s.live t = true) : Inv (pmBoost s t) := by
  unfold pmBoost
  split
  next u i hu =>
    obtain ⟨⟨h1, h2, h3, h4, h5⟩, hlive, htask, -⟩ := ensure_some h ht hu
    refine ⟨?_, ?_, ?_, ?_, ?_⟩ <;> simp only [pmLockAcquire, update_apply] <;> grind
  next u hu => rwa [(ensure_none hu).1]

theorem inv_boostEnd (h : Inv s) (hok : 0 < s.manual t ∨ s.held t = none) : Inv (pmBoostEnd s t) := by
  unfold pmBoostEnd boostLockFind
  split
  next i hi =>
    have htask := slotOf_some hi
    split
    · obtain ⟨h1, h2, h3, h4, h5⟩ := h
      refine ⟨?_, ?_, ?_, ?_, ?_⟩ <;> simp only [ boostReleaseLean, update_apply] <;> grind
    · exact h
  next => exact h

theorem inv_delete (h : Inv s) (ht : s.live t = true) (hmanual : s.manual t = 0) (hok : (s.held t).isSome ∨ ∀ i, s.task i ≠ some t) :
    Inv (boostTlsDelCb { s with live := update s.live t false } (s.held t)) := by
  have hheld := h.held t
  obtain ⟨h1, h2, h3, h4, h5⟩ := h
  cases hi : s.held t with
  | none => refine ⟨?_, ?_, ?_, ?_, ?_⟩ <;> simp only [boostTlsDelCb, update_apply] <;> grind
  | some i => refine ⟨?_, ?_, ?_, ?_, ?_⟩ <;> simp only [boostTlsDelCb, boostReleaseLean, update_apply] <;> grind

theorem inv_create (h : Inv s) (ht : s.live t = false) :
    Inv { s with live := update s.live t true, held := update s.held t none, manual := update s.manual t 0 } := by
  obtain ⟨h1, h2, h3, h4, h5⟩ := h
  refine ⟨?_, ?_, ?_, ?_, ?_⟩ <;> simp only [update_apply] <;> grind

theorem inv_step (s : State) (a : Action) (u : State) (h : Inv s) (hok : Allowed s a) (hu : step s a = some u) : Inv u := by
  cases a <;> simp only [step] at hu <;> split at hu <;> cases hu
  case create hlive => exact inv_create h (by simpa using hlive)
  case auto hlive => exact inv_auto h hlive _
  case boost hlive => exact inv_boost h hlive
  case boostEnd => exact inv_boostEnd h hok
  case delete hlive => exact inv_delete h hlive.1 hlive.2 hok

/-- With a slot that is free or its own, a task gets its boost. -/
theorem takes_effect (h : Inv s) (ht : s.live t = true)
    (hroom : (Finset.univ.filter fun i => s.task i ≠ none ∧ s.task i ≠ some t).card < boostMaxTasks) :
    ∀ u ∈ [pmBoost s t, pmBoostAuto s t true], ∃ i, u.task i = some t ∧ 0 < u.count i := by
  have hensure : ∃ u i, boostLockEnsure s t = (u, some i) := by
    rcases hu : boostLockEnsure s t with ⟨u, - | i⟩
    · rw [Finset.filter_true_of_mem fun i _ => (ensure_none hu).2 i] at hroom
      simp at hroom
    · exact ⟨u, i, rfl⟩
  obtain ⟨v, i, hv⟩ := hensure
  obtain ⟨-, -, htask, -⟩ := ensure_some h ht hv
  have hboost : ∃ i, (pmBoost s t).task i = some t ∧ 0 < (pmBoost s t).count i :=
    ⟨i, by simp [pmBoost, hv, pmLockAcquire, htask]⟩
  have hauto : ∃ i, (pmBoostAuto s t true).task i = some t ∧ 0 < (pmBoostAuto s t true).count i := by
    cases hheld : s.held t with
    | none => exact ⟨i, by simp [pmBoostAuto, hheld, hv, pmLockAcquire, htask]⟩
    | some j =>
      have hj := h.held t j ht hheld
      exact ⟨j, by simp [pmBoostAuto, hheld, hj, (h.count j t hj).2]⟩
  simp [hboost, hauto]

end Steps

end Spangap.Boost
