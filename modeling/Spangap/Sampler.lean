import Spangap.Runs

namespace Spangap.Sampler

open List Runs

/-- The settings `statsWatchApply` reads. -/
structure Watch where
  webActmon : Int
  lcdActmon : Int
  staUp : Int
  apUp : Int

def Watch.want (w : Watch) : Bool :=
  (w.webActmon != 0 && (w.staUp != 0 || w.apUp != 0)) || w.lcdActmon != 0

/-- Where a sampler task stands in `statsTaskFn`. -/
inductive Phase where
  | check | tick | teardown | flags

def Phase.looping : Phase → Bool
  | check | tick => true
  | teardown | flags => false

/-- The rest of the task after one step, `none` once it has cleared `s_statsRunning`. -/
def Phase.next (stop : Bool) : Phase → Option Phase
  | check => some (if stop then teardown else tick)
  | tick => some check
  | teardown => some flags
  | flags => none

structure State where
  running : Bool
  stop : Bool
  samplers : List Phase

def boot : State := ⟨false, false, []⟩

def statsStart (s : State) : State :=
  if s.running then s else ⟨true, false, s.samplers ++ [.check]⟩

def statsWatchApply (s : State) (w : Watch) : State :=
  if w.want then
    if s.stop then { s with stop := false }
    else if !s.running then statsStart s
    else s
  else if s.running && !s.stop then { s with stop := true }
  else s

def statsTaskFn (s : State) (i : Nat) : Option State :=
  s.samplers[i]?.map fun p =>
    match p.next s.stop with
    | some q => { s with samplers := s.samplers.set i q }
    | none => { s with running := false, samplers := s.samplers.eraseIdx i }

inductive Action where
  | call (w : Watch)
  | turn (i : Nat)

def step (s : State) : Action → Option State
  | .call w => some (statsWatchApply s w)
  | .turn i => statsTaskFn s i

def Settled (s : State) : Prop := ∀ p ∈ s.samplers, p.looping = true ∧ s.stop = false

/-- A wish that comes in this state is met: the sampler is still in its loop, or
there is none and no old request to stop is left. -/
def ready (s : State) : Bool := s.samplers.any Phase.looping || (s.samplers.isEmpty && !s.stop)

def stays (s : State) : Bool := s.samplers.any Phase.looping && !s.stop

/-- There is at most one sampler, and `s_statsRunning` says whether there is one. -/
inductive Alone : State → Prop
  | none (stop : Bool) : Alone ⟨false, stop, []⟩
  | one (stop : Bool) (p : Phase) : Alone ⟨true, stop, [p]⟩

section Steps

variable {s t : State}

theorem alone_call (h : Alone s) (w : Watch) : Alone (statsWatchApply s w) ∧ stays (statsWatchApply s w) = (w.want && ready s) := by
  cases hw : w.want <;> cases h with
  | none stop => cases stop <;> simp [statsWatchApply, statsStart, hw, stays, ready, Phase.looping] <;> constructor
  | one stop p => cases stop <;> simp [statsWatchApply, hw, stays, ready] <;> constructor

theorem alone_turn (h : Alone s) {i : Nat} (ht : statsTaskFn s i = some t) : Alone t ∧ stays t = stays s := by
  cases h with
  | none stop => cases ht
  | one stop p =>
    cases i with
    | succ i => simp [statsTaskFn] at ht
    | zero =>
      -- Leaving the loop needs `s_statsStop`, and a task that has left it does not come back.
      cases p <;> cases stop <;> cases ht <;> exact ⟨by constructor, rfl⟩

theorem alone_run {as : List Action} (hrun : run step boot as = some s) : Alone s := by
  have hstep : ∀ s a t, Alone s → True → step s a = some t → Alone t := by
    intro s a t h _ ht
    cases a with
    | call w =>
      cases ht
      exact (alone_call h w).1
    | turn i => exact (alone_turn h ht).1
  exact run_invariant hstep (.none false) (meets_of_forall fun _ _ => trivial) hrun

theorem stays_turns (h : Alone s) {is : List Nat} (hrun : run step s (is.map .turn) = some t) : stays t = stays s := by
  induction is generalizing s with
  | nil =>
    cases hrun
    rfl
  | cons i is ih =>
    obtain ⟨u, hu, hrest⟩ := (run_cons step s t (.turn i) (is.map .turn)).mp hrun
    obtain ⟨ha, hstays⟩ := alone_turn h hu
    rw [ih ha hrest, hstays]

theorem settled_iff (h : Settled s) : s.samplers ≠ [] ↔ stays s = true := by
  rw [stays, Bool.and_eq_true, any_eq_true]
  constructor
  · intro hne
    obtain ⟨p, hp⟩ := exists_mem_of_ne_nil _ hne
    exact ⟨⟨p, hp, (h p hp).1⟩, by simp [(h p hp).2]⟩
  · rintro ⟨⟨p, hp, -⟩, -⟩
    exact ne_nil_of_mem hp

end Steps

/-- There is never a second sampler, and after the last call the sampler follows the wish
exactly when a wish to have one came in time. -/
theorem sampler_follows {as : List Action} {s : State} (hrun : run step boot as = some s) :
    s.samplers.length ≤ 1 ∧ ∀ (w : Watch) (is : List Nat) (t : State),
      run step s (.call w :: is.map .turn) = some t → Settled t →
      ((t.samplers ≠ [] ↔ w.want = true) ↔ (w.want = true → ready s = true)) := by
  have h := alone_run hrun
  refine ⟨by cases h <;> simp, ?_⟩
  intro w is t ht hset
  obtain ⟨u, hu, ht⟩ := (run_cons step s t _ _).mp ht
  cases hu
  obtain ⟨ha, hstays⟩ := alone_call h w
  rw [settled_iff hset, stays_turns ha ht, hstays]
  cases w.want <;> simp

def watching : Watch := ⟨0, 1, 0, 0⟩

def unwatched : Watch := ⟨0, 0, 0, 0⟩

theorem sampler_follows_once : ∃ s t, run step boot [.call watching, .turn 0, .call unwatched] = some s ∧
    run step s (.call watching :: [0, 0].map .turn) = some t ∧ t.samplers = [.tick] ∧
    ((t.samplers ≠ [] ↔ watching.want = true) ↔ (watching.want = true → ready s = true)) :=
  have hrun : run step boot [.call watching, .turn 0, .call unwatched] = some ⟨true, true, [.tick]⟩ := rfl
  ⟨_, ⟨true, false, [.tick]⟩, hrun, rfl, rfl, (sampler_follows hrun).2 watching [0, 0] _ rfl (by simp [Settled, Phase.looping])⟩

/-- The sampler has ended and left `s_statsStop` set: the next wish only takes the flag back. -/
theorem restart_lost : ∃ t, run step boot ([.call watching, .call unwatched] ++ [0, 0, 0].map .turn ++ [.call watching]) = some t ∧
    Settled t ∧ watching.want = true ∧ t.samplers = [] :=
  ⟨_, rfl, nofun, rfl, rfl⟩

end Spangap.Sampler
