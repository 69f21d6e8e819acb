import Spangap.Runs

namespace Spangap.PollWake

open Option Runs

/-- Where the task stands: before a poll, in its callbacks (with what is to be
reported so far, and whether this is the look after the wait), in the wait, or
after it. -/
inductive Place
  | top
  | callbacks (any again : Bool)
  | blocked
  | after
  deriving DecidableEq, Repr

/-- The inbox has a mark for each message: whether its sender is past the notify. -/
structure State where
  inbox : List Bool
  notifications : Nat
  place : Place
  deriving DecidableEq, Repr

/-- `notify` is any other wake: a link arrival, freed space, or the notify for
a message that is out of the inbox already. `take` is a wait in a callback's
`itsRecv` or `itsRecvRef`. -/
inductive Action
  | enqueue
  | tell (i : Nat)
  | notify
  | look
  | take
  | progress
  | done (wait : Bool)
  | wake
  | timeout
  deriving DecidableEq, Repr

def receive (s : State) (again : Bool) : State :=
  match s.inbox with
  | [] => { s with place := .callbacks false again }
  | _ :: rest => { s with inbox := rest, place := .callbacks true again }

def step (s : State) : Action → Option State
  | .enqueue => some { s with inbox := s.inbox ++ [false] }
  | .tell i =>
    if s.inbox[i]? = some false then
      some { s with inbox := s.inbox.set i true, notifications := s.notifications + 1 }
    else none
  | .notify => some { s with notifications := s.notifications + 1 }
  | .look =>
    match s.place with
    | .top => some (receive s false)
    | .after => some (receive s true)
    | _ => none
  | .take =>
    match s.place with
    | .callbacks _ _ => if 0 < s.notifications then some { s with notifications := s.notifications - 1 } else none
    | _ => none
  | .progress =>
    match s.place with
    | .callbacks _ again => some { s with place := .callbacks true again }
    | _ => none
  | .done wait =>
    match s.place with
    | .callbacks any again => some { s with place := if any || again || !wait then .top else .blocked }
    | _ => none
  | .wake => if s.place = .blocked ∧ 0 < s.notifications then some { s with notifications := 0, place := .after } else none
  | .timeout => if s.place = .blocked then some { s with place := .after } else none

def start : State := ⟨[], 0, .top⟩

/-- The task has found the inbox empty and is on its way into the wait. -/
def unaware : Place → Bool
  | .callbacks any again => !any && !again
  | .blocked => true
  | _ => false

/-- A callback takes the last notification only if the poll does not go on to
wait, or the inbox has no message that was announced. -/
def considerate (s : State) : Action → Bool
  | .take => !unaware s.place || 1 < s.notifications || !s.inbox.contains true
  | _ => true

def Inv (s : State) : Prop := unaware s.place = true → true ∈ s.inbox → 0 < s.notifications

variable {s t : State}

theorem inv_receive (s : State) (again : Bool) : Inv (receive s again) := by
  intro hunaware htold
  unfold receive at hunaware htold
  cases hbox : s.inbox with
  | nil => simp [hbox] at htold
  | cons b rest => simp [hbox, unaware] at hunaware

theorem inv_step (s : State) (a : Action) (t : State) (hs : Inv s) (hok : considerate s a = true) (h : step s a = some t) :
    Inv t := by
  cases a with
  | enqueue =>
    cases h
    intro hunaware htold
    exact hs hunaware (by simpa using htold)
  | tell i =>
    simp only [step, ite_none_right_eq_some] at h
    obtain ⟨-, ⟨⟩⟩ := h
    exact fun _ _ => Nat.succ_pos _
  | notify =>
    cases h
    exact fun _ _ => Nat.succ_pos _
  | look =>
    simp only [step] at h
    split at h
    · cases h
      exact inv_receive s false
    · cases h
      exact inv_receive s true
    · cases h
  | take =>
    simp only [step] at h
    split at h
    next any again hplace =>
      simp only [ite_none_right_eq_some] at h
      obtain ⟨hpos, ⟨⟩⟩ := h
      intro hunaware htold
      have hmore : 1 < s.notifications := by
        simp only [considerate, show unaware s.place = true from hunaware] at hok
        simpa [htold] using hok
      exact Nat.sub_pos_of_lt hmore
    · cases h
  | progress =>
    simp only [step] at h
    split at h
    · cases h
      intro hunaware
      cases hunaware
    · cases h
  | done wait =>
    simp only [step] at h
    split at h
    next any again hplace =>
      cases h
      intro hunaware htold
      refine hs ?_ htold
      rw [hplace]
      cases any <;> cases again <;> simp_all [unaware]
    · cases h
  | wake =>
    simp only [step, ite_none_right_eq_some] at h
    obtain ⟨-, ⟨⟩⟩ := h
    intro hunaware
    cases hunaware
  | timeout =>
    simp only [step, ite_none_right_eq_some] at h
    obtain ⟨-, ⟨⟩⟩ := h
    intro hunaware
    cases hunaware

/-- What lies in the inbox of a task that waits with no notification is yet to be announced. -/
theorem blocked_unannounced {xs : List Action} (hok : Meets step (fun s a => considerate s a = true) start xs)
    (hrun : run step start xs = some s) (hblocked : s.place = .blocked) (hnone : s.notifications = 0) :
    ∀ told ∈ s.inbox, told = false := by
  have hs : Inv s := run_invariant inv_step (fun _ h => by cases h) hok hrun
  intro told hmem
  by_contra htold
  have htrue : true ∈ s.inbox := by
    rwa [Bool.not_eq_false _ |>.mp htold] at hmem
  have hpos := hs (by rw [hblocked]; rfl) htrue
  omega

theorem blocked_unannounced_early :
    run step start [.look, .done true, .enqueue] = some ⟨[false], 0, .blocked⟩ ∧ ∀ told ∈ [false], told = false :=
  ⟨by decide, @blocked_unannounced ⟨[false], 0, .blocked⟩ [.look, .done true, .enqueue] (by decide) (by decide) rfl rfl⟩

/-- A callback takes the notification of a message that came after the look at the inbox. -/
theorem message_stranded : run step start [.look, .enqueue, .tell 0, .take, .done true] = some ⟨[true], 0, .blocked⟩ := by
  decide

end Spangap.PollWake
