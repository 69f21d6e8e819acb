import Spangap.Its
import Mathlib.Data.Finset.Card

namespace Spangap.PortLimit

open Its (TaskId World Port portFind)
open Option Function Runs

abbrev Place := TaskId × Nat

/-- A connection that has passed the check of a port and is not there yet; a forward has a handle. -/
structure Admission where
  place : Place
  handle : Option Nat
  deriving DecidableEq, Repr

structure State where
  conns : Nat → Option Place
  pending : TaskId → Option Admission

inductive Action
  | connectCheck (me : TaskId) (port : Nat)
  | forwardCheck (me : TaskId) (handle : Nat) (target : TaskId) (port : Nat)
  | alloc (me : TaskId) (handle : Nat)
  | move (me : TaskId)
  | giveUp (me : TaskId)
  | close (handle : Nat)

def serverPortActiveCount (conns : Nat → Option Place) (q : Place) : Nat :=
  ((Finset.range Its.maxConns).filter fun h => conns h = some q).card

def opened (w : World) (q : Place) : Option Port :=
  if q.1 < w.count ∧ (w.task q.1).isServer then portFind w q.1 q.2 else none

/-- The last look at the count, after a busy callback. CONNECT never passes a full port; a forward does if there is no callback. -/
def passes (s : State) (forward : Bool) (sp : Port) (q : Place) : Bool :=
  decide (serverPortActiveCount s.conns q < sp.maxHandles) || forward && !sp.onBusy

def step (w : World) (s : State) : Action → Option State
  | .connectCheck me port =>
    if (s.pending me).isNone && (opened w (me, port)).any (passes s false · (me, port)) then
      some { s with pending := update s.pending me (some ⟨(me, port), none⟩) }
    else none
  | .forwardCheck me h target port =>
    if (s.pending me).isNone && (s.conns h).any (fun q => q.1 = me) &&
        (opened w (target, port)).any (passes s true · (target, port)) then
      some { s with pending := update s.pending me (some ⟨(target, port), some h⟩) }
    else none
  | .alloc me h =>
    match s.pending me with
    | some ⟨q, none⟩ =>
      if h < Its.maxConns && (s.conns h).isNone then
        some ⟨update s.conns h (some q), update s.pending me none⟩
      else none
    | _ => none
  | .move me =>
    match s.pending me with
    | some ⟨q, some h⟩ =>
      some ⟨update s.conns h ((s.conns h).map fun _ => q), update s.pending me none⟩
    | _ => none
  | .giveUp me => some { s with pending := update s.pending me none }
  | .close h => some { s with conns := update s.conns h none }

/-- A port is checked while no other connection is on its way to it, and a
forward finds room or a busy callback. -/
def Orderly (w : World) (s : State) : Action → Prop
  | .connectCheck me port => ∀ t a, s.pending t = some a → a.place ≠ (me, port)
  | .forwardCheck _ _ target port =>
    (∀ t a, s.pending t = some a → a.place ≠ (target, port)) ∧
      ∀ sp, opened w (target, port) = some sp → serverPortActiveCount s.conns (target, port) < sp.maxHandles ∨ sp.onBusy = true
  | _ => True

structure Inv (w : World) (conns : Nat → Option Place) (pending : TaskId → Option Admission) : Prop where
  within : ∀ q sp, opened w q = some sp → serverPortActiveCount conns q ≤ sp.maxHandles
  reserved : ∀ t a sp, pending t = some a → opened w a.place = some sp → serverPortActiveCount conns a.place < sp.maxHandles
  alone : ∀ t u a b, pending t = some a → pending u = some b → a.place = b.place → t = u

section Steps

variable {w : World} {conns : Nat → Option Place} {pending : TaskId → Option Admission} {me : TaskId} {a : Admission}
  {q : Place}
  {h : Nat} {o : Option Place}

theorem count_update_le (ho : o ≠ some q) :
    serverPortActiveCount (update conns h o) q ≤ serverPortActiveCount conns q := by
  apply Finset.card_le_card
  intro i hi
  rcases eq_or_ne i h with rfl | hne
  · simp [ho] at hi
  · simpa [hne] using hi

theorem count_update_le_succ :
    serverPortActiveCount (update conns h o) q ≤ serverPortActiveCount conns q + 1 := by
  refine le_trans (Finset.card_le_card ?_) (Finset.card_insert_le h _)
  intro i hi
  rcases eq_or_ne i h with rfl | hne
  · simp
  · simpa [hne] using hi

/-- A check that found room reserves the place for one connection. -/
theorem inv_check (hs : Inv w conns pending) (hfree : ∀ t b, pending t = some b → b.place ≠ a.place)
    (hroom : ∀ sp, opened w a.place = some sp → serverPortActiveCount conns a.place < sp.maxHandles) :
    Inv w conns (update pending me (some a)) where
  within := hs.within
  reserved t b sp hb hsp := by
    rcases eq_or_ne t me with rfl | hne
    · rw [update_self] at hb
      cases hb
      exact hroom sp hsp
    · rw [update_of_ne hne] at hb
      exact hs.reserved t b sp hb hsp
  alone := by
    have halone := hs.alone
    grind

/-- A connection that arrives uses up the place that was kept for it. -/
theorem inv_arrive (hs : Inv w conns pending) (ha : pending me = some a) (ho : ∀ q, o = some q → q = a.place) :
    Inv w (update conns h o) (update pending me none) where
  within q sp hsp := by
    by_cases hq : o = some q
    · have hplace := ho q hq
      have hroom := hs.reserved me a sp ha (hplace ▸ hsp)
      rw [← hplace] at hroom
      exact le_trans count_update_le_succ hroom
    · exact le_trans (count_update_le hq) (hs.within q sp hsp)
  reserved t b sp hb hsp := by
    have hne : t ≠ me := by
      rintro rfl
      simp at hb
    rw [update_of_ne hne] at hb
    have hother : o ≠ some b.place := fun hq => hne (hs.alone t me b a hb ha (ho _ hq))
    exact lt_of_le_of_lt (count_update_le hother) (hs.reserved t b sp hb hsp)
  alone := by
    have halone := hs.alone
    grind

theorem inv_close (hs : Inv w conns pending) : Inv w (update conns h none) pending where
  within q sp hsp := le_trans (count_update_le (by simp)) (hs.within q sp hsp)
  reserved t b sp hb hsp := lt_of_le_of_lt (count_update_le (by simp)) (hs.reserved t b sp hb hsp)
  alone := hs.alone

theorem inv_giveUp (hs : Inv w conns pending) : Inv w conns (update pending me none) where
  within := hs.within
  reserved t b sp hb := hs.reserved t b sp (by grind)
  alone := by
    have halone := hs.alone
    grind

theorem inv_step (s : State) (x : Action) (t : State) (hs : Inv w s.conns s.pending) (hok : Orderly w s x)
    (hstep : step w s x = some t) : Inv w t.conns t.pending := by
  cases x with
  | connectCheck me port =>
    rw [step, ite_none_right_eq_some, Bool.and_eq_true] at hstep
    obtain ⟨⟨-, hpass⟩, ⟨⟩⟩ := hstep
    refine inv_check hs hok fun sp hsp => ?_
    simpa [passes, hsp] using hpass
  | forwardCheck me h target port =>
    rw [step, ite_none_right_eq_some, Bool.and_eq_true] at hstep
    obtain ⟨⟨-, hpass⟩, ⟨⟩⟩ := hstep
    refine inv_check hs hok.1 fun sp hsp => ?_
    have hpass : serverPortActiveCount s.conns (target, port) < sp.maxHandles ∨ sp.onBusy = false := by
      simpa [passes, hsp] using hpass
    rcases hok.2 sp hsp with hroom | hbusy
    · exact hroom
    · exact hpass.resolve_right (by simp [hbusy])
  | alloc me h =>
    simp only [step] at hstep
    split at hstep
    next q hq =>
      rw [ite_none_right_eq_some] at hstep
      obtain ⟨-, ⟨⟩⟩ := hstep
      exact inv_arrive hs hq fun _ h => (some_inj.mp h).symm
    · cases hstep
  | move me =>
    simp only [step] at hstep
    split at hstep
    next q h hq =>
      cases hstep
      refine inv_arrive hs hq fun p hp => ?_
      obtain ⟨-, -, rfl⟩ := map_eq_some_iff.mp hp
      rfl
    · cases hstep
  | giveUp me =>
    cases hstep
    exact inv_giveUp hs
  | close h =>
    cases hstep
    exact inv_close hs

end Steps

def start : State := ⟨fun _ => none, fun _ => none⟩

/-- No port has more connections than it was opened for. -/
theorem limit_kept {w : World} {s : State} {xs : List Action} {q : Place} {sp : Port}
    (hok : Meets (step w) (Orderly w) start xs) (hrun : run (step w) start xs = some s) (hopen : opened w q = some sp) :
    serverPortActiveCount s.conns q ≤ sp.maxHandles := by
  have hstart : Inv w start.conns start.pending :=
    ⟨fun _ _ _ => by simp [serverPortActiveCount, start], by simp [start], by simp [start]⟩
  exact (run_invariant inv_step hstart hok hrun).within q sp hopen

def pair : World := ⟨2, fun _ => ⟨true, false, false, 8, 64, [⟨7, .stream, 1, 64, 64, 1, 64, false, false, false⟩], []⟩⟩

def single : List Action := [.connectCheck 0 7, .alloc 0 5]

theorem limit_kept_single : ∃ s, run (step pair) start single = some s ∧ serverPortActiveCount s.conns (0, 7) ≤ 1 := by
  have hok : Meets (step pair) (Orderly pair) start single := ⟨by simp [Orderly, start], fun _ _ => ⟨trivial, fun _ _ => trivial⟩⟩
  exact ⟨_, rfl, @limit_kept pair _ single (0, 7) _ hok rfl rfl⟩

/-- A connection is forwarded to a port that is full, and one arrives between
the check of another and its entry. -/
theorem limit_exceeded :
    (run (step pair) start (single ++ [.connectCheck 1 7, .alloc 1 6, .forwardCheck 0 5 1 7, .move 0])).map
      (fun s => serverPortActiveCount s.conns (1, 7)) = some 2 ∧
    (run (step pair) start (single ++ [.connectCheck 1 7, .forwardCheck 0 5 1 7, .move 0, .alloc 1 6])).map
      (fun s => serverPortActiveCount s.conns (1, 7)) = some 2 := by
  decide

end Spangap.PortLimit
