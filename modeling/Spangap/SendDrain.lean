import Mathlib.Algebra.Group.Nat.Defs
import Mathlib.Order.Nat
import Mathlib.Data.Nat.Find

namespace Spangap.SendDrain

/-- What the sender has given to a connection and the peer has not read: descriptors and payload
of a link, or bytes of a stream buffer. -/
inductive Queue
  | link (ring outstanding : Nat)
  | stream (bytes : Nat)

def itsSendIsEmpty : Queue → Bool
  | .link ring outstanding => ring < 8 && outstanding == 0
  | .stream bytes => bytes == 0

/-- The product is one of 32-bit tick counts. -/
def pdMsToTicks (hz ms : Nat) : Nat := ms * hz % 2 ^ 32 / 1000

/-- The polls of one call: the ticks since the call at each. A poll comes no sooner than 5 ms after the one before, and
time goes on. -/
structure Polls (hz : Nat) where
  ticks : Nat → Nat
  apart : ∀ i, ticks i + pdMsToTicks hz 5 ≤ ticks (i + 1)
  unbounded : ∀ n, ∃ i, n ≤ ticks i

/-- The first poll at tick `due` or after it is at most `slack` ticks late. -/
def Prompt (due slack : Nat) (ticks : Nat → Nat) : Prop :=
  ∀ k, due ≤ ticks k → (∀ j < k, ticks j < due) → ticks k ≤ due + slack

section Drain

variable (hz start ms : Nat) (connected : Nat → Bool) (queue : Nat → Queue) (ticks : Nat → Nat)

def deadline : Nat := (start + pdMsToTicks hz ms) % 2 ^ 32

def xTaskGetTickCount (i : Nat) : Nat := (start + ticks i) % 2 ^ 32

/-- The result of the loop from poll `i` on and the poll it returned at, if it did so within `n` polls. -/
def drainFrom : Nat → Nat → Option (Bool × Nat)
  | 0, _ => none
  | n + 1, i =>
    if itsSendIsEmpty (queue i) then some (true, i)
    else if !connected i then some (false, i)
    else if deadline hz start ms ≤ xTaskGetTickCount start ticks i then some (false, i)
    else drainFrom n (i + 1)

def itsSendDrain (n : Nat) : Option (Bool × Nat) := drainFrom hz start ms connected queue ticks n 0

/-- `timeoutMs` have elapsed at a poll. -/
def Elapsed (i : Nat) : Prop := ms * hz ≤ ticks i * 1000
  deriving Decidable

/-- A call that returns, with `false` only after the timeout and with data still queued, and that
did not wait again at any poll after the timeout. -/
def FullTime : Prop := ∃ n r i, itsSendDrain hz start ms connected queue ticks n = some (r, i) ∧
  (r = false → Elapsed hz ms ticks i ∧ itsSendIsEmpty (queue i) = false) ∧ ∀ j < i, ¬ Elapsed hz ms ticks j

/-- The timeout is a whole number of ticks that the product can hold, and the counter does not wrap before the last tick that
the poll at the deadline may come at. -/
def Exact (slack : Nat) : Prop := ms * hz < 2 ^ 32 ∧ 1000 ∣ ms * hz ∧ start + pdMsToTicks hz ms + slack < 2 ^ 32

end Drain

variable {hz start ms slack : Nat} {ticks : Nat → Nat}

theorem ticks_of_elapsed {i : Nat} (h : Elapsed hz ms ticks i) : pdMsToTicks hz ms ≤ ticks i := by
  unfold Elapsed at h
  have := Nat.mod_le (ms * hz) (2 ^ 32)
  unfold pdMsToTicks
  omega

theorem drainFrom_of_late {k : Nat} (queue : Nat → Queue) (hk : deadline hz start ms ≤ xTaskGetTickCount start ticks k)
    (n i : Nat) (hi : i ≤ k) (hn : k < i + n) :
    ∃ r m, drainFrom hz start ms (fun _ => true) queue ticks n i = some (r, m) ∧ m ≤ k ∧
      (r = false → itsSendIsEmpty (queue m) = false ∧ deadline hz start ms ≤ xTaskGetTickCount start ticks m) := by
  induction n generalizing i with
  | zero => omega
  | succ n ih =>
    rw [drainFrom]
    by_cases he : itsSendIsEmpty (queue i) = true
    · exact ⟨true, i, by simp [he], hi, by simp⟩
    · by_cases hlate : deadline hz start ms ≤ xTaskGetTickCount start ticks i
      · exact ⟨false, i, by simp [he, hlate], hi, fun _ => ⟨by simpa using he, hlate⟩⟩
      · have hne : i ≠ k := by
          rintro rfl
          exact hlate hk
        obtain ⟨r, m, hr, hrest⟩ := ih (i + 1) (by omega) (by omega)
        exact ⟨r, m, by simpa [he, hlate] using hr, hrest⟩

theorem drainFrom_full {n i m : Nat} {r : Bool}
    (h : drainFrom hz start ms (fun _ => true) (fun _ => .stream 1) ticks n i = some (r, m)) :
    r = false ∧ deadline hz start ms ≤ xTaskGetTickCount start ticks m ∧
      ∀ j, i ≤ j → j < m → xTaskGetTickCount start ticks j < deadline hz start ms := by
  induction n generalizing i with
  | zero => cases h
  | succ n ih =>
    simp only [drainFrom, itsSendIsEmpty] at h
    by_cases hlate : deadline hz start ms ≤ xTaskGetTickCount start ticks i
    · obtain ⟨rfl, rfl⟩ : false = r ∧ i = m := by simpa [hlate] using h
      exact ⟨rfl, hlate, by omega⟩
    · obtain ⟨hr, hm, hbefore⟩ := ih (by simpa [hlate] using h)
      refine ⟨hr, hm, fun j hij hjm => ?_⟩
      rcases Nat.eq_or_lt_of_le hij with rfl | hij
      · omega
      · exact hbefore j hij hjm

/-- Every poll from the deadline on is read as such, and no poll before it. -/
theorem fullTime_of_exact (h : Exact hz start ms slack) (P : Polls hz) (hprompt : Prompt (pdMsToTicks hz ms) slack P.ticks)
    (queue : Nat → Queue) : FullTime hz start ms (fun _ => true) queue P.ticks := by
  classical
  obtain ⟨hfits, hwhole, hwrap⟩ := h
  have hreach := P.unbounded (pdMsToTicks hz ms)
  have hk := Nat.find_spec hreach
  have hfirst : ∀ j < Nat.find hreach, P.ticks j < pdMsToTicks hz ms := fun j hj => Nat.lt_of_not_le (Nat.find_min hreach hj)
  generalize Nat.find hreach = k at hk hfirst
  have hlast := hprompt k hk hfirst
  have hd : deadline hz start ms = start + pdMsToTicks hz ms := Nat.mod_eq_of_lt (by omega)
  have hread : xTaskGetTickCount start P.ticks k = start + P.ticks k := Nat.mod_eq_of_lt (by omega)
  have hlate : deadline hz start ms ≤ xTaskGetTickCount start P.ticks k := by omega
  obtain ⟨r, m, hr, hmk, hfalse⟩ := drainFrom_of_late queue hlate (k + 1) 0 (Nat.zero_le k) (by omega)
  have hbefore : ∀ j < m, ¬ Elapsed hz ms P.ticks j := fun j hj h => by
    have := hfirst j (by omega)
    have := ticks_of_elapsed h
    omega
  refine ⟨k + 1, r, m, hr, fun hr => ?_, hbefore⟩
  obtain ⟨hqueued, hlate⟩ := hfalse hr
  refine ⟨?_, hqueued⟩
  rcases Nat.eq_or_lt_of_le hmk with rfl | hmk
  · rw [pdMsToTicks, Nat.mod_eq_of_lt hfits] at hk
    unfold Elapsed
    omega
  · have := hfirst m hmk
    rw [hd, xTaskGetTickCount, Nat.mod_eq_of_lt (by omega)] at hlate
    omega

/-- A poll at tick `a`, and the others from tick `b` on. -/
def twoTimes (hz a b : Nat) (h : a + pdMsToTicks hz 5 ≤ b) : Polls hz where
  ticks
    | 0 => a
    | i + 1 => b + i * (pdMsToTicks hz 5 + 1)
  apart
    | 0 => by simpa using h
    | i + 1 => by
      dsimp only
      rw [Nat.succ_mul]
      omega
  unbounded n := ⟨n + 1, by
    have : n ≤ n * (pdMsToTicks hz 5 + 1) := Nat.le_mul_of_pos_right n (Nat.succ_pos _)
    dsimp only
    omega⟩

/-- What is queued stays queued: the call returns at a poll past the timeout, and at the first one. -/
theorem fullTime_stuck (h : FullTime hz start ms (fun _ => true) (fun _ => .stream 1) ticks) :
    (deadline hz start ms ≤ xTaskGetTickCount start ticks 0 → Elapsed hz ms ticks 0) ∧
      (Elapsed hz ms ticks 0 → deadline hz start ms ≤ xTaskGetTickCount start ticks 0) := by
  obtain ⟨n, r, i, hi, hfalse, hwait⟩ := h
  obtain ⟨rfl, hlate, hbefore⟩ := drainFrom_full hi
  rcases Nat.eq_zero_or_pos i with rfl | hpos
  · exact ⟨fun _ => (hfalse rfl).1, fun _ => hlate⟩
  · have := hbefore 0 (Nat.zero_le 0) hpos
    exact ⟨fun h => by omega, fun h => absurd h (hwait 0 hpos)⟩

/-- The call waits its full time under every schedule of the polls and of the peer's reads, exactly if
the arithmetic of the ticks is exact. -/
theorem drain_full_time (hstart : start < 2 ^ 32) (hstep : pdMsToTicks hz 5 ≤ slack) (hslack : slack < 2 ^ 32) :
    (∀ P : Polls hz, Prompt (pdMsToTicks hz ms) slack P.ticks → ∀ queue, FullTime hz start ms (fun _ => true) queue P.ticks) ↔
      Exact hz start ms slack := by
  refine ⟨fun h => ?_, fun h P hprompt => fullTime_of_exact h P hprompt⟩
  -- The calls whose first poll comes at tick `a` and the next one, if need be, a step after the deadline.
  have hpoll : ∀ a ≤ pdMsToTicks hz ms + slack,
      (deadline hz start ms ≤ (start + a) % 2 ^ 32 ↔ ms * hz ≤ a * 1000) := fun a ha => by
    have hprompt : Prompt (pdMsToTicks hz ms) slack
        (twoTimes hz a (max a (pdMsToTicks hz ms) + pdMsToTicks hz 5) (by omega)).ticks := by
      intro k hk hfirst
      match k with
      | 0 => exact ha
      | 1 =>
        have : a < pdMsToTicks hz ms := hfirst 0 Nat.one_pos
        simp only [twoTimes]
        omega
      | k + 2 =>
        have := hfirst 1 (by omega)
        simp only [twoTimes] at this
        omega
    obtain ⟨hearly, hlate⟩ := fullTime_stuck (h _ hprompt _)
    exact ⟨hearly, hlate⟩
  have hat := hpoll (pdMsToTicks hz ms) (Nat.le_add_right _ _)
  rw [deadline] at hat
  have hexact := hat.mp (le_refl _)
  have hfits : ms * hz < 2 ^ 32 := by
    unfold pdMsToTicks at hexact
    omega
  have hwhole : pdMsToTicks hz ms = ms * hz / 1000 := by rw [pdMsToTicks, Nat.mod_eq_of_lt hfits]
  refine ⟨hfits, by omega, ?_⟩
  by_contra hwrap
  by_cases hdeadline : start + pdMsToTicks hz ms < 2 ^ 32
  · -- A poll after the deadline reads a counter that has wrapped.
    have := hpoll (2 ^ 32 - start) (by omega)
    rw [deadline, Nat.mod_eq_of_lt hdeadline] at this
    omega
  · -- The deadline has wrapped, and the poll at the call is past it.
    have := hpoll 0 (Nat.zero_le _)
    rw [deadline] at this
    omega

/-- A poll at every tick. -/
def everyTick : Polls 100 := ⟨id, fun i => by simp [pdMsToTicks], fun n => ⟨n, le_refl n⟩⟩

theorem drain_full_time_second :
    (∀ P : Polls 100, Prompt 100 5 P.ticks → ∀ queue, FullTime 100 0 1000 (fun _ => true) queue P.ticks) ∧
      ¬ ∀ P : Polls 100, Prompt 100 5 P.ticks → ∀ queue, FullTime 100 (2 ^ 32 - 1) 1000 (fun _ => true) queue P.ticks :=
  ⟨(@drain_full_time 100 0 1000 5 (by decide) (by decide) (by decide)).mpr ⟨by decide, by decide, by decide⟩,
    fun h => absurd ((@drain_full_time 100 (2 ^ 32 - 1) 1000 5 (by decide) (by decide) (by decide)).mp h).2.2 (by decide)⟩

/-- The deadline wraps, and the first poll is past it. -/
theorem drain_at_once :
    itsSendDrain 100 (2 ^ 32 - 1) 1000 (fun _ => true) (fun _ => .stream 1) everyTick.ticks 1 = some (false, 0) ∧
      ¬ Elapsed 100 1000 everyTick.ticks 0 := by
  decide

end Spangap.SendDrain
