import Spangap.Cookies

namespace Spangap.Backoff

open CJson Cookies

inductive AuthErr
  | ok
  | wrongPassword
  | rateLimited
  deriving DecidableEq, Repr

/-- The code that `authLogin` returns. -/
def authErr (verify : Name → Name → Bool) (s : Auth) (password tryRealm : Name) (millis : Nat) : AuthErr :=
  if isRateLimited s millis then .rateLimited
  else if (openedRealm verify s.root password tryRealm).isSome then .ok
  else .wrongPassword

/-- A login with the tree it finds, `gap` milliseconds after the one before. -/
structure Attempt where
  root : List Child
  password : Name
  tryRealm : Name
  rnd : List UInt8
  now : Nat
  gap : Nat

/-- The real time since boot, the failures since the last success and the real time
of the last of them are kept beside the state of the code. -/
structure Device where
  auth : Auth
  uptime : Nat
  fails : Nat
  lastFail : Nat

def boot (root : List Child) : Device := ⟨⟨root, 0, 0⟩, 0, 0, 0⟩

def backoff (fails : Nat) : Nat := min (2 ^ (fails - 1)) 300 * 1000

section Run

variable (verify : Name → Name → Bool) (pats : List (List Name)) (d : Device) (a : Attempt)

def Device.since : Nat := d.uptime + a.gap - d.lastFail

def answer : AuthErr :=
  authErr verify { d.auth with root := a.root } a.password a.tryRealm ((d.uptime + a.gap) % 2 ^ 32)

def login : Device :=
  let time := d.uptime + a.gap
  let s := (authLogin verify pats { d.auth with root := a.root } a.password a.tryRealm a.rnd a.now (time % 2 ^ 32)).1
  match answer verify d a with
  | .ok => ⟨s, time, 0, d.lastFail⟩
  | .wrongPassword => ⟨s, time, d.fails + 1, time⟩
  | .rateLimited => ⟨s, time, d.fails, d.lastFail⟩

def logins (root : List Child) (as : List Attempt) : Device := as.foldl (login verify pats) (boot root)

/-- The next attempt is refused exactly during the back-off, and then changes nothing. -/
def Exact : Prop :=
  0 < d.fails → (answer verify d a = .rateLimited ↔ d.since a < backoff d.fails) ∧
    (answer verify d a = .rateLimited → (login verify pats d a).auth.failCount = d.auth.failCount ∧
      (login verify pats d a).auth.lastFailMs = d.auth.lastFailMs)

structure Counts (d : Device) : Prop where
  fails : d.auth.failCount = d.fails
  lastFail : d.auth.lastFailMs = d.lastFail % 2 ^ 32
  past : d.lastFail ≤ d.uptime

variable {verify pats d a}

theorem doubled_eq (n : Nat) {delay : Nat} (h : 0 < delay) : min (doubled n delay) maxBackoff = min (delay * 2 ^ n) 300 := by
  induction n generalizing delay with
  | zero => simp [doubled, maxBackoff]
  | succ n ih =>
    rw [doubled, Nat.pow_succ']
    split
    · rw [ih (by omega), Nat.mul_assoc]
    next hcap =>
      have hle : delay * 1 ≤ delay * (2 * 2 ^ n) := Nat.mul_le_mul_left _ (Nat.mul_pos (by omega) (Nat.two_pow_pos n))
      unfold maxBackoff at *
      omega

theorem limited_iff (h : Counts d) :
    answer verify d a = .rateLimited ↔ 0 < d.fails ∧ d.since a % 2 ^ 32 < backoff d.fails := by
  have hgap : ((d.uptime + a.gap) % 2 ^ 32 + 2 ^ 32 - d.lastFail % 2 ^ 32) % 2 ^ 32 = d.since a % 2 ^ 32 := by
    have := h.past
    unfold Device.since
    omega
  have hlimit : isRateLimited { d.auth with root := a.root } ((d.uptime + a.gap) % 2 ^ 32) = true ↔
      0 < d.fails ∧ d.since a % 2 ^ 32 < backoff d.fails := by
    rw [isRateLimited, h.fails, h.lastFail, hgap, doubled_eq _ Nat.one_pos, Nat.one_mul, Bool.and_eq_true_iff,
      decide_eq_true_iff, decide_eq_true_iff, Nat.pos_iff_ne_zero, backoff]
  rw [← hlimit, answer, authErr]
  split
  · simp_all
  · split <;> simp_all

theorem login_counts (h : Counts d) : Counts (login verify pats d a) := by
  obtain ⟨hfails, hlast, hpast⟩ := h
  unfold login answer authErr authLogin
  dsimp only
  cases isRateLimited { d.auth with root := a.root } ((d.uptime + a.gap) % 2 ^ 32) with
  | true => exact ⟨hfails, hlast, Nat.le_add_right_of_le hpast⟩
  | false =>
    cases openedRealm verify a.root a.password a.tryRealm with
    | some name => exact ⟨rfl, hlast, Nat.le_add_right_of_le hpast⟩
    | none => exact ⟨congrArg (· + 1) hfails, rfl, le_rfl⟩

theorem refused_unchanged (h : answer verify d a = .rateLimited) :
    (login verify pats d a).auth = { d.auth with root := a.root } := by
  have hlimit : isRateLimited { d.auth with root := a.root } ((d.uptime + a.gap) % 2 ^ 32) = true := by
    rw [answer, authErr] at h
    split at h
    · assumption
    · split at h <;> simp at h
  unfold login
  rw [h]
  exact congrArg Prod.fst (if_pos hlimit)

end Run

variable (verify : Name → Name → Bool) (pats : List (List Name))

theorem logins_counts (root : List Child) (as : List Attempt) : Counts (logins verify pats root as) :=
  List.foldlRecOn as _ ⟨rfl, rfl, le_refl 0⟩ fun _ h _ _ => login_counts h

theorem login_backoff_iff (root : List Child) (as : List Attempt) (a : Attempt) :
    Exact verify pats (logins verify pats root as) a ↔
      (0 < (logins verify pats root as).fails → (logins verify pats root as).since a < 2 ^ 32 ∨
        backoff (logins verify pats root as).fails ≤ (logins verify pats root as).since a % 2 ^ 32) := by
  have hcounts := logins_counts verify pats root as
  generalize logins verify pats root as = d at hcounts ⊢
  refine imp_congr_right fun hpos => ?_
  have hcap : backoff d.fails < 2 ^ 32 := by
    unfold backoff
    omega
  have hkept : answer verify d a = .rateLimited → (login verify pats d a).auth.failCount = d.auth.failCount ∧
      (login verify pats d a).auth.lastFailMs = d.auth.lastFailMs := fun h => by simp [refused_unchanged h]
  rw [and_iff_left hkept, limited_iff hcounts]
  omega

/-- Two attempts with a password that no realm has, 2^32 milliseconds apart. -/
theorem login_refused_after_wrap : ¬ ∀ as a, Exact (fun _ _ => false) [] (logins (fun _ _ => false) [] [] as) a := by
  intro h
  have hwrong := h [⟨[], [], [], [], 0, 0⟩] ⟨[], [], [], [], 0, 2 ^ 32⟩ (by decide +kernel)
  exact absurd (hwrong.1.mp (by decide +kernel)) (by decide +kernel)

end Spangap.Backoff
