import Mathlib.Data.List.Basic
import Spangap.CronNext
import Spangap.Runs

namespace Spangap.CronRuns

open List Option CJson Cron CronNext Runs

variable {e : Entry} {wake net : Bool} {log : List Emission} {s : State} {date : Int → Date} {m i now : Nat}
  {tab : List Name} {off : Int} {line : Name}

inductive Call
  | poll (nowMin : Nat) (isDeepSleepWake netUp : Bool)
  | reschedule (nowMin : Nat)
  deriving DecidableEq, Repr

def Call.minute : Call → Nat
  | poll m _ _ => m
  | reschedule m => m

section Machine

variable (date : Int → Date) (off : Int) (tab : List Name)

def step (s : State) : Call → State
  | .poll m wake net => cronPoll date off tab s m wake net
  | .reschedule m => cronReschedule date off tab s m

/-- The calls come with a clock that only moves forward, at `now`, and no minute from
`unpolled` on is left without a poll. -/
def Steady : Nat → Nat → List Call → Prop
  | _, _, [] => True
  | now, unpolled, .poll m _ _ :: cs => (now ≤ m ∧ m ≤ unpolled) ∧ Steady m (m + 1) cs
  | now, unpolled, .reschedule m :: cs => (now ≤ m ∧ m ≤ unpolled) ∧ Steady m unpolled cs

def decidableSteady : ∀ (now unpolled : Nat) (cs : List Call), Decidable (Steady now unpolled cs)
  | _, _, [] => .isTrue trivial
  | now, unpolled, .poll m _ _ :: cs =>
    have := decidableSteady m (m + 1) cs
    inferInstanceAs (Decidable ((now ≤ m ∧ m ≤ unpolled) ∧ Steady m (m + 1) cs))
  | now, unpolled, .reschedule m :: cs =>
    have := decidableSteady m unpolled cs
    inferInstanceAs (Decidable ((now ≤ m ∧ m ≤ unpolled) ∧ Steady m unpolled cs))

instance (now unpolled : Nat) (cs : List Call) : Decidable (Steady now unpolled cs) := decidableSteady now unpolled cs

def Call.unpolled (u : Nat) : Call → Nat
  | poll m _ _ => m + 1
  | reschedule _ => u

def plain (e : Entry) : Bool := e.flags = ⟨false, false⟩

/-- After the minute of the first call, one that finds the last minute served more than a day
back, or in minute 0, does not fall on a minute that an entry without flags is due in. -/
def Harmless (start : Nat) (s : State) (c : Call) : Prop :=
  c.minute < lastMinute ∧
    (start < c.minute → cronAnchorSane s c.minute = false →
      ∀ e ∈ tab.filterMap cronParse, plain e = true → ¬ Due date off e c.minute)

instance (start : Nat) (s : State) (c : Call) : Decidable (Harmless date off tab start s c) := inferInstanceAs (Decidable (_ ∧ _))

/-- The emissions of every entry without flags are its due minutes after the first up to
`unpolled`, each once and in order. -/
def Exact (start unpolled : Nat) (log : List Emission) : Prop :=
  ∀ i line e, tab[i]? = some line → cronParse line = some e → plain e = true →
    (log.filter fun x => x.entry = i) =
      ((range' (start + 1) (unpolled - (start + 1))).filter fun m => Due date off e m).map fun m => ⟨i, e.cmd, m⟩

end Machine

def nextOf (date : Int → Date) (off : Int) (tab : List Name) (fromMinute : Nat) : Nat :=
  ((tab.filterMap cronParse).map fun e => cronNextRun date off e fromMinute).foldl min uint32Max

theorem foldl_min_le {l : List Nat} {a x : Nat} (h : x ∈ l ∨ x = a) : l.foldl min a ≤ x := by
  induction l generalizing a x with
  | nil => exact le_of_eq (h.resolve_left (by simp)).symm
  | cons y l ih =>
    rcases h with h | rfl
    · rcases mem_cons.mp h with rfl | h
      · exact (ih (.inr rfl)).trans (min_le_right _ _)
      · exact ih (.inl h)
    · exact (ih (.inr rfl)).trans (min_le_left _ _)

theorem nextOf_le (he : e ∈ tab.filterMap cronParse) (m : Nat) : nextOf date off tab m ≤ cronNextRun date off e m :=
  foldl_min_le (.inl (mem_map_of_mem he))

@[simp] theorem computeNext_last (s : State) (m : Nat) : (cronComputeNext date off tab s m).last = s.last := rfl

theorem computeNext_next (s : State) (m : Nat) : (cronComputeNext date off tab s m).next = nextOf date off tab m := by
  simp only [cronComputeNext, List.map_map]
  rfl

theorem cronPoll_stale (h : cronAnchorSane s m = false) :
    cronPoll date off tab s m wake net = cronComputeNext date off tab ⟨m, s.next, s.wake, s.log⟩ ((m + 1) % 2 ^ 32) := by
  simp [cronPoll, h]

theorem cronReschedule_stale (h : cronAnchorSane s m = false) :
    cronReschedule date off tab s m = cronComputeNext date off tab ⟨m, s.next, s.wake, s.log⟩ ((m + 1) % 2 ^ 32) := by
  simp [cronReschedule, h]

theorem cronReschedule_sane (h : cronAnchorSane s m = true) :
    cronReschedule date off tab s m = cronComputeNext date off tab s ((s.last + 1) % 2 ^ 32) := by
  simp [cronReschedule, h]

theorem filter_zipIdx (f : Name → Nat → Option Emission) (hf : ∀ line i x, f line i = some x → x.entry = i) (l : List Name) (k i : Nat) :
    ((l.zipIdx k).filterMap fun p => f p.1 p.2).filter (fun x => x.entry = k + i) = (l[i]?).toList.filterMap fun line => f line (k + i) := by
  induction l generalizing k i with
  | nil => rfl
  | cons line l ih =>
    have hrest : ∀ j, (((l.zipIdx (k + 1)).filterMap fun p => f p.1 p.2).filter fun x => x.entry = k + (j + 1)) =
        (l[j]?).toList.filterMap fun line => f line (k + (j + 1)) := by
      intro j
      have := ih (k + 1) j
      rwa [show k + 1 + j = k + (j + 1) by omega] at this
    have hnone : (((l.zipIdx (k + 1)).filterMap fun p => f p.1 p.2).filter fun x => x.entry = k) = [] := by
      rw [filter_eq_nil_iff]
      intro x hx
      obtain ⟨p, hp, hfp⟩ := mem_filterMap.mp hx
      have hge := (mem_zipIdx hp).1
      have := hf _ _ x hfp
      simp only [decide_eq_true_eq]
      omega
    rw [zipIdx_cons, filterMap_cons]
    cases i with
    | zero =>
      cases hx : f line k with
      | none => simpa [hx] using hnone
      | some x =>
        have hentry := hf _ _ x hx
        simpa [hx, hentry] using hnone
    | succ i =>
      cases hx : f line k with
      | none => simpa using hrest i
      | some x =>
        have hentry : x.entry ≠ k + (i + 1) := by
          have := hf _ _ x hx
          omega
        simpa [hentry] using hrest i

theorem dueEntry_entry (line : Name) (i : Nat) (x : Emission)
    (h : dueEntry date off s m wake net line i = some x) : x.entry = i := by
  obtain ⟨e, -, hx⟩ := bind_eq_some_iff.mp h
  split at hx
  · simp at hx
  · split at hx
    · simp at hx
    · split at hx
      · simp at hx
      · exact (congrArg Emission.entry (some.inj hx)).symm

theorem dueNow_filter (hline : tab[i]? = some line) (hparse : cronParse line = some e) (hplain : plain e = true) :
    ((dueNow date off tab s m wake net).filter fun x => x.entry = i) =
      if cronNextRun date off e ((s.last + 1) % 2 ^ 32) ≤ m then [⟨i, e.cmd, m⟩] else [] := by
  have hflags : e.flags = ⟨false, false⟩ := by simpa [plain] using hplain
  have hone := filter_zipIdx (dueEntry date off s m wake net) dueEntry_entry tab 0 i
  rw [Nat.zero_add] at hone
  rw [dueNow, hone, hline, toList_some, filterMap_cons, filterMap_nil, dueEntry, hparse, bind_some, hflags]
  by_cases hle : cronNextRun date off e ((s.last + 1) % 2 ^ 32) ≤ m
  · rw [if_neg (by omega), if_pos hle]
    rfl
  · rw [if_pos (by omega), if_neg hle]

section Invariant

variable {start unpolled : Nat}

theorem range'_unpolled (hlo : m ≤ unpolled) (hhi : unpolled ≤ m + 1) :
    range' (start + 1) (m + 1 - (start + 1)) =
      range' (start + 1) (unpolled - (start + 1)) ++ if m = unpolled ∧ start < m then [m] else [] := by
  split
  next h =>
    obtain ⟨rfl, hlt⟩ := h
    rw [show m + 1 - (start + 1) = m - (start + 1) + 1 by omega, range'_concat]
    congr 2
    omega
  next h =>
    rw [append_nil]
    congr 1
    omega

theorem exact_extend {new : List Emission} (h : Exact date off tab start unpolled log) (hlo : m ≤ unpolled) (hhi : unpolled ≤ m + 1)
    (hnew : ∀ i line e, tab[i]? = some line → cronParse line = some e → plain e = true →
      (new.filter fun x => x.entry = i) = if (m = unpolled ∧ start < m) ∧ Due date off e m then [⟨i, e.cmd, m⟩] else []) :
    Exact date off tab start (m + 1) (log ++ new) := by
  intro i line e hline hparse hplain
  rw [filter_append, h i line e hline hparse hplain, hnew i line e hline hparse hplain, range'_unpolled hlo hhi,
    filter_append, map_append]
  by_cases hm : m = unpolled ∧ start < m
  · by_cases hdue : Due date off e m
    · rw [if_pos ⟨hm, hdue⟩, if_pos hm]
      simp [hdue]
    · rw [if_neg (fun h => hdue h.2), if_pos hm]
      simp [hdue]
  · rw [if_neg (fun h => hm h.1), if_neg hm]
    rfl

structure Inv (date : Int → Date) (off : Int) (tab : List Name) (start now unpolled : Nat) (s : State) : Prop where
  anchored : start ≤ s.last ∧ s.last ≤ now
  clock : now ≤ unpolled ∧ unpolled ≤ now + 1
  early : now < lastMinute
  next : s.next = nextOf date off tab (s.last + 1)
  quiet : ∀ e ∈ tab.filterMap cronParse, ∀ k, s.last < k → k < unpolled → ¬ Due date off e k
  fresh : start < s.last → s.last = unpolled → ∀ e ∈ tab.filterMap cronParse, plain e = true → ¬ Due date off e s.last
  exact : Exact date off tab start unpolled s.log

theorem nextRun_le_iff (h : Inv date off tab start now unpolled s) (hnow : now ≤ m) (hm : m ≤ unpolled) (hearly : m < lastMinute)
    (hsane : cronAnchorSane s m = true) (he : e ∈ tab.filterMap cronParse) :
    cronNextRun date off e (s.last + 1) ≤ m ↔ (m = unpolled ∧ s.last < m) ∧ Due date off e m := by
  obtain ⟨-, hlast⟩ := h.anchored
  have hnear : m - s.last ≤ 1440 := by
    simp only [cronAnchorSane, Bool.and_eq_true, decide_eq_true_eq] at hsane
    exact hsane.2
  constructor
  · intro hle
    have hne : cronNextRun date off e (s.last + 1) ≠ uint32Max := by
      unfold uint32Max
      unfold lastMinute at hearly
      omega
    obtain ⟨hge, hdue, -⟩ := cronNextRun_due (by omega) hne
    have hlate : ¬ cronNextRun date off e (s.last + 1) < unpolled := fun hlt => h.quiet e he _ (by omega) hlt hdue
    have heq : cronNextRun date off e (s.last + 1) = m := by omega
    rw [heq] at hdue
    exact ⟨⟨by omega, by omega⟩, hdue⟩
  · rintro ⟨⟨-, hlt⟩, hdue⟩
    exact cronNextRun_le (by omega) (by omega) (by omega) hdue

theorem served_iff (h : Inv date off tab start now unpolled s) (hnow : now ≤ m) (he : e ∈ tab.filterMap cronParse)
    (hplain : plain e = true) : (m = unpolled ∧ s.last < m) ∧ Due date off e m ↔ (m = unpolled ∧ start < m) ∧ Due date off e m := by
  obtain ⟨hstart, hlast⟩ := h.anchored
  constructor
  · rintro ⟨⟨hm, hlt⟩, hdue⟩
    exact ⟨⟨hm, by omega⟩, hdue⟩
  · rintro ⟨⟨hm, hlt⟩, hdue⟩
    refine ⟨⟨hm, ?_⟩, hdue⟩
    rcases Nat.lt_or_ge s.last m with hless | hge
    · exact hless
    · have heq : s.last = m := by omega
      exact absurd (heq ▸ hdue) (h.fresh (by omega) (by omega) e he hplain)

theorem mem_parsed (hline : tab[i]? = some line) (hparse : cronParse line = some e) : e ∈ tab.filterMap cronParse :=
  mem_filterMap.mpr ⟨line, mem_of_getElem? hline, hparse⟩

theorem succ_mod (h : m < lastMinute) : (m + 1) % 2 ^ 32 = m + 1 := by
  unfold lastMinute at h
  omega

theorem inv_anchor {next wake u : Nat} (hstart : start ≤ m) (hu : m ≤ u ∧ u ≤ m + 1) (hearly : m < lastMinute)
    (hfree : start < m → m = u → ∀ e ∈ tab.filterMap cronParse, plain e = true → ¬ Due date off e m)
    (hexact : Exact date off tab start u log) :
    Inv date off tab start m u (cronComputeNext date off tab ⟨m, next, wake, log⟩ ((m + 1) % 2 ^ 32)) where
  anchored := ⟨hstart, le_refl m⟩
  clock := hu
  early := hearly
  next := by
    rw [computeNext_next, succ_mod hearly]
    rfl
  quiet := fun e _ k hk hku => by
    rw [computeNext_last] at hk
    dsimp only at hk
    omega
  fresh := hfree
  exact := hexact

theorem exact_free (h : Exact date off tab start unpolled log) (hlo : m ≤ unpolled) (hhi : unpolled ≤ m + 1)
    (hfree : m = unpolled → start < m → ∀ e ∈ tab.filterMap cronParse, plain e = true → ¬ Due date off e m) :
    Exact date off tab start (m + 1) log := by
  have : Exact date off tab start (m + 1) (log ++ []) := exact_extend h hlo hhi fun i line e hline hparse hplain => by
    rw [if_neg (fun hd => hfree hd.1.1 hd.1.2 e (mem_parsed hline hparse) hplain hd.2)]
    rfl
  rwa [append_nil] at this

theorem inv_poll (h : Inv date off tab start now unpolled s) (hnow : now ≤ m) (hm : m ≤ unpolled)
    (hok : Harmless date off tab start s (.poll m wake net)) :
    Inv date off tab start m (m + 1) (cronPoll date off tab s m wake net) := by
  have hearly : m < lastMinute := hok.1
  have hfree := hok.2
  obtain ⟨hstart, hlast⟩ := h.anchored
  have hhi : unpolled ≤ m + 1 := by have := h.clock.2; omega
  cases hsane : cronAnchorSane s m with
  | false =>
    rw [cronPoll_stale hsane]
    exact inv_anchor (by omega) ⟨by omega, by omega⟩ hearly (fun hlt _ => hfree hlt hsane)
      (exact_free h.exact hm hhi fun _ hlt => hfree hlt hsane)
  | true =>
    rw [cronPoll, hsane, Bool.not_true, if_neg (by simp)]
    have hserved : ∀ e ∈ tab.filterMap cronParse, cronNextRun date off e (s.last + 1) ≤ m ↔
        (m = unpolled ∧ s.last < m) ∧ Due date off e m :=
      fun e he => nextRun_le_iff h hnow hm hearly hsane he
    split
    next hless =>
      have hidle : ∀ e ∈ tab.filterMap cronParse, ¬ ((m = unpolled ∧ s.last < m) ∧ Due date off e m) := fun e he hdue => by
        have hle : nextOf date off tab (s.last + 1) ≤ cronNextRun date off e (s.last + 1) := nextOf_le he _
        rw [← h.next] at hle
        have := (hserved e he).mpr hdue
        omega
      refine ⟨⟨hstart, by omega⟩, ⟨by omega, by omega⟩, hearly, h.next, fun e he k hk hku hdue => ?_, fun _ heq => by omega,
        exact_free h.exact hm hhi fun hmu hlt e he hplain hdue =>
          hidle e he ((served_iff h hnow he hplain).mpr ⟨⟨hmu, hlt⟩, hdue⟩)⟩
      rcases Nat.lt_or_ge k unpolled with hold | hnew
      · exact h.quiet e he k hk hold hdue
      · obtain rfl : k = m := by omega
        exact hidle e he ⟨⟨by omega, hk⟩, hdue⟩
    next hless =>
      have hexact : Exact date off tab start (m + 1) (s.log ++ dueNow date off tab s m wake net) := by
        refine exact_extend h.exact hm hhi fun i line e hline hparse hplain => ?_
        have he := mem_parsed hline hparse
        rw [dueNow_filter hline hparse hplain, succ_mod (by omega : s.last < lastMinute)]
        exact if_congr ((hserved e he).trans (served_iff h hnow he hplain)) rfl rfl
      exact inv_anchor (by omega) ⟨by omega, by omega⟩ hearly (fun _ heq => by omega) hexact

theorem inv_reschedule (h : Inv date off tab start now unpolled s) (hnow : now ≤ m) (hm : m ≤ unpolled)
    (hok : Harmless date off tab start s (.reschedule m)) : Inv date off tab start m unpolled (cronReschedule date off tab s m) := by
  have hearly : m < lastMinute := hok.1
  obtain ⟨hstart, hlast⟩ := h.anchored
  have hclock := h.clock
  cases hsane : cronAnchorSane s m with
  | false =>
    rw [cronReschedule_stale hsane]
    exact inv_anchor (by omega) ⟨hm, by omega⟩ hearly (fun hlt _ => hok.2 hlt hsane) h.exact
  | true =>
    rw [cronReschedule_sane hsane, succ_mod (by omega : s.last < lastMinute)]
    exact ⟨⟨hstart, by rw [computeNext_last]; omega⟩, ⟨hm, by omega⟩, hearly, computeNext_next s _, h.quiet, h.fresh, h.exact⟩

theorem inv_run (cs : List Call) (h : Inv date off tab start now unpolled s) (hsteady : Steady now unpolled cs)
    (hok : Meets (fun s c => some (step date off tab s c)) (Harmless date off tab start) s cs) :
    Exact date off tab start (cs.foldl Call.unpolled unpolled) (cs.foldl (step date off tab) s).log := by
  induction cs generalizing s now unpolled with
  | nil => exact h.exact
  | cons c cs ih =>
    obtain ⟨hc, hrest⟩ := hok
    cases c with
    | poll m wake net =>
      obtain ⟨⟨hnow, hm⟩, hsteady⟩ := hsteady
      exact ih (inv_poll h hnow hm hc) hsteady (hrest _ rfl)
    | reschedule m =>
      obtain ⟨⟨hnow, hm⟩, hsteady⟩ := hsteady
      exact ih (inv_reschedule h hnow hm hc) hsteady (hrest _ rfl)

theorem inv_first {c : Call} (hfirst : cronAnchorSane s c.minute = false) (hearly : c.minute < lastMinute) (hlog : s.log = []) :
    Inv date off tab c.minute c.minute (c.unpolled c.minute) (step date off tab s c) := by
  have hnone : ∀ u, u ≤ c.minute + 1 → Exact date off tab c.minute u s.log := by
    intro u hu i line e _ _ _
    rw [hlog, show u - (c.minute + 1) = 0 by omega]
    rfl
  have hself : c.minute < c.minute → c.minute = c.unpolled c.minute →
      ∀ e ∈ tab.filterMap cronParse, plain e = true → ¬ Due date off e c.minute := fun hlt => absurd hlt (lt_irrefl _)
  cases c with
  | poll m wake net =>
    rw [step, cronPoll_stale (m := m) hfirst]
    exact inv_anchor (le_refl m) ⟨Nat.le_succ m, le_rfl⟩ hearly hself (hnone _ (le_rfl))
  | reschedule m =>
    rw [step, cronReschedule_stale (m := m) hfirst]
    exact inv_anchor (le_refl m) ⟨le_refl m, Nat.le_succ m⟩ hearly hself (hnone _ (Nat.le_succ m))

end Invariant

/-- A first call that anchors the schedule, and after it at least one poll in every minute:
every entry without flags is sent once for each minute it is due in, and for no other. -/
theorem cron_exact (date : Int → Date) (off : Int) (tab : List Name) (s : State) (c : Call) (cs : List Call)
    (hfirst : cronAnchorSane s c.minute = false) (hlog : s.log = []) (hsteady : Steady c.minute c.minute (c :: cs))
    (hok : Meets (fun s c => some (step date off tab s c)) (Harmless date off tab c.minute) s (c :: cs)) :
    Exact date off tab c.minute ((c :: cs).foldl Call.unpolled c.minute) ((c :: cs).foldl (step date off tab) s).log := by
  have hinv : Inv date off tab c.minute c.minute (c.unpolled c.minute) (step date off tab s c) := inv_first hfirst hok.1.1 hlog
  refine inv_run cs hinv ?_ (hok.2 _ rfl)
  cases c with
  | poll m wake net => exact hsteady.2
  | reschedule m => exact hsteady.2

/-- The proleptic Gregorian date of a day counted from 1 January 1970. Years start in March,
so that the leap day is the last of the year. -/
def gregorian (day : Int) : Date :=
  let z := day + 719468
  let doe := z % 146097
  let yoe := (doe - doe / 1460 + doe / 36524 - doe / 146096) / 365
  let doy := doe - (365 * yoe + yoe / 4 - yoe / 100)
  let mp := (5 * doy + 2) / 153
  ⟨((mp + 2) % 12 + 1).toNat, (doy - (153 * mp + 2) / 5 + 1).toNat, ((day + 4) % 7).toNat⟩

example : gregorian 0 = ⟨1, 1, 4⟩ ∧ gregorian 19782 = ⟨2, 29, 4⟩ ∧ gregorian 20003 = ⟨10, 7, 1⟩ := by decide

def boot : State := ⟨0, uint32Max, uint32Max, []⟩

def polls (m n : Nat) : List Call := (range' m n).map fun m => .poll m false true

theorem steady_polls (n : Nat) (h : now ≤ m) : Steady now m (polls m n) := by
  induction n generalizing now m with
  | zero => trivial
  | succ n ih => exact ⟨⟨h, le_refl m⟩, ih (Nat.le_succ m)⟩

theorem polls_idle {n : Nat} (hlast : s.last ≠ 0) (hle : s.last ≤ m)
    (hday : m + n ≤ s.last + 1441) (hnext : m + n ≤ s.next) : (polls m n).foldl (step date off tab) s = s := by
  induction n generalizing m with
  | zero => rfl
  | succ n ih =>
    have hstay : step date off tab s (.poll m false true) = s := by
      have hsane : cronAnchorSane s m = true := by
        simp only [cronAnchorSane, Bool.and_eq_true, decide_eq_true_eq]
        omega
      rw [step, cronPoll, hsane, Bool.not_true, if_neg (by simp), if_pos (by omega)]
    rw [polls, range'_succ, map_cons, foldl_cons, hstay]
    exact ih (by omega) (by omega) (by omega)

theorem polls_append (m n k : Nat) : polls m (n + k) = polls m n ++ polls (m + n) k := by
  rw [polls, polls, polls, ← map_append, range'_append_1]

/-- An entry for every second minute, next to one with a flag. -/
theorem cron_exact_even_minutes : Exact gregorian 60 [lit "*/2 * * * * - a", lit "1 * * * * A b"] 28804319 28804322
      ([.poll 28804319 false true, .reschedule 28804320, .poll 28804320 false true, .poll 28804321 true true].foldl
        (step gregorian 60 [lit "*/2 * * * * - a", lit "1 * * * * A b"]) boot).log :=
  cron_exact gregorian 60 _ boot (.poll 28804319 false true)
    [.reschedule 28804320, .poll 28804320 false true, .poll 28804321 true true] rfl rfl (by decide) (by decide +kernel)

def mondayTuesday : List Name := [lit "0 0 * * 1 - a", lit "1 0 * * 2 - b"]

def monday : State := ⟨28804320, 28805761, 28805761, [⟨0, lit "a", 28804320⟩]⟩

/-- Polls in every minute from a Sunday evening on. The Monday entry runs; the next one, due
a day and a minute later, is lost, since the poll of that minute anchors the schedule again. -/
theorem cron_loses_slot : Steady 28804319 28804319 (polls 28804319 1443) ∧
      ¬ Exact gregorian 0 mondayTuesday 28804319 28805762 ((polls 28804319 1443).foldl (step gregorian 0 mondayTuesday) boot).log := by
  refine ⟨steady_polls 1443 (le_rfl), fun h => ?_⟩
  have hone := h 1 (lit "1 0 * * 2 - b") ⟨lit "1", lit "0", lit "*", lit "*", lit "2", ⟨false, false⟩, lit "b"⟩ rfl (by decide +kernel) rfl
  have hidle : (polls 28804321 1440).foldl (step gregorian 0 mondayTuesday) monday = monday :=
    polls_idle (by decide) (by decide) (by decide) (by decide)
  have hrun : (polls 28804319 1443).foldl (step gregorian 0 mondayTuesday) boot =
      (polls 28805761 1).foldl (step gregorian 0 mondayTuesday) monday := by
    rw [polls_append 28804319 2 1441, polls_append _ 1440 1, foldl_append, foldl_append,
      show (polls 28804319 2).foldl (step gregorian 0 mondayTuesday) boot = monday by decide +kernel, hidle]
  have hsent : (((polls 28805761 1).foldl (step gregorian 0 mondayTuesday) monday).log.filter fun x => x.entry = 1) = [] := by
    decide +kernel
  rw [hrun, hsent] at hone
  refine ne_nil_of_mem (mem_map_of_mem (a := 28805761) (mem_filter.mpr ⟨?_, ?_⟩)) hone.symm
  · exact mem_range'_1.mpr (by omega)
  · decide +kernel

end Spangap.CronRuns
