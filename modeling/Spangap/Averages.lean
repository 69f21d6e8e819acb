import Mathlib.Algebra.BigOperators.Group.List.Basic
import Mathlib.Algebra.Order.BigOperators.Group.List
import Mathlib.Algebra.Order.Ring.Nat
import Mathlib.Algebra.Group.Action.Defs
import Mathlib.Data.List.Induction
import Mathlib.Data.List.TakeWhile
import Spangap.Circular

namespace Spangap.Averages

open List Function Circular

structure PmStatSample where
  core0 : UInt8
  core1 : UInt8
  sleep : UInt8
  apbMax : UInt8
  cpuMax : UInt8
  deriving DecidableEq, Repr

structure PmStatAvg where
  cpuMax : Nat
  apbMax : Nat
  apbMin : Nat
  sleep : Nat
  mA10 : Nat
  deriving DecidableEq, Repr

/-- The ring of the sampler; without one the capacity is 0. -/
structure Ring where
  mem : Nat → PmStatSample
  cap : Nat
  head : Nat
  count : Nat

/-- What `statsTick` does to the ring. -/
def append (r : Ring) (e : PmStatSample) : Ring :=
  if 0 < r.cap then
    { r with
      mem := update r.mem r.head e
      head := (r.head + 1) % r.cap
      count := if r.count < r.cap then r.count + 1 else r.count }
  else r

/-- The index `n` places before the head, with the remainder of C. -/
def back (r : Ring) (n : Nat) : Nat := ((((r.head : Int) - n).tmod r.cap + r.cap).tmod r.cap).toNat

def pmStatsHistory (r : Ring) (max : Nat) : List PmStatSample :=
  if r.cap = 0 then [] else window r.cap r.mem (back r (min r.count max)) (min r.count max)

def apbMinOf (e : PmStatSample) : Nat := 100 - e.sleep.toNat - e.apbMax.toNat - e.cpuMax.toNat

structure Sums where
  sc : Nat
  sa : Nat
  sn : Nat
  ss : Nat

def Sums.add (s : Sums) (e : PmStatSample) : Sums :=
  ⟨s.sc + e.cpuMax.toNat, s.sa + e.apbMax.toNat, s.sn + apbMinOf e, s.ss + e.sleep.toNat⟩

def avgFromSums (s : Sums) (n : Nat) : PmStatAvg :=
  if n = 0 then ⟨0, 0, 0, 0, 0⟩
  else
    let cpu := (s.sc + n / 2) / n
    let apb := (s.sa + n / 2) / n
    let amin := (s.sn + n / 2) / n
    let slp := (s.ss + n / 2) / n
    ⟨cpu % 256, apb % 256, amin % 256, slp % 256, (cpu * 40 + apb * 30 + amin * 25 + slp * 2 + 5) / 10⟩

def pmStatsAvg (r : Ring) (secs : Int) : PmStatAvg × Nat :=
  let n := if r.cap = 0 then 0 else min r.count (if secs ≤ 0 then 300 else secs.toNat)
  (avgFromSums ((window r.cap r.mem (back r n) n).foldl Sums.add ⟨0, 0, 0, 0⟩) n, n)

def avgWindows : List Nat := [30, 60, 120, 180, 240, 300]

/-- The backward pass over the samples, from the newest one on, with the windows it has not filled. -/
def avgLoop : List PmStatSample → Sums → Nat → List Nat → List PmStatAvg
  | [], s, cnt, ws => ws.map fun _ => avgFromSums s cnt
  | e :: es, s, cnt, ws =>
    (ws.takeWhile (· = cnt + 1)).map (fun _ => avgFromSums (s.add e) (cnt + 1)) ++
      avgLoop es (s.add e) (cnt + 1) (ws.dropWhile (· = cnt + 1))

def pmStatsAvgSet (r : Ring) : List PmStatAvg :=
  let total := if r.cap = 0 then 0 else min r.count 300
  avgLoop ((range total).map fun k => r.mem (back r (1 + k))) ⟨0, 0, 0, 0⟩ 0 avgWindows

/-- The ring after a history of samples, from an empty one of the given memory. -/
def after (mem : Nat → PmStatSample) (cap : Nat) (es : List PmStatSample) : Ring := es.foldl append ⟨mem, cap, 0, 0⟩

/-- The last `n` samples of a history, of those a ring of that capacity keeps. -/
def latest (cap n : Nat) (es : List PmStatSample) : List PmStatSample := es.drop (es.length - min n (min es.length cap))

/-- A sum of bytes divided by their number, rounded. -/
def rounded (l : List Nat) : Nat := (l.sum + l.length / 2) / l.length

/-- The rounded averages of a list of samples, and the current they give. -/
def average (es : List PmStatSample) : PmStatAvg :=
  let cpu := rounded (es.map (·.cpuMax.toNat))
  let apb := rounded (es.map (·.apbMax.toNat))
  let amin := rounded (es.map apbMinOf)
  let slp := rounded (es.map (·.sleep.toNat))
  ⟨cpu, apb, amin, slp, (cpu * 40 + apb * 30 + amin * 25 + slp * 2 + 5) / 10⟩

variable {mem : Nat → PmStatSample} {cap n : Nat} {es : List PmStatSample} {r : Ring}

theorem tmod_add_tmod (x : Int) {c : Int} (hc : 0 < c) : (x.tmod c + c).tmod c = x % c := by
  have hlow : -c < x.tmod c := by
    have := Int.lt_tmod_of_pos x hc
    omega
  rw [Int.tmod_eq_emod_of_nonneg (by omega), Int.add_emod_right, Int.tmod_def, Int.sub_mul_emod_self_left]

/-- The ring holds the end of a history. -/
structure Holds (r : Ring) (es : List PmStatSample) : Prop where
  cap : 0 < r.cap
  head : r.head = es.length % r.cap
  count : r.count = min es.length r.cap
  mem : ∀ n ≤ min es.length r.cap, window r.cap r.mem (es.length - n) n = es.drop (es.length - n)

theorem holds_append (h : Holds r es) (e : PmStatSample) : Holds (append r e) (es ++ [e]) := by
  obtain ⟨hcap, hhead, hcount, hmem⟩ := h
  rw [append, if_pos hcap]
  refine ⟨hcap, ?_, ?_, fun n hn => ?_⟩
  · simp [hhead]
  · simp only [hcount, length_append, length_singleton]
    split <;> omega
  · rw [length_append, length_singleton] at hn ⊢
    cases n with
    | zero => simp [window]
    | succ n =>
      dsimp only at hn ⊢
      have hstore : update r.mem r.head e = store r.cap r.mem (es.length - n + n) [e] := by
        rw [Nat.sub_add_cancel (by omega), hhead]
        rfl
      have hlast : window r.cap (store r.cap r.mem (es.length - n + n) [e]) (es.length - n + n) 1 = [e] :=
        @window_store _ _ _ _ [e] hcap
      rw [Nat.add_sub_add_right, hstore, window_add, window_store_before (by simp; omega), hmem n (by omega), hlast,
        drop_append_of_le_length (by omega)]

@[simp] theorem append_cap (r : Ring) (e : PmStatSample) : (append r e).cap = r.cap := by
  unfold append
  split <;> rfl

theorem after_spec (mem : Nat → PmStatSample) (hcap : 0 < cap) (es : List PmStatSample) :
    (after mem cap es).cap = cap ∧ Holds (after mem cap es) es := by
  induction es using reverseRecOn with
  | nil => exact ⟨rfl, hcap, by simp [after], by simp [after], fun n hn => by simp_all [window]⟩
  | append_singleton es e ih =>
    obtain ⟨hc, ih⟩ := ih
    rw [after, foldl_append]
    exact ⟨(append_cap _ e).trans hc, holds_append ih e⟩

theorem back_eq (h : Holds r es) (hn : n ≤ es.length) : back r n = (es.length - n) % r.cap := by
  have hmod : ((es.length % r.cap : Nat) - (n : Int)) % r.cap = ((es.length - n : Nat) : Int) % r.cap := by
    rw [Int.natCast_emod, Int.sub_emod, Int.emod_emod, ← Int.sub_emod, Int.natCast_sub hn]
  rw [back, h.head, tmod_add_tmod _ (by exact_mod_cast h.cap), hmod, ← Int.natCast_emod, Int.toNat_natCast]

theorem window_back (h : Holds r es) (n : Nat) :
    window r.cap r.mem (back r (min r.count n)) (min r.count n) = latest r.cap n es := by
  rw [h.count, min_comm, back_eq h (by omega), window_mod (Nat.mod_mod _ _), h.mem _ (by omega), latest]

theorem backward (h : Holds r es) (hn : n ≤ r.count) :
    ((range n).map fun k => r.mem (back r (1 + k))) = es.reverse.take n := by
  rw [h.count] at hn
  refine ext_getElem (by simp; omega) fun k hk _ => ?_
  have hk : k < n := by simpa using hk
  have hwin := congrArg head? (h.mem (1 + k) (by omega))
  rw [window, head?_map, head?_range, if_neg (by omega), head?_drop] at hwin
  rw [getElem_map, getElem_range, back_eq h (by omega), getElem_take, getElem_reverse]
  have hlen : es.length - 1 - k < es.length := by omega
  rw [← Option.some.injEq, ← getElem?_eq_getElem hlen, Nat.sub_sub, ← hwin]
  simp

theorem foldl_add (es : List PmStatSample) (s : Sums) : es.foldl Sums.add s =
    ⟨s.sc + (es.map (·.cpuMax.toNat)).sum, s.sa + (es.map (·.apbMax.toNat)).sum, s.sn + (es.map apbMinOf).sum,
      s.ss + (es.map (·.sleep.toNat)).sum⟩ := by
  induction es generalizing s with
  | nil => rfl
  | cons e es ih => simp [ih, Sums.add, Nat.add_assoc]

theorem rounded_lt {f : PmStatSample → Nat} (h : ∀ e, f e ≤ 255) (es : List PmStatSample) : rounded (es.map f) < 256 := by
  have hsum := sum_le_card_nsmul (es.map f) 255 (by simp [h])
  rw [smul_eq_mul] at hsum
  rw [rounded]
  rcases Nat.eq_zero_or_pos (es.map f).length with hl | hl
  · simp [hl]
  · rw [Nat.div_lt_iff_lt_mul hl]
    omega

theorem avgFromSums_eq (es : List PmStatSample) : avgFromSums (es.foldl Sums.add ⟨0, 0, 0, 0⟩) es.length = average es := by
  have hcpu := rounded_lt (fun e => Nat.le_of_lt_succ e.cpuMax.toNat_lt) es
  have hapb := rounded_lt (fun e => Nat.le_of_lt_succ e.apbMax.toNat_lt) es
  have hslp := rounded_lt (fun e => Nat.le_of_lt_succ e.sleep.toNat_lt) es
  have hmin : rounded (es.map apbMinOf) < 256 := rounded_lt (fun e => by unfold apbMinOf; omega) es
  cases es with
  | nil => rfl
  | cons e es =>
    rw [foldl_add, avgFromSums, if_neg (by simp)]
    simp only [average, rounded, length_map, Nat.zero_add] at *
    rw [Nat.mod_eq_of_lt hcpu, Nat.mod_eq_of_lt hapb, Nat.mod_eq_of_lt hmin, Nat.mod_eq_of_lt hslp]

theorem lt_of_mem_dropWhile {ws : List Nat} (hws : ws.Pairwise (· < ·)) (hn : ∀ w ∈ ws, n ≤ w) :
    ∀ w ∈ ws.dropWhile (· = n), n < w := by
  induction ws with
  | nil => exact forall_mem_nil _
  | cons v ws ih =>
    obtain ⟨hfirst, hws⟩ := pairwise_cons.mp hws
    obtain ⟨hv, hn⟩ := forall_mem_cons.mp hn
    by_cases hvn : v = n
    · rw [dropWhile_cons_of_pos (by simpa using hvn)]
      exact ih hws hn
    · rw [dropWhile_cons_of_neg (by simpa using hvn)]
      have hlt := Nat.lt_of_le_of_ne hv (Ne.symm hvn)
      exact forall_mem_cons.mpr ⟨hlt, fun w hw => hlt.trans (hfirst w hw)⟩

theorem avgLoop_eq {ws : List Nat} (hws : ws.Pairwise (· < ·)) (s : Sums) (cnt : Nat) (hcnt : ∀ w ∈ ws, cnt < w)
    (es : List PmStatSample) : avgLoop es s cnt ws = ws.map fun w =>
      avgFromSums ((es.take (w - cnt)).foldl Sums.add s) (cnt + (es.take (w - cnt)).length) := by
  induction es generalizing s cnt ws with
  | nil => simp [avgLoop]
  | cons e es ih =>
    have htake : ∀ w ∈ ws, (e :: es).take (w - cnt) = e :: es.take (w - (cnt + 1)) := fun w hw => by
      rw [show w - cnt = w - (cnt + 1) + 1 by have := hcnt w hw; omega, take_succ_cons]
    rw [avgLoop, ih (hws.sublist (dropWhile_sublist _)) _ (cnt + 1) (lt_of_mem_dropWhile hws hcnt)]
    conv_rhs => rw [← @takeWhile_append_dropWhile _ (· = cnt + 1) ws, map_append]
    congr 1 <;> refine map_congr_left fun w hw => ?_
    · rw [htake w ((takeWhile_sublist _).subset hw)]
      simp [show w = cnt + 1 by simpa using mem_takeWhile_imp hw]
    · rw [htake w ((dropWhile_sublist _).subset hw), foldl_cons, length_cons, Nat.add_assoc, Nat.add_comm 1]

theorem average_reverse (es : List PmStatSample) : average es.reverse = average es := by
  simp [average, rounded, sum_reverse]

theorem pmStatsAvg_eq (h : Holds r es) {w : Nat} (hw : 0 < w) :
    pmStatsAvg r w = (average (latest r.cap w es), (latest r.cap w es).length) := by
  have hwin := window_back h w
  have hlen : (latest r.cap w es).length = min r.count w := by rw [← hwin, window_length]
  simp only [pmStatsAvg, if_neg (Nat.ne_of_gt h.cap), if_neg (show ¬ (w : Int) ≤ 0 by omega), Int.toNat_natCast, hwin]
  rw [← hlen, avgFromSums_eq]

theorem pmStatsAvgSet_eq (h : Holds r es) : pmStatsAvgSet r = avgWindows.map fun w => average (latest r.cap w es) := by
  simp only [pmStatsAvgSet, if_neg (Nat.ne_of_gt h.cap), backward h (Nat.min_le_left r.count 300)]
  rw [avgLoop_eq (by decide) _ _ (by decide)]
  refine map_congr_left fun w hw => ?_
  have hle : w ≤ 300 := (show ∀ w ∈ avgWindows, w ≤ 300 by decide) w hw
  have htake : (es.reverse.take (min r.count 300)).take w = (latest r.cap w es).reverse := by
    rw [take_take, take_reverse, latest, h.count]
    congr 3
    omega
  rw [Nat.sub_zero, Nat.zero_add, avgFromSums_eq, htake, average_reverse]

/-- Both routines give, for every window, the rounded averages of the samples that the
history returns for it. -/
theorem averages_agree (mem : Nat → PmStatSample) (cap : Nat) (es : List PmStatSample) :
    pmStatsAvgSet (after mem cap es) = avgWindows.map (fun w : Nat => (pmStatsAvg (after mem cap es) w).1) ∧
      ∀ w ∈ avgWindows, pmStatsHistory (after mem cap es) w = latest cap w es ∧
        pmStatsAvg (after mem cap es) w = (average (latest cap w es), (latest cap w es).length) := by
  have hpos : ∀ w ∈ avgWindows, 0 < w := by decide
  rcases Nat.eq_zero_or_pos cap with rfl | hcap
  · have hempty : after mem 0 es = ⟨mem, 0, 0, 0⟩ := by
      induction es with
      | nil => rfl
      | cons e es ih => exact ih
    have hnone : ∀ w, latest 0 w es = [] := by simp [latest]
    simp only [hempty, hnone]
    exact ⟨rfl, fun w _ => ⟨rfl, rfl⟩⟩
  · obtain ⟨hc, h⟩ := after_spec mem hcap es
    generalize after mem cap es = r at hc h
    subst hc
    refine ⟨?_, fun w hw => ⟨?_, pmStatsAvg_eq h (hpos w hw)⟩⟩
    · rw [pmStatsAvgSet_eq h]
      exact map_congr_left fun w hw => by rw [pmStatsAvg_eq h (hpos w hw)]
    · rw [pmStatsHistory, if_neg (Nat.ne_of_gt h.cap), window_back h]

end Spangap.Averages
