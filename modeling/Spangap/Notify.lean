import Spangap.Runs
import Mathlib.Data.List.Basic
import Mathlib.Data.List.Perm.Basic

namespace Spangap.Notify

open List Option Runs

section Sweep

variable {α : Type} {p : α → Bool} {A B C : List α} {n : Nat} {a x : α}

/-- Row `i` gives way to the last one. -/
def subDrop (l : List α) (i : Nat) : List α :=
  match l.getLast? with
  | none => l
  | some x => (l.set i x).dropLast

/-- The loop over the table that drops rows; a row that was moved is looked at again. -/
def sweep (p : α → Bool) : Nat → Nat → List α → List α
  | 0, _, l => l
  | n + 1, i, l =>
    match l[i]? with
    | none => l
    | some a => if p a then sweep p n i (subDrop l i) else sweep p n (i + 1) l

theorem subDrop_last : subDrop (A ++ [a]) A.length = A := by
  simp [subDrop]

theorem subDrop_swap : subDrop (A ++ a :: (C ++ [x])) A.length = A ++ x :: C := by
  have hlast : A ++ a :: (C ++ [x]) = (A ++ a :: C) ++ [x] := by simp
  have hset : ((A ++ a :: C) ++ [x]).set A.length x = (A ++ x :: C) ++ [x] := by simp
  rw [subDrop, hlast, getLast?_concat]
  exact (congrArg List.dropLast hset).trans (dropLast_concat ..)

theorem sweep_end : sweep p n A.length A = A := by
  cases n <;> simp [sweep]

theorem sweep_drop (ha : p a = true) :
    sweep p (n + 1) A.length (A ++ a :: B) = sweep p n A.length (subDrop (A ++ a :: B) A.length) := by
  simp [sweep, ha]

theorem sweep_keep (ha : p a = false) : sweep p (n + 1) A.length (A ++ a :: B) = sweep p n (A ++ [a]).length ((A ++ [a]) ++ B) := by
  simp [sweep, ha]

theorem sweep_perm (hn : B.length ≤ n) : (sweep p n A.length (A ++ B)).Perm (A ++ B.filter fun b => !p b) := by
  induction n generalizing A B with
  | zero =>
    obtain rfl := length_eq_zero_iff.mp (Nat.le_zero.mp hn)
    simp [sweep]
  | succ n ih =>
    cases B with
    | nil => simp [sweep_end]
    | cons a B =>
      cases ha : p a with
      | false =>
        rw [sweep_keep ha]
        refine (ih (Nat.le_of_succ_le_succ hn)).trans ?_
        simp [ha]
      | true =>
        rw [sweep_drop ha]
        rcases eq_nil_or_concat B with rfl | ⟨C, x, rfl⟩
        · simp [subDrop_last, sweep_end, ha]
        · rw [concat_eq_append, subDrop_swap]
          refine (ih (by simpa using hn)).trans ?_
          have hswap : (x :: C).Perm (C ++ [x]) := (perm_append_singleton x C).symm
          refine ((hswap.filter _).append_left A).trans ?_
          simp [ha]

variable [DecidableEq α] {r : α}

theorem idxOf_sweep_le (hr : p r = false) : (sweep p n A.length (A ++ B)).idxOf r ≤ (A ++ B).idxOf r := by
  induction n generalizing A B with
  | zero => exact Nat.le_refl _
  | succ n ih =>
    cases B with
    | nil => simp [sweep_end]
    | cons a B =>
      cases ha : p a with
      | false =>
        rw [sweep_keep ha]
        refine Nat.le_trans ih ?_
        simp
      | true =>
        have hne : a ≠ r := by
          rintro rfl
          simp [ha] at hr
        rw [sweep_drop ha]
        rcases eq_nil_or_concat B with rfl | ⟨C, x, rfl⟩
        · rw [subDrop_last, sweep_end]
          grind
        · rw [concat_eq_append, subDrop_swap]
          refine Nat.le_trans ih ?_
          grind

end Sweep

/-- A direct row has no task, and a task that ends leaves its rows behind. -/
inductive Owner
  | direct
  | task (t : Nat)
  | dead
  deriving DecidableEq, Repr

/-- A subscription. A null callback is `none`. -/
structure Row where
  owner : Owner
  cb : Option Nat
  scope : List UInt8
  deriving DecidableEq, Repr

def maxSubs : Nat := 256

def subReap (l : List Row) : List Row := sweep (fun r => r.owner = .dead) l.length 0 l

def subAdd (l : List Row) (r : Row) : List Row :=
  let l := subReap l
  if r ∈ l ∨ maxSubs ≤ l.length then l else l ++ [r]

/-- Whether an unsubscribe is about the row. One without a callback leaves the direct rows alone. -/
def names (task : Nat) (cb : Option Nat) (scope : List UInt8) (r : Row) : Bool :=
  (match r.owner with
    | .direct => cb.isSome
    | .task t => t = task
    | .dead => false) && r.scope = scope && (cb.isNone || r.cb = cb)

def subRemove (task : Nat) (cb : Option Nat) (scope : List UInt8) (l : List Row) : List Row :=
  sweep (names task cb scope) l.length 0 l

def storageOnTaskDeath (task : Nat) (l : List Row) : List Row :=
  l.map fun r => if r.owner = .task task then { r with owner := .dead } else r

inductive Op
  | sub (task : Nat) (cb : Option Nat) (scope : List UInt8)
  | subd (cb : Option Nat) (scope : List UInt8)
  | unsub (task : Nat) (cb : Option Nat) (scope : List UInt8)
  | death (task : Nat)
  deriving DecidableEq, Repr

def apply (l : List Row) : Op → List Row
  | .sub task cb scope => subAdd l ⟨.task task, cb, scope⟩
  | .subd cb scope => subAdd l ⟨.direct, cb, scope⟩
  | .unsub task cb scope => subRemove task cb scope l
  | .death task => storageOnTaskDeath task l

def Op.ends (r : Row) : Op → Bool
  | .unsub task cb scope => names task cb scope r
  | .death task => r.owner = .task task
  | _ => false

def Op.adds (r : Row) : Op → Bool
  | .sub task cb scope => r = ⟨.task task, cb, scope⟩
  | .subd cb scope => r = ⟨.direct, cb, scope⟩
  | _ => false

def Distinct (l : List Row) : Prop := ∀ r : Row, r.owner ≠ .dead → l.count r ≤ 1

section Table

variable {l : List Row} {r : Row} {o : Op}

theorem sweep_all_perm (p : Row → Bool) (l : List Row) : (sweep p l.length 0 l).Perm (l.filter fun b => !p b) :=
  @sweep_perm _ p [] l l.length (Nat.le_refl _)

theorem mem_sweep_all (p : Row → Bool) : r ∈ sweep p l.length 0 l ↔ r ∈ l ∧ p r = false := by
  rw [(sweep_all_perm p l).mem_iff]
  simp

theorem idxOf_sweep_all_le {p : Row → Bool} (hr : p r = false) : (sweep p l.length 0 l).idxOf r ≤ l.idxOf r :=
  @idxOf_sweep_le _ p [] l l.length _ r hr

theorem distinct_sweep (p : Row → Bool) (hl : Distinct l) : Distinct (sweep p l.length 0 l) := by
  intro r hr
  rw [(sweep_all_perm p l).count_eq]
  exact Nat.le_trans (filter_sublist.count_le r) (hl r hr)

theorem distinct_subAdd (hl : Distinct l) (r : Row) : Distinct (subAdd l r) := by
  unfold subAdd
  extract_lets l'
  have hl' : Distinct l' := distinct_sweep _ hl
  split_ifs with h
  · exact hl'
  · intro q hq
    rw [not_or] at h
    rcases eq_or_ne r q with rfl | hne
    · simp [count_eq_zero_of_not_mem h.1]
    · simpa [count_cons_of_ne hne] using hl' q hq

theorem count_death_le {task : Nat} (hr : r.owner ≠ .dead) (l : List Row) : (storageOnTaskDeath task l).count r ≤ l.count r := by
  induction l with
  | nil => exact Nat.le_refl _
  | cons q l ih =>
    have hq : (if q.owner = .task task then { q with owner := .dead } else q) = r → q = r := by grind
    simp only [storageOnTaskDeath, map_cons, count_cons, beq_iff_eq] at ih ⊢
    split_ifs <;> grind

theorem idxOf_death_le {task : Nat} (hr : r.owner ≠ .task task) (l : List Row) :
    (storageOnTaskDeath task l).idxOf r ≤ l.idxOf r := by
  induction l with
  | nil => exact Nat.le_refl _
  | cons q l ih =>
    simp only [storageOnTaskDeath, map_cons, idxOf_cons] at ih ⊢
    grind

theorem distinct_apply (hl : Distinct l) : Distinct (apply l o) := by
  cases o with
  | sub task cb scope => exact distinct_subAdd hl _
  | subd cb scope => exact distinct_subAdd hl _
  | unsub task cb scope => exact distinct_sweep _ hl
  | death task =>
    intro r hr
    refine Nat.le_trans ?_ (hl r hr)
    exact count_death_le hr l

/-- A row that stays is never moved up. -/
theorem apply_keeps (hr : r ∈ l) (hlive : r.owner ≠ .dead) (hends : o.ends r = false) :
    r ∈ apply l o ∧ (apply l o).idxOf r ≤ l.idxOf r := by
  have hadd : ∀ q, r ∈ subAdd l q ∧ (subAdd l q).idxOf r ≤ l.idxOf r := by
    intro q
    unfold subAdd
    extract_lets l'
    have hmem : r ∈ l' := (mem_sweep_all _).mpr ⟨hr, by simpa using hlive⟩
    have hle : l'.idxOf r ≤ l.idxOf r := idxOf_sweep_all_le (by simpa using hlive)
    split_ifs with h
    · exact ⟨hmem, hle⟩
    · rw [idxOf_append_of_mem hmem]
      exact ⟨mem_append_left _ hmem, hle⟩
  cases o with
  | sub task cb scope => exact hadd _
  | subd cb scope => exact hadd _
  | unsub task cb scope => exact ⟨(mem_sweep_all _).mpr ⟨hr, hends⟩, idxOf_sweep_all_le hends⟩
  | death task =>
    have hends : r.owner ≠ .task task := of_decide_eq_false hends
    exact ⟨List.mem_map.mpr ⟨r, hr, if_neg hends⟩, idxOf_death_le hends l⟩

theorem apply_ends (hends : o.ends r = true) : r ∉ apply l o := by
  cases o with
  | sub task cb scope => cases hends
  | subd cb scope => cases hends
  | unsub task cb scope =>
    intro hr
    have hnot := ((mem_sweep_all _).mp hr).2
    rw [show names task cb scope r = true from hends] at hnot
    cases hnot
  | death task =>
    simp only [apply, storageOnTaskDeath, List.mem_map, not_exists, not_and]
    simp only [Op.ends, decide_eq_true_eq] at hends
    grind

theorem apply_absent (hr : r ∉ l) (hlive : r.owner ≠ .dead) (hadds : o.adds r = false) : r ∉ apply l o := by
  have hadd : ∀ q, r ≠ q → r ∉ subAdd l q := by
    intro q hq
    have hmem : r ∉ subReap l := fun h => hr ((mem_sweep_all _).mp h).1
    unfold subAdd
    extract_lets l'
    split_ifs with h
    · exact hmem
    · simp [hmem, hq, l']
  cases o with
  | sub task cb scope => exact hadd _ (of_decide_eq_false hadds)
  | subd cb scope => exact hadd _ (of_decide_eq_false hadds)
  | unsub task cb scope => exact fun h => hr ((mem_sweep_all _).mp h).1
  | death task =>
    simp only [apply, storageOnTaskDeath, List.mem_map, not_exists, not_and]
    grind

theorem idxOf_eq_of_distinct {j : Nat} (hl : Distinct l) (hlive : r.owner ≠ .dead) (hj : l[j]? = some r) : l.idxOf r = j := by
  obtain ⟨hlt, hget⟩ := List.getElem?_eq_some_iff.mp hj
  obtain ⟨A, B, rfl, rfl⟩ : ∃ A B, l = A ++ r :: B ∧ A.length = j :=
    ⟨l.take j, l.drop (j + 1), by simp [← hget], by simp [Nat.le_of_lt hlt]⟩
  have hnew : r ∉ A := by
    have hcount := hl r hlive
    rw [count_append, count_cons_self] at hcount
    exact count_eq_zero.mp (by omega)
  rw [idxOf_append_of_notMem hnew]
  simp

end Table

/-- A call of `notifyChange`: the table, the next row to look at, the rows that
were given the change, and whether a callback of the last row looked at may be
running. -/
structure State where
  table : List Row
  next : Nat
  delivered : List Row
  inside : Bool
  deriving DecidableEq, Repr

/-- One turn of the loop, in which the memory for a message may be missing, or
something that a callback does to the table, by itself or in the changes it makes. -/
inductive Action
  | visit (ok : Bool)
  | op (o : Op)
  deriving DecidableEq, Repr

/-- The callback is called right here. -/
def inline (own : Nat) (r : Row) : Bool := r.owner = .direct || r.owner = .task own

def hit (key : List UInt8) (r : Row) : Bool := r.owner ≠ .dead && r.scope.isPrefixOf key

/-- The callback is called, or a message for it is handed to the worker. -/
def takes (own : Nat) (ok : Bool) (r : Row) : Bool := if inline own r then r.cb.isSome else ok

def step (own : Nat) (key : List UInt8) (s : State) : Action → Option State
  | .visit ok =>
    s.table[s.next]?.map fun r =>
      { s with
        next := s.next + 1
        delivered := if hit key r && takes own ok r then r :: s.delivered else s.delivered
        inside := hit key r && inline own r && r.cb.isSome }
  | .op o =>
    -- A task may end at any time.
    if s.inside || (match o with | .death _ => true | _ => false) then some { s with table := apply s.table o } else none

def start (l : List Row) : State := ⟨l, 0, [], false⟩

def ends (r : Row) : Action → Bool
  | .visit _ => false
  | .op o => o.ends r

def adds (r : Row) : Action → Bool
  | .visit _ => false
  | .op o => o.adds r

/-- The row is taken when its turn comes, and no change of the table brings it
from the rows still to come to those already passed. -/
def Kept (own : Nat) (r : Row) (s : State) : Action → Prop
  | .visit ok => s.table[s.next]? = some r → takes own ok r = true
  | .op o => s.next ≤ s.table.idxOf r → s.next ≤ (apply s.table o).idxOf r

instance (own : Nat) (r : Row) (s : State) : ∀ a, Decidable (Kept own r s a)
  | .visit ok => inferInstanceAs (Decidable (s.table[s.next]? = some r → takes own ok r = true))
  | .op o => inferInstanceAs (Decidable (s.next ≤ s.table.idxOf r → s.next ≤ (apply s.table o).idxOf r))

/-- A row has been given the change exactly if it has been passed. -/
structure Seen (r : Row) (s : State) : Prop where
  distinct : Distinct s.table
  mem : r ∈ s.table
  count : s.delivered.count r = if s.next ≤ s.table.idxOf r then 0 else 1

structure Missed (r : Row) (s : State) : Prop where
  distinct : Distinct s.table
  mem : r ∈ s.table
  passed : s.table.idxOf r < s.next
  count : s.delivered.count r = 0

section Rows

variable {own : Nat} {key : List UInt8} {r : Row} {s t : State} {a : Action} {xs : List Action}

theorem live_of_hit (hr : hit key r = true) : r.owner ≠ .dead := by
  simp only [hit, Bool.and_eq_true, decide_eq_true_eq] at hr
  exact hr.1

theorem visit_cases {ok : Bool} (h : step own key s (.visit ok) = some t) (hr : hit key r = true) :
    t.table = s.table ∧ t.next = s.next + 1 ∧ s.next < s.table.length ∧
      t.delivered.count r = s.delivered.count r + if s.table[s.next]? = some r ∧ takes own ok r = true then 1 else 0 := by
  obtain ⟨q, hq, rfl⟩ := map_eq_some_iff.mp h
  refine ⟨rfl, rfl, (List.getElem?_eq_some_iff.mp hq).1, ?_⟩
  rcases eq_or_ne q r with rfl | hne
  · by_cases htakes : takes own ok q = true <;> simp [hq, hr, htakes]
  · simp only [hq, some_inj, hne, false_and, if_false, Nat.add_zero]
    split_ifs
    · exact count_cons_of_ne hne
    · rfl

theorem op_cases {o : Op} (h : step own key s (.op o) = some t) : t = { s with table := apply s.table o } :=
  (some_inj.mp (ite_none_right_eq_some.mp h).2).symm

section Turn

variable (hr : hit key r = true) (hends : ends r a = false) (h : step own key s a = some t)

include hr hends h

theorem seen_step (hs : Seen r s) (hkept : Kept own r s a) : Seen r t := by
  have hlive := live_of_hit hr
  cases a with
  | visit ok =>
    obtain ⟨htable, hnext, -, hcount⟩ := visit_cases h hr
    have hturn : s.table[s.next]? = some r ↔ s.table.idxOf r = s.next :=
      ⟨idxOf_eq_of_distinct hs.distinct hlive, fun h => h ▸ getElem?_idxOf hs.mem⟩
    refine ⟨htable ▸ hs.distinct, htable ▸ hs.mem, ?_⟩
    rw [hcount, hs.count, htable, hnext]
    have := hturn
    have hkept : s.table[s.next]? = some r → takes own ok r = true := hkept
    grind
  | op o =>
    obtain rfl := op_cases h
    obtain ⟨hmem, hle⟩ := apply_keeps hs.mem hlive hends
    refine ⟨distinct_apply hs.distinct, hmem, ?_⟩
    have hsame : s.next ≤ (apply s.table o).idxOf r ↔ s.next ≤ s.table.idxOf r := ⟨fun h => Nat.le_trans h hle, hkept⟩
    simp only [hs.count, hsame]

theorem missed_of_not_kept (hs : Seen r s) (hkept : ¬Kept own r s a) : Missed r t := by
  have hlive := live_of_hit hr
  cases a with
  | visit ok =>
    obtain ⟨htable, hnext, -, hcount⟩ := visit_cases h hr
    simp only [Kept, Classical.not_imp] at hkept
    have hturn := idxOf_eq_of_distinct hs.distinct hlive hkept.1
    refine ⟨htable ▸ hs.distinct, htable ▸ hs.mem, by rw [htable, hnext, hturn]; exact Nat.lt_succ_self _, ?_⟩
    rw [hcount, hs.count]
    simp [hkept.2, hturn]
  | op o =>
    obtain rfl := op_cases h
    simp only [Kept, Classical.not_imp, Nat.not_le] at hkept
    refine ⟨distinct_apply hs.distinct, (apply_keeps hs.mem hlive hends).1, hkept.2, ?_⟩
    simp [hs.count, hkept.1]

theorem missed_step (hs : Missed r s) : Missed r t := by
  have hlive := live_of_hit hr
  cases a with
  | visit ok =>
    obtain ⟨htable, hnext, -, hcount⟩ := visit_cases h hr
    have hturn : s.table[s.next]? ≠ some r := fun h => Nat.ne_of_lt hs.passed (idxOf_eq_of_distinct hs.distinct hlive h)
    refine ⟨htable ▸ hs.distinct, htable ▸ hs.mem, by rw [htable, hnext]; exact Nat.lt_succ_of_lt hs.passed, ?_⟩
    simp [hcount, hs.count, hturn]
  | op o =>
    obtain rfl := op_cases h
    obtain ⟨hmem, hle⟩ := apply_keeps hs.mem hlive hends
    exact ⟨distinct_apply hs.distinct, hmem, Nat.lt_of_le_of_lt hle hs.passed, hs.count⟩

end Turn

/-- A row that stays is given the change exactly once, or it was passed without having its turn. -/
theorem count_eq_one_iff (hs : Seen r s) (hr : hit key r = true) (hstays : Meets (step own key) (fun _ a => ends r a = false) s xs)
    (hrun : run (step own key) s xs = some t) (hdone : t.table.length ≤ t.next) :
    t.delivered.count r = 1 ↔ Meets (step own key) (Kept own r) s xs := by
  induction xs generalizing s with
  | nil =>
    cases hrun
    have hpassed : ¬t.next ≤ t.table.idxOf r :=
      Nat.not_le.mpr (Nat.lt_of_lt_of_le (idxOf_lt_length_of_mem hs.mem) hdone)
    simp [hs.count, hpassed, Meets]
  | cons a xs ih =>
    obtain ⟨u, hu, hrun⟩ := (run_cons ..).mp hrun
    by_cases hkept : Kept own r s a
    · rw [ih (seen_step hr hstays.1 hu hs hkept) (hstays.2 u hu) hrun]
      simp [Meets, hkept, hu]
    · have hmissed := run_invariant (fun s a t hs hends h => missed_step hr hends h hs)
        (missed_of_not_kept hr hstays.1 hu hs hkept) (hstays.2 u hu) hrun
      simp [Meets, hkept, hmissed.count]

theorem count_of_absent (hr : r ∉ s.table) (hlive : r.owner ≠ .dead) (hadds : ∀ a ∈ xs, adds r a = false)
    (hrun : run (step own key) s xs = some t) : t.delivered.count r = s.delivered.count r := by
  induction xs generalizing s with
  | nil =>
    cases hrun
    rfl
  | cons a xs ih =>
    obtain ⟨u, hu, hrun⟩ := (run_cons ..).mp hrun
    obtain ⟨ha, hrest⟩ := forall_mem_cons.mp hadds
    cases a with
    | visit ok =>
      obtain ⟨q, hq, rfl⟩ := map_eq_some_iff.mp hu
      have hne : q ≠ r := by
        rintro rfl
        exact hr (mem_of_getElem? hq)
      refine Eq.trans (ih (by exact hr) hrest hrun) ?_
      dsimp only
      split_ifs
      · exact count_cons_of_ne hne
      · rfl
    | op o =>
      obtain rfl := op_cases hu
      exact Eq.trans (ih (apply_absent hr hlive ha) hrest hrun) rfl

end Rows

theorem distinct_built (built : List Op) : Distinct (built.foldl apply []) := by
  have hmore : ∀ l, Distinct l → Distinct (built.foldl apply l) := by
    induction built with
    | nil => exact fun l hl => hl
    | cons o built ih => exact fun l hl => ih _ (distinct_apply hl)
  exact hmore [] fun r _ => by simp

/-- Every matching row that stays has the change once and no row has it after its
end, exactly if each of these rows is taken at its turn and not moved past it. -/
theorem notify_once_iff {own : Nat} {key : List UInt8} {built : List Op} {xs : List Action} {t : State}
    (hrun : run (step own key) (start (built.foldl apply [])) xs = some t) (hdone : t.table.length ≤ t.next) :
    ((∀ r ∈ built.foldl apply [], hit key r = true → (∀ a ∈ xs, ends r a = false) → t.delivered.count r = 1) ∧
      ∀ r as o bs u, xs = as ++ .op o :: bs → o.ends r = true → (∀ a ∈ bs, adds r a = false) →
        run (step own key) (start (built.foldl apply [])) (as ++ [.op o]) = some u → t.delivered.count r = u.delivered.count r) ↔
    ∀ r ∈ built.foldl apply [], hit key r = true → (∀ a ∈ xs, ends r a = false) →
      Meets (step own key) (Kept own r) (start (built.foldl apply [])) xs := by
  have honce : ∀ r ∈ built.foldl apply [], hit key r = true → (∀ a ∈ xs, ends r a = false) →
      (t.delivered.count r = 1 ↔ Meets (step own key) (Kept own r) (start (built.foldl apply [])) xs) := by
    intro r hmem hr hstays
    have hseen : Seen r (start (built.foldl apply [])) := ⟨distinct_built built, hmem, by simp [start]⟩
    exact count_eq_one_iff hseen hr (meets_of_forall hstays) hrun hdone
  rw [and_iff_left]
  · exact forall₄_congr honce
  · rintro r as o bs u rfl hends hadds hu
    have hsplit : as ++ .op o :: bs = (as ++ [.op o]) ++ bs := by simp
    rw [hsplit] at hrun
    obtain ⟨u', hu', hrun⟩ := (run_append ..).mp hrun
    cases hu.symm.trans hu'
    obtain ⟨v, -, hv⟩ := (run_append ..).mp hu
    obtain ⟨u', hu', ⟨⟩⟩ := (run_cons ..).mp hv
    obtain rfl := op_cases hu'
    have hlive : r.owner ≠ .dead := by
      cases o <;> grind [Op.ends, names]
    exact count_of_absent (apply_ends hends) hlive hadds hrun

def watch (n : Nat) : Op := .subd (some n) []

theorem notify_once_iff_two :
    ∃ t, run (step 0 []) (start ([watch 1, watch 2].foldl apply [])) [.visit true, .visit true] = some t ∧
      ∀ r ∈ [watch 1, watch 2].foldl apply [], t.delivered.count r = 1 := by
  have hall : ∀ r ∈ [watch 1, watch 2].foldl apply [], hit [] r = true ∧
      Meets (step 0 []) (Kept 0 r) (start ([watch 1, watch 2].foldl apply [])) [.visit true, .visit true] := by
    decide
  refine ⟨_, rfl, fun r hr => ?_⟩
  exact ((@notify_once_iff 0 [] [watch 1, watch 2] [.visit true, .visit true] _ rfl (by decide)).mpr
    fun r hr _ _ => (hall r hr).2).1 r hr (hall r hr).1 (by simp [ends])

/-- The first of three rows ends its subscription in its callback: the last one takes its place and has no turn. -/
theorem row_passed_over :
    (run (step 0 []) (start ([watch 1, watch 2, watch 3].foldl apply []))
      [.visit true, .op (.unsub 0 (some 1) []), .visit true]).map
      (fun t => (decide (t.table.length ≤ t.next), t.table.map Row.cb, t.delivered.map Row.cb)) =
    some (true, [some 3, some 2], [some 2, some 1]) := by
  decide

end Spangap.Notify
