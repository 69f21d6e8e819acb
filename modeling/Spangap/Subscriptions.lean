import Spangap.Notify
import Mathlib.Data.Finset.Card

namespace Spangap.Subscriptions

open List Notify

/-- The set of live subscriptions: a task's own, and the direct ones, which only their
callback names. -/
def live (S : Finset Row) : Op → Finset Row
  | .sub task cb scope => insert ⟨.task task, cb, scope⟩ S
  | .subd cb scope => insert ⟨.direct, cb, scope⟩ S
  | .unsub task none scope => S.filter fun r => ¬ (r.owner = .task task ∧ r.scope = scope)
  | .unsub task (some cb) scope =>
    S.filter fun r => ¬ ((r.owner = .task task ∨ r.owner = .direct) ∧ r.scope = scope ∧ r.cb = some cb)
  | .death task => S.filter fun r => r.owner ≠ .task task

/-- The rows `notifyChange` does not pass over. -/
def considered (l : List Row) : List Row := l.filter fun r => r.owner ≠ .dead

structure Refines (l : List Row) (S : Finset Row) : Prop where
  distinct : Distinct l
  rows : ∀ r, r ∈ S ↔ r ∈ l ∧ r.owner ≠ .dead

section Table

variable {l : List Row} {S : Finset Row} {o : Op}

theorem mem_live (r : Row) : r ∈ live S o ↔ o.adds r = true ∨ r ∈ S ∧ o.ends r = false := by
  obtain ⟨owner, rcb, rscope⟩ := r
  cases o with
  | unsub task cb scope => cases cb <;> cases owner <;> simp [live, Op.adds, Op.ends, names]
  | sub | subd | death => simp [live, Op.adds, Op.ends]

theorem considered_nodup (h : Refines l S) : (considered l).Nodup := by
  rw [nodup_iff_count_le_one]
  intro r
  by_cases hr : r.owner = .dead
  · rw [count_eq_zero_of_not_mem (by simp [considered, hr])]
    exact Nat.zero_le 1
  · exact le_trans (filter_sublist.count_le r) (h.distinct r hr)

theorem considered_eq (h : Refines l S) : (considered l).toFinset = S := by
  ext r
  simp [considered, h.rows]

theorem subReap_length (h : Refines l S) : (subReap l).length = S.card := by
  rw [← considered_eq h, toFinset_card_of_nodup (considered_nodup h), subReap, (sweep_all_perm _ l).length_eq, considered]
  simp

/-- With room for it, a subscription gets its row. -/
theorem mem_apply_of_adds (h : Refines l S) {r : Row} (ho : o.adds r = true) (hfit : (live S o).card ≤ maxSubs) : r ∈ apply l o := by
  have hadd : (insert r S).card ≤ maxSubs → r.owner ≠ .dead → r ∈ subAdd l r := by
    intro hfit hlive
    unfold subAdd
    extract_lets l'
    by_cases hr : r ∈ l'
    · rwa [if_pos (.inl hr)]
    · have hnew : r ∉ S := fun hS => hr ((mem_sweep_all _).mpr ⟨((h.rows r).mp hS).1, by simpa using hlive⟩)
      rw [Finset.card_insert_of_notMem hnew, ← subReap_length h] at hfit
      rw [if_neg (not_or.mpr ⟨hr, Nat.not_le.mpr hfit⟩)]
      simp
  cases o with
  | sub | subd =>
    obtain rfl := of_decide_eq_true ho
    exact hadd hfit (by simp)
  | unsub | death => cases ho

theorem refines_apply (h : Refines l S) (hfit : (live S o).card ≤ maxSubs) : Refines (apply l o) (live S o) := by
  refine ⟨distinct_apply h.distinct, fun r => ?_⟩
  rw [mem_live]
  by_cases hlive : r.owner = .dead
  · have hadds : o.adds r = false := by
      cases o <;> simp [Op.adds]
      all_goals rintro rfl; cases hlive
    simp [hadds, hlive, h.rows]
  · cases hadds : o.adds r with
    | true => simp [mem_apply_of_adds h hadds hfit, hlive]
    | false =>
      cases hends : o.ends r with
      | true => simp [apply_ends hends]
      | false =>
        by_cases hr : r ∈ l
        · simp [h.rows, hr, hlive, (apply_keeps hr hlive hends).1]
        · simp [h.rows, hr, apply_absent hr hlive hadds]

end Table

theorem table_refines_set (os : List Op) (hfit : ∀ past, past <+: os → (past.foldl live ∅).card ≤ maxSubs) :
    (considered (os.foldl apply [])).Nodup ∧ (considered (os.foldl apply [])).toFinset = os.foldl live ∅ := by
  have h : Refines (os.foldl apply []) (os.foldl live ∅) := by
    induction os using List.reverseRecOn with
    | nil => exact ⟨by simp [Distinct], by simp⟩
    | append_singleton os o ih =>
      have hbefore := ih fun past hpast => hfit past (hpast.trans (List.prefix_append os [o]))
      have hlast := hfit _ List.prefix_rfl
      rw [foldl_append] at hlast ⊢
      rw [foldl_append]
      exact refines_apply hbefore hlast
  exact ⟨considered_nodup h, considered_eq h⟩

/-- A task ends, and another with its handle subscribes to the same. -/
theorem table_refines_set_reused : (considered ([.sub 1 none [], .death 1, .sub 1 none []].foldl apply [])).Nodup := by
  refine (table_refines_set [.sub 1 none [], .death 1, .sub 1 none []] fun past hpast => ?_).1
  rw [← mem_inits] at hpast
  revert past
  decide +kernel

end Spangap.Subscriptions
