import Spangap.Durable

namespace Spangap.Saves

open List CJson DotPath Commit Persist View Landing Regions Flags Runs Worker Durable

open Reboot (NoStray FilesKept Settled)

variable {pats : List (List Name)} {s t : Sys} {call n k : Nat} {as : List Action}

section Progress

/-- The steps the worker has left to the end of its pass, at most. An external takes three
of them in the scan and two when it is removed. -/
def left (s : Sys) : Nat :=
  let n := s.st.externals.length
  2 * n + match s.phase with
    | .idle => 3 * n + 8
    | .scan i => 3 * (n - i) + 7
    | .snapExternal i _ => 3 * (n - i) + 9
    | .writeExternal i _ _ => 3 * (n - i) + 8
    | .testRoot => 6
    | .snapRoot => 5
    | .writeRoot _ => 4
    | .clearRoot | .remove _ => 3
    | .deletes => 2
    | .collect => 1

theorem left_le (s : Sys) : left s ≤ 5 * s.st.externals.length + 9 := by
  unfold left
  cases s.phase <;> dsimp only <;> omega

theorem work_spec (hs : work s = some t) :
    t.given = s.given ++ s.pendingSaveSems ∨
      (t.given = s.given ∧ t.pendingSaveSems = s.pendingSaveSems ∧ isIdle t.phase = false ∧ left t < left s) := by
  unfold work at hs
  unfold left
  cases hph : s.phase <;> simp only [hph] at hs ⊢
  case scan i =>
    split at hs
    · cases hs
      exact .inr ⟨rfl, rfl, rfl, by dsimp only; omega⟩
    next e he =>
      have hi := (List.getElem?_eq_some_iff.mp he).1
      split at hs <;> cases hs
      · exact .inr ⟨rfl, rfl, rfl, by simp only [clearDirty, length_modify]; omega⟩
      · exact .inr ⟨rfl, rfl, rfl, by dsimp only; omega⟩
  case testRoot =>
    cases hs
    cases s.st.rootDirty <;> exact .inr ⟨rfl, rfl, rfl, by simp⟩
  case deletes =>
    split at hs <;> cases hs
    · exact .inr ⟨rfl, rfl, rfl, by dsimp only; omega⟩
    next e he =>
      have hlen := length_eraseP_of_mem (mem_of_find?_eq_some he) (find?_some he)
      have hpos := length_pos_of_mem (mem_of_find?_eq_some he)
      exact .inr ⟨rfl, rfl, rfl, by dsimp only; omega⟩
  case collect =>
    cases hs
    exact .inl rfl
  all_goals
    first | cases hs | (split at hs <;> cases hs)
  all_goals exact .inr ⟨rfl, rfl, rfl, by dsimp only; omega⟩

theorem left_apply (ops : List Op) : left { s with st := applyOps pats s.st ops } = left s := by
  have hlen : (applyOps pats s.st ops).externals.length = s.st.externals.length := by
    rw [applyOps, length_map, foldl_markDeleted, length_map]
  unfold left
  rw [hlen]

def isWork : Action → Bool
  | .work => true
  | _ => false

/-- The semaphore is given, or it is queued, a pass is under way or asked for, and the `k` steps
the worker has made since are not all of the `n` it can make. -/
def Served (call n k : Nat) (s : Sys) : Prop :=
  call ∈ s.given ∨ (call ∈ s.pendingSaveSems ∧ (s.poked = true ∨ isIdle s.phase = false) ∧ left s + k ≤ n)

theorem served_step {a : Action} (h : Served call n k s) (ha : ∀ key, a ≠ .register key) (hs : step pats s a = some t) :
    Served call n (k + if isWork a then 1 else 0) t := by
  cases a with
  | apply ops =>
    cases hs
    exact h.imp_right fun ⟨hq, hp, hn⟩ => ⟨hq, hp, by rw [left_apply]; exact hn⟩
  | register key => exact absurd rfl (ha key)
  | save c =>
    cases hs
    exact h.imp_right fun ⟨hq, hp, hn⟩ => ⟨mem_append_left _ hq, hp, hn⟩
  | poke =>
    cases hs
    exact h.imp_right fun ⟨hq, _, hn⟩ => ⟨hq, .inl rfl, hn⟩
  | work =>
    rcases work_spec hs with hgive | ⟨hgiven, hkept, hbusy, hless⟩
    · exact .inl (hgive ▸ mem_append.mpr (h.imp_right And.left))
    · exact h.imp (hgiven ▸ id) fun ⟨hq, _, hn⟩ => ⟨hkept ▸ hq, .inr hbusy, Nat.lt_of_lt_of_le (Nat.add_lt_add_right hless k) hn⟩

theorem served_run (h : Served call n k s) (hreg : ∀ key, .register key ∉ as) (hrun : run (step pats) s as = some t) :
    Served call n (k + as.countP isWork) t := by
  induction as generalizing s k with
  | nil =>
    cases hrun
    exact h
  | cons a as ih =>
    obtain ⟨u, hu, hrest⟩ := (run_cons _ s t a as).mp hrun
    have hnext := ih (served_step h (fun key ha => hreg key (ha ▸ mem_cons_self)) hu)
      (fun key hkey => hreg key (mem_cons_of_mem a hkey)) hrest
    rwa [countP_cons, Nat.add_comm (countP _ as), ← Nat.add_assoc]

/-- `storageSave` returns: whatever else happens while no file is registered, the worker neither blocks nor
makes the steps of a pass before the semaphore of a save is given. -/
theorem save_given (hrun : run (step pats) s as = some t) (hreg : ∀ key, .register key ∉ as) (hq : call ∈ s.pendingSaveSems)
    (hp : s.poked = true ∨ isIdle s.phase = false) :
    call ∈ t.given ∨ (work t ≠ none ∧ as.countP isWork < left s ∧ left s ≤ 5 * s.st.externals.length + 9) := by
  have hserved : Served call (left s) 0 s := .inr ⟨hq, hp, le_refl (left s)⟩
  refine (served_run hserved hreg hrun).imp_right fun ⟨_, hp, hn⟩ => ⟨?_, ?_, left_le s⟩
  · unfold work
    cases hph : t.phase <;> grind [isIdle]
  · have hpos : 0 < left t := by
      unfold left
      cases t.phase <;> dsimp only <;> omega
    omega

def onePass (n : Nat) : List Action := .apply [setText "s.a.x" "1", setText "s.b" "2"] :: .poke :: replicate n .work

theorem save_given_onePass : ∃ t, run (step []) { boot empty with pendingSaveSems := [7] } (.poke :: onePass 8) = some t ∧ 7 ∈ t.given := by
  have hrun : run (step []) { boot empty with pendingSaveSems := [7], poked := true } (onePass 8) = some _ := rfl
  refine ⟨_, hrun, (save_given hrun (by simp [onePass]) mem_cons_self (.inl rfl)).resolve_right fun h => absurd h.2.1 (by decide)⟩

end Progress

section Clean

variable {V : Vocabulary} {σ : State}

def isSave : Action → Bool
  | .save _ => true
  | _ => false

/-- Between two passes of the worker the flags can be trusted: when none is set, a boot from the files finds the tree. -/
theorem clean_is_saved (hV : ∀ p ∈ savedNames, V.mem p) (h0 : Synced V σ) (hrun : run (step pats) (boot σ) as = some s)
    (h : Meets (step pats) (fun s a => isSave a = true ∨ Allowed V pats s a) (boot σ) as) (hidle : s.phase = .idle) (hstray : NoStray s.st)
    (hroot : s.st.rootDirty = false) (hclean : ∀ e ∈ s.st.externals, e.dirty = false ∧ e.pendingDelete = false) :
    ∀ q, Spelled V q → Kept q → valueAt (.obj (storageLoad s.st.rootFile s.st.files)) q = valueAt (.obj s.st.cfgRoot) q := by
  have htracked : Tracked V s := by
    refine run_invariant (fun s a t hi ha hs => ?_) ((tracked_idle rfl).mpr h0) h hrun
    rcases ha with hsave | ha
    · cases a <;> cases hsave
      cases hs
      exact { hi with }
    · exact tracked_step hV hi ha hs
  have hkept : FilesKept V s.st := by
    intro e he ht hp r hr
    have hcontent : content s e.pre = fileOf s.st.files e.pre := content_eq (by simp [hidle]) e.pre
    have hsame := of_clean (X := fun x => valueAt (.obj s.st.cfgRoot) (segments e.pre ++ r) = x) htracked hstray he ht hp
      (hclean e he).1 (by simp [hidle, copying]) ((htracked.shape.spelled e he).append hr) (prefix_append _ r) rfl
    rwa [hcontent, drop_left] at hsame
  have hsettled : Settled V s.st := ⟨(tracked_idle hidle).mp htracked, hroot, fun e he => (hclean e he).2, hkept⟩
  exact hsettled.load.2

theorem clean_is_saved_onePass : ∃ s, run (step []) (boot empty) (.register (lit "s.a") :: onePass 11) = some s ∧
    ∀ q, Spelled Reboot.fewNames q → Kept q →
      valueAt (.obj (storageLoad s.st.rootFile s.st.files)) q = valueAt (.obj s.st.cfgRoot) q := by
  have hrun : run (step []) (boot empty) (.register (lit "s.a") :: onePass 11) = some _ := rfl
  exact ⟨_, hrun, clean_is_saved (by decide) synced_empty hrun (by decide +kernel) rfl (by decide +kernel) rfl (by decide +kernel)⟩

end Clean

end Spangap.Saves
