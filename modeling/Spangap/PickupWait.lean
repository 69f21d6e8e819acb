import Spangap.Pickup
import Mathlib.Tactic.Tauto

namespace Spangap.PickupWait

open List Option Function Runs Pickup

variable {s u v : State} {t : TaskHandle} {m m' : Msg} {i te len port : Nat} {sem queue : Bool}

def messages (e : Entry) : List Msg := e.inbox.getD [] ++ e.dispatching

/-- A pickup message of the task that some live task has yet to finish. -/
def Outstanding (s : State) (t : TaskHandle) (m : Msg) : Prop :=
  ∃ i, (s.slots i).task.isSome ∧ m ∈ messages (s.slots i) ∧ m.pickup = true ∧ m.sender = t

/-- A call with a pickup wait begins only when every earlier pickup message of
its task has been finished, or its receiver is gone. -/
def Settled (s : State) : Action → Prop
  | .send t _ _ _ .pickup _ _ _ => ∀ i < s.taskCount, (s.slots i).task.isSome →
      ∀ m ∈ messages (s.slots i), m.pickup = true → m.sender ≠ t
  | _ => True

instance (s : State) (a : Action) : Decidable (Settled s a) := by
  unfold Settled
  split <;> infer_instance

def Promise (s : State) (t : TaskHandle) : Call → Prop
  | .idle | .armed none _ _ _ => True
  | .armed (some me) _ _ _ =>
    (s.slots me).task = some t ∧ (s.slots me).pickupSem ≠ some true ∧ ∀ m, ¬ Outstanding s t m
  | .waiting me id =>
    (s.slots me).task = some t ∧ ((s.slots me).pickupSem = some true → id ∈ s.served) ∧
      ∀ m, Outstanding s t m → m.id = id

def Fresh (s : State) : Prop := ∀ i, s.taskCount ≤ i → s.slots i = unused

structure Inv (s : State) : Prop where
  promise : ∀ t, Promise s t (s.call t)
  fresh : Fresh s

theorem not_outstanding_of_settled (hF : Fresh s) {target : TaskHandle} {owned : Bool}
    (h : Settled s (.send t target port len .pickup owned sem queue)) (m : Msg) : ¬ Outstanding s t m := by
  rintro ⟨i, hlive, hm, hp, ht⟩
  by_cases hi : i < s.taskCount
  · exact h i hi hlive m hm hp ht
  · simp [hF i (Nat.le_of_not_lt hi), unused] at hlive

theorem inv_init : Inv init := ⟨fun _ => trivial, fun _ _ => rfl⟩

/-- A step as one task's promise sees it: the task keeps its slots, its
semaphores are not given and no message of it is added. -/
structure Keeps (s u : State) (t : TaskHandle) : Prop where
  task : ∀ i, (s.slots i).task = some t → (u.slots i).task = some t
  sem : ∀ i, (s.slots i).task = some t → (u.slots i).pickupSem = some true →
    (s.slots i).pickupSem = some true
  outstanding : ∀ m, Outstanding u t m → Outstanding s t m
  served : s.served ⊆ u.served

theorem Keeps.refl (s : State) (t : TaskHandle) : Keeps s s t :=
  ⟨fun _ h => h, fun _ _ h => h, fun _ h => h, List.Subset.refl _⟩

theorem Keeps.trans (h : Keeps s u t) (k : Keeps u v t) : Keeps s v t where
  task i ht := k.task i (h.task i ht)
  sem i ht hs := h.sem i ht (k.sem i (h.task i ht) hs)
  outstanding m hm := h.outstanding m (k.outstanding m hm)
  served := List.Subset.trans h.served k.served

theorem Keeps.promise {s u : State} {t : TaskHandle} (h : Keeps s u t) {c : Call}
    (hc : Promise s t c) : Promise u t c := by
  cases c with
  | idle => trivial
  | armed me te port len =>
    cases me with
    | none => trivial
    | some me =>
      obtain ⟨ht, hsem, ho⟩ := hc
      exact ⟨h.task me ht, fun hu => hsem (h.sem me ht hu), fun m hm => ho m (h.outstanding m hm)⟩
  | waiting me id =>
    obtain ⟨ht, hsem, ho⟩ := hc
    exact ⟨h.task me ht, fun hu => h.served (hsem (h.sem me ht hu)),
      fun m hm => ho m (h.outstanding m hm)⟩

theorem Inv.keeps (h : Inv s) (hcall : u.call = s.call) (hk : ∀ x, Keeps s u x) (hF : Fresh u) : Inv u := by
  refine ⟨fun x => ?_, hF⟩
  rw [hcall]
  exact (hk x).promise (h.promise x)

/-- One task's call changes, and the promises of the others are kept. -/
theorem Inv.setCall (h : Inv s) (hcall : u.call = s.call) (hk : ∀ x ≠ t, Keeps s u x) (hF : Fresh u) {c : Call}
    (hc : Promise u t c) : Inv (setCall u t c) := by
  refine ⟨fun x => ?_, hF⟩
  by_cases hx : x = t
  · subst x
    simp only [Pickup.setCall, update_self]
    exact hc
  · simp only [Pickup.setCall, update_of_ne hx, hcall]
    exact (hk x hx).promise (h.promise x)

theorem Inv.idle (h : Inv s) (t : TaskHandle) : Inv (Pickup.setCall s t .idle) :=
  h.setCall rfl (fun x _ => .refl s x) h.fresh trivial

theorem taskFind_task (h : taskFind s t = some i) : (s.slots i).task = some t := by
  simpa using find?_some h

@[simp] theorem setSlot_same (s : State) (i : Nat) (e : Entry) : (setSlot s i e).slots i = e := by
  simp [setSlot]

theorem setSlot_ne (s : State) {j : Nat} (e : Entry) (h : j ≠ i) : (setSlot s i e).slots j = s.slots j := by
  simp [setSlot, h]

theorem fresh_setSlot (h : Fresh s) (hi : s.slots i ≠ unused) (e : Entry) : Fresh (setSlot s i e) := by
  intro j hj
  have hne : j ≠ i := fun he => hi (he ▸ h j hj)
  rw [setSlot_ne s e hne]
  exact h j hj

theorem ne_unused_of_task (h : (s.slots i).task = some t) : s.slots i ≠ unused := by
  intro he
  simp [he, unused] at h

/-- Replacing one slot keeps a task's promise when the slot keeps its owner
and neither its semaphore nor its pickup messages grow. -/
theorem keeps_slot {n k : Nat} {e : Entry} (htask : (s.slots i).task = some t → e.task = some t)
    (hlive : e.task.isSome → (s.slots i).task.isSome ∨ messages e = [])
    (hsem : e.pickupSem = some true → (s.slots i).pickupSem = some true)
    (hmsgs : ∀ m ∈ messages e, m.pickup = true → m.sender = t → m ∈ messages (s.slots i)) :
    Keeps s (setSlot { s with taskCount := n, next := k } i e) t where
  task j ht := by
    by_cases hj : j = i
    · subst j; simpa using htask ht
    · rwa [setSlot_ne _ _ hj]
  sem j _ hp := by
    by_cases hj : j = i
    · subst j; exact hsem (by simpa using hp)
    · rwa [setSlot_ne _ _ hj] at hp
  outstanding m hm := by
    obtain ⟨j, hs, hmem, hp, ht⟩ := hm
    by_cases hj : j = i
    · subst j
      rw [setSlot_same] at hs hmem
      rcases hlive hs with hl | hl
      · exact ⟨i, hl, hmsgs m hmem hp ht, hp, ht⟩
      · simp [hl] at hmem
    · rw [setSlot_ne _ _ hj] at hs hmem
      exact ⟨j, hs, hmem, hp, ht⟩
  served := List.Subset.refl _

theorem taskFindOrCreate_spec {depth : Nat} {o : Option Nat} (h : taskFindOrCreate s t sem queue len depth = (u, o))
    (hF : Fresh s) :
    u.call = s.call ∧ (∀ x, Keeps s u x) ∧ Fresh u ∧ ∀ i, o = some i → (u.slots i).task = some t := by
  unfold taskFindOrCreate at h
  split at h
  next i hi =>
    cases h
    exact ⟨rfl, Keeps.refl s, hF, fun j hj => by cases hj; exact taskFind_task hi⟩
  next hn =>
    split at h
    next hfull =>
      cases h
      exact ⟨rfl, Keeps.refl s, hF, by simp⟩
    next hroom =>
      cases h
      have hz := hF s.taskCount (Nat.le_refl _)
      refine ⟨rfl, fun x => keeps_slot (by simp [hz, unused]) (fun _ => .inr ?_) ?_ ?_, fun j hj => ?_, fun i hi => ?_⟩
      · cases queue <;> simp [messages, newEntry]
      · cases sem <;> simp [newEntry]
      · cases queue <;> simp [messages, newEntry]
      · have hj' : s.taskCount + 1 ≤ j := hj
        rw [setSlot_ne _ _ (by omega)]
        exact hF j (by omega)
      · cases hi
        simp [newEntry]

theorem pickupArm_spec {wait : Wait} {o : Option (Option Nat)} (h : pickupArm s t sem queue wait = (u, o)) (hF : Fresh s) :
    u.call = s.call ∧ (∀ x, Keeps s u x) ∧ Fresh u ∧ ∀ me, o = some (some me) →
      wait = .pickup ∧ (u.slots me).task = some t ∧ (u.slots me).pickupSem = some false := by
  cases wait with
  | delivery =>
    cases h
    exact ⟨rfl, Keeps.refl s, hF, by simp⟩
  | pickup =>
    simp only [pickupArm] at h
    obtain ⟨v, o', hv⟩ : ∃ v o', taskFindOrCreate s t sem queue 0 0 = (v, o') := ⟨_, _, rfl⟩
    obtain ⟨hcall, hk, hFv, htask⟩ := taskFindOrCreate_spec hv hF
    rw [hv] at h
    cases o' with
    | none =>
      cases h
      exact ⟨hcall, hk, hFv, by simp⟩
    | some i =>
      have ht := htask i rfl
      dsimp only at h
      split at h
      next hn =>
        cases h
        exact ⟨hcall, hk, hFv, by simp⟩
      next b hb =>
        cases h
        refine ⟨hcall, fun x => (hk x).trans ?_, fresh_setSlot hFv (ne_unused_of_task ht) _, fun me hme => ?_⟩
        · exact keeps_slot id .inl (by simp) fun m hm _ _ => hm
        · cases hme
          simpa using ht

theorem sendAux_inv (h : Inv s) (t target : TaskHandle) (port len : Nat) (wait : Wait) (owned sem queue : Bool)
    (hset : Settled s (.send t target port len wait owned sem queue)) : Inv (sendAux s t target port len wait owned sem queue) := by
  unfold sendAux
  split
  · exact h
  next te hte =>
    split
    · exact h
    · split
      · exact h
      · obtain ⟨u, o, hu⟩ : ∃ u o, pickupArm s t sem queue wait = (u, o) := ⟨_, _, rfl⟩
        obtain ⟨hc, hk, hF, hme⟩ := pickupArm_spec hu h.fresh
        rw [hu]
        cases o with
        | none => exact h.keeps hc hk hF
        | some me =>
          refine h.setCall hc (fun x _ => hk x) hF ?_
          cases me with
          | none => trivial
          | some me =>
            obtain ⟨rfl, ht, hsem⟩ := hme me rfl
            exact ⟨ht, by simp [hsem], fun m hm => not_outstanding_of_settled h.fresh hset m ((hk t).outstanding m hm)⟩

section

variable (h : inboxEnqueue s te m = some u)
include h

theorem inboxEnqueue_spec : ∃ q, (s.slots te).inbox = some q ∧
      u = setSlot { s with next := s.next + 1 } te { s.slots te with inbox := some (q ++ [m]) } := by
  unfold inboxEnqueue at h
  split at h
  · simp at h
  next q hq =>
    split at h
    · exact ⟨q, hq, (some.inj h).symm⟩
    · simp at h

theorem inboxEnqueue_fresh (hF : Fresh s) : Fresh u := by
  obtain ⟨q, hq, rfl⟩ := inboxEnqueue_spec h
  refine fresh_setSlot (s := { s with next := s.next + 1 }) hF ?_ _
  intro he
  have he' : s.slots te = unused := he
  simp [he', unused] at hq

theorem inboxEnqueue_outstanding (ho : Outstanding u t m') : Outstanding s t m' ∨ m' = m := by
  obtain ⟨q, hq, rfl⟩ := inboxEnqueue_spec h
  obtain ⟨j, hs, hmem, hp, ht⟩ := ho
  by_cases hj : j = te
  · subst j
    simp only [setSlot_same, messages, getD_some, append_assoc, mem_append,
      mem_cons, not_mem_nil, or_false] at hs hmem
    rcases hmem with hm | hm | hm
    · exact .inl ⟨te, hs, by simp [messages, hq, hm], hp, ht⟩
    · exact .inr hm
    · exact .inl ⟨te, hs, by simp [messages, hm], hp, ht⟩
  · rw [setSlot_ne _ _ hj] at hs hmem
    exact .inl ⟨j, hs, hmem, hp, ht⟩

theorem inboxEnqueue_same : u.call = s.call ∧ u.served = s.served ∧
    ∀ i, (u.slots i).task = (s.slots i).task ∧ (u.slots i).pickupSem = (s.slots i).pickupSem := by
  obtain ⟨q, hq, rfl⟩ := inboxEnqueue_spec h
  refine ⟨rfl, rfl, fun i => ?_⟩
  by_cases hi : i = te
  · subst i; simp
  · simp [setSlot, hi]

theorem inboxEnqueue_keeps (hm : m.pickup = true → m.sender ≠ t) : Keeps s u t := by
  obtain ⟨-, hserved, hslot⟩ := inboxEnqueue_same h
  refine ⟨fun i ht => (hslot i).1.trans ht, fun i _ hp => (hslot i).2 ▸ hp, fun m' ho => ?_, fun _ hid => hserved ▸ hid⟩
  refine (inboxEnqueue_outstanding h ho).resolve_right ?_
  rintro rfl
  obtain ⟨-, -, -, hp, ht⟩ := ho
  exact hm hp ht

end

theorem enqueueAux_inv (h : Inv s) {me : Option Nat} (hc : s.call t = .armed me te port len)
    (hu : enqueueAux s t me te port len = some u) : Inv u := by
  unfold enqueueAux at hu
  split at hu
  · simp at hu
  · obtain ⟨v, hv, rfl⟩ := map_eq_some_iff.mp hu
    obtain ⟨hcall, -, hslot⟩ := inboxEnqueue_same hv
    refine h.setCall hcall (fun x hx => inboxEnqueue_keeps hv fun _ he => hx he.symm) (inboxEnqueue_fresh hv h.fresh) ?_
    cases me with
    | none => trivial
    | some me =>
      have hk := h.promise t
      rw [hc] at hk
      obtain ⟨htask, hsem, hno⟩ := hk
      refine ⟨(hslot me).1.trans htask, fun hp => absurd ((hslot me).2 ▸ hp) hsem, fun m' hm' => ?_⟩
      -- nothing of this task was outstanding, so the new message is the only one
      rcases inboxEnqueue_outstanding hv hm' with ho | rfl
      · exact absurd ho (hno m')
      · rfl

theorem givePickup_spec (s : State) (m : Msg) : (givePickup s m).call = s.call ∧ (givePickup s m).served = s.served ∧
      (givePickup s m).taskCount = s.taskCount ∧
      ∀ j, (givePickup s m).slots j = s.slots j ∨
        m.pickup = true ∧ (s.slots j).task = some m.sender ∧
          (givePickup s m).slots j = { s.slots j with pickupSem := some true } := by
  unfold givePickup
  split
  next hp =>
    split
    · exact ⟨rfl, rfl, rfl, fun j => .inl rfl⟩
    next i hi =>
      split
      · refine ⟨rfl, rfl, rfl, fun j => ?_⟩
        by_cases hj : j = i
        · subst j
          exact .inr ⟨hp, taskFind_task hi, by simp⟩
        · exact .inl (setSlot_ne s _ hj)
      · exact ⟨rfl, rfl, rfl, fun j => .inl rfl⟩
  · exact ⟨rfl, rfl, rfl, fun j => .inl rfl⟩

/-- Finishing a message serves it and gives the semaphore of its sender, whose
call, by its promise, is waiting for this very message or for none. -/
theorem finish_inv (h : Inv s) {ms : List Msg} (hi : taskFind s t = some i) (hd : (s.slots i).dispatching = m :: ms) :
    Inv { givePickup (setSlot s i { s.slots i with dispatching := ms }) m with
      served := m.id :: (givePickup (setSlot s i { s.slots i with dispatching := ms }) m).served } := by
  have ht := taskFind_task hi
  have hpop (x : TaskHandle) : Keeps s (setSlot s i { s.slots i with dispatching := ms }) x := by
    refine keeps_slot id .inl id fun m' hm' _ _ => ?_
    simp only [messages, mem_append] at hm' ⊢
    rw [hd]
    exact hm'.imp_right (mem_cons_of_mem m)
  have hwas (hp : m.pickup = true) : Outstanding s m.sender m :=
    ⟨i, by simp [ht], by simp [messages, hd], hp, rfl⟩
  have hFu : Fresh (setSlot s i { s.slots i with dispatching := ms }) := fresh_setSlot h.fresh (ne_unused_of_task ht) _
  obtain ⟨hc, hs, hn, hslot⟩ := givePickup_spec (setSlot s i { s.slots i with dispatching := ms }) m
  have hgiven (x : TaskHandle) (me : Nat) (htask : (s.slots me).task = some x) :
      ((givePickup (setSlot s i { s.slots i with dispatching := ms }) m).slots me).task = some x ∧
        (((givePickup (setSlot s i { s.slots i with dispatching := ms }) m).slots me).pickupSem = some true →
          (s.slots me).pickupSem = some true ∨ Outstanding s x m) := by
    have htask' := (hpop x).task me htask
    rcases hslot me with he | ⟨hp, hsender, he⟩
    · rw [he]
      exact ⟨htask', fun hg => .inl ((hpop x).sem me htask hg)⟩
    · rw [he]
      cases htask'.symm.trans hsender
      exact ⟨htask', fun _ => .inr (hwas hp)⟩
  have hstill (x : TaskHandle) (m' : Msg)
      (ho : Outstanding (givePickup (setSlot s i { s.slots i with dispatching := ms }) m) x m') : Outstanding s x m' := by
    refine (hpop x).outstanding m' ?_
    obtain ⟨j, hj, hmem, hp, hx⟩ := ho
    rcases hslot j with he | ⟨_, _, he⟩ <;> rw [he] at hj hmem <;> exact ⟨j, hj, hmem, hp, hx⟩
  generalize givePickup (setSlot s i { s.slots i with dispatching := ms }) m = v at *
  refine ⟨fun x => ?_, fun j hj => ?_⟩
  · have hx := h.promise x
    change Promise _ x (v.call x)
    rw [hc]
    change Promise _ x (s.call x)
    cases hcx : s.call x with
    | idle => trivial
    | armed me te port len =>
      cases me with
      | none => trivial
      | some me =>
        rw [hcx] at hx
        obtain ⟨htask, hsem, hno⟩ := hx
        obtain ⟨htask', hsem'⟩ := hgiven x me htask
        exact ⟨htask', fun hg => (hsem' hg).elim hsem (hno m), fun m' hm' => hno m' (hstill x m' hm')⟩
    | waiting me id =>
      rw [hcx] at hx
      obtain ⟨htask, hsem, hone⟩ := hx
      obtain ⟨htask', hsem'⟩ := hgiven x me htask
      refine ⟨htask', fun hg => ?_, fun m' hm' => hone m' (hstill x m' hm')⟩
      rcases hsem' hg with hg | ho
      · exact mem_cons_of_mem _ (hs ▸ hsem hg)
      · exact hone m ho ▸ mem_cons_self
  · have hj' := hFu j (hn ▸ hj)
    rcases hslot j with he | ⟨_, hsender, _⟩
    · exact he.trans hj'
    · simp [hj', unused] at hsender

theorem step_inv {a : Action} (h : Inv s) (hset : Settled s a) (hu : step s a = some u) : Inv u := by
  cases a with
  | register t sem queue len depth =>
    simp only [step, ite_none_right_eq_some, some.injEq] at hu
    obtain ⟨_, rfl⟩ := hu
    have hv : taskFindOrCreate s t sem queue len depth = (_, _) := rfl
    obtain ⟨hc, hk, hF, _⟩ := taskFindOrCreate_spec hv h.fresh
    exact h.keeps hc hk hF
  | onAux t sem queue port =>
    simp only [step, ite_none_right_eq_some] at hu
    obtain ⟨v, o, hv⟩ : ∃ v o, taskFindOrCreate s t sem queue 0 0 = (v, o) := ⟨_, _, rfl⟩
    obtain ⟨hc, hk, hF, ht⟩ := taskFindOrCreate_spec hv h.fresh
    rw [hv] at hu
    obtain ⟨_, hu⟩ := hu
    cases o with
    | none =>
      cases hu
      exact h.keeps hc hk hF
    | some i =>
      cases hu
      refine h.keeps hc (fun x => (hk x).trans ?_) (fresh_setSlot hF (ne_unused_of_task (ht i rfl)) _)
      unfold addPort
      split <;> exact keeps_slot id .inl id fun m hm _ _ => hm
  | die t =>
    simp only [step] at hu
    split at hu
    · cases hu
      exact h.idle t
    next i hi =>
      cases hu
      have ht := taskFind_task hi
      refine h.setCall (u := setSlot s i _) rfl (fun x hx => ?_) (fresh_setSlot h.fresh (ne_unused_of_task ht) _) trivial
      refine keeps_slot (fun he => ?_) (by simp) id fun m hm _ _ => hm
      rw [ht, some.injEq] at he
      exact absurd he.symm hx
  | send t target port len wait owned sem queue =>
    simp only [step, ite_none_right_eq_some, some.injEq] at hu
    obtain ⟨_, rfl⟩ := hu
    exact sendAux_inv h t target port len wait owned sem queue hset
  | enqueue t =>
    simp only [step] at hu
    split at hu
    next me te port len hc => exact enqueueAux_inv h hc hu
    · simp at hu
  | sendFail t =>
    simp only [step] at hu
    split at hu
    · cases hu
      exact h.idle t
    · simp at hu
  | post t target kind port len =>
    simp only [step, ite_none_right_eq_some, bind_eq_some_iff] at hu
    obtain ⟨_, te, _, hv⟩ := hu
    exact h.keeps (inboxEnqueue_same hv).1 (fun x => inboxEnqueue_keeps hv (by simp)) (inboxEnqueue_fresh hv h.fresh)
  | take t =>
    simp only [step] at hu
    split at hu
    next me id hc =>
      simp only [ite_none_right_eq_some, some.injEq] at hu
      obtain ⟨hsem, rfl⟩ := hu
      refine h.setCall (u := setSlot s me _) rfl (fun x _ => ?_) (fresh_setSlot h.fresh (fun he => ?_) _) trivial
      · exact keeps_slot (fun ht => ht) .inl (by simp) fun m hm _ _ => hm
      · simp [he, unused] at hsem
    · simp at hu
  | timeout t =>
    simp only [step] at hu
    split at hu
    next me id hc =>
      simp only [ite_none_left_eq_some, some.injEq] at hu
      obtain ⟨_, rfl⟩ := hu
      exact h.idle t
    · simp at hu
  | receive t =>
    simp only [step, ite_none_right_eq_some, bind_eq_some_iff] at hu
    obtain ⟨_, i, hi, hu⟩ := hu
    split at hu
    next m q hq =>
      cases hu
      refine h.keeps rfl (fun x => keeps_slot id .inl id fun m' hm' _ _ => ?_)
        (fresh_setSlot h.fresh (ne_unused_of_task (taskFind_task hi)) _)
      simp only [messages, getD_some, mem_append, mem_cons, hq] at hm' ⊢
      tauto
    · simp at hu
  | finish t =>
    simp only [step, ite_none_right_eq_some, bind_eq_some_iff] at hu
    obtain ⟨_, i, hi, hu⟩ := hu
    split at hu
    next m ms hd =>
      cases hu
      exact finish_inv h hi hd
    · simp at hu

/-- In a run, every wait that is answered is answered after its own message
was finished. -/
def Tied (as : List Action) : Prop :=
  ∀ s t me id u, run step init as = some s → s.call t = .waiting me id →
    step s (.take t) = some u → id ∈ s.served

/-- The pickup wait is tied to its own message in every run whose pickup sends
begin with no earlier pickup message of the same task outstanding. -/
theorem pickup_tied (as : List Action) (h : Meets step Settled init as) : Tied as := by
  intro s t me id u hrun hc htake
  have hinv := run_invariant (fun _ _ _ => step_inv) inv_init h hrun
  have hp := hinv.promise t
  rw [hc] at hp
  simp only [step, hc, ite_none_right_eq_some, some.injEq] at htake
  exact hp.2.1 htake.1

/-- Tasks 1 and 2 receive on port 7; task 0 sends to each of them in turn and
gives up on the first. The late finish of the first message then answers the
wait for the second, which is still queued. -/
def staleGive : List Action :=
  [.register 1 true true 0 0, .onAux 1 true true 7, .register 2 true true 0 0, .onAux 2 true true 7,
    .send 0 1 7 4 .pickup false true true, .enqueue 0, .timeout 0,
    .send 0 2 7 4 .pickup false true true, .enqueue 0, .receive 1, .finish 1]

theorem pickup_untied : ¬ ∀ as, Tied as := by
  intro h
  have hid := h staleGive _ 0 2 1 _ rfl rfl rfl
  exact absurd hid (by decide)

/-- The same two sends, with the first message finished before the second call. -/
def settledSends : List Action :=
  [.register 1 true true 0 0, .onAux 1 true true 7, .register 2 true true 0 0, .onAux 2 true true 7,
    .send 0 1 7 4 .pickup false true true, .enqueue 0, .timeout 0, .receive 1, .finish 1,
    .send 0 2 7 4 .pickup false true true, .enqueue 0, .receive 2, .finish 2]

theorem pickup_tied_settledSends : Meets step Settled init settledSends ∧ Tied settledSends :=
  ⟨by decide, pickup_tied settledSends (by decide)⟩

end Spangap.PickupWait
