import Spangap.Sessions

namespace Spangap.SessionRuns

open List Option Function CliSlot Sessions

variable {p : Pass} {s t : State} {handle conn : Nat} {i : SlotId} {job : Job}

/-- What sessions that are kept apart do: a new one starts from nothing but its
connect; input, output and closes stay with the connection they come from, or are
lost on a slot that belongs to nobody any more. -/
def Right : Note → Prop
  | .opened _ handle how cl => cl = how.session handle .blank
  | .input conn session => session = none ∨ session = some conn
  | .output conn peer => peer = none ∨ peer = some conn
  | .closing conn session => session = none ∨ session = some conn
  | .stray _ => False

instance : DecidablePred Right := fun e => by
  cases e <;> dsimp only [Right] <;> infer_instance

/-- A receive on its way: its slot is still that of its connection, or nobody's. -/
structure PassOk (s : State) (p : Pass) : Prop where
  active : s.cliActiveSlot = none ∨ s.cliActiveSlot = some p.slot
  mine : s.owner p.slot = none ∨ s.owner p.slot = some p.conn
  reading : ∀ job h, p.job = some job → job.read = some h → s.live h = none ∨ s.live h = some p.conn
  hangs : ∀ job, p.job = some job → p.branch = .ansi → job.hangup = true → s.cliActiveSlot = some p.slot

structure Inv (s : State) : Prop where
  held : ∀ i h, (s.slots i).itsHandle = some h → ∃ k, s.owner i = some k ∧ (s.live h = none ∨ s.live h = some k)
  free : ∀ i, (s.slots i).itsHandle = none → s.owner i = none
  idle : s.pass = none → s.cliActiveSlot = none
  pass : ∀ p, s.pass = some p → PassOk s p
  log : ∀ e ∈ s.log, Right e

theorem PassOk.congr (h : PassOk s p) (howner : t.owner = s.owner) (hlive : t.live = s.live)
    (hactive : t.cliActiveSlot = s.cliActiveSlot) : PassOk t p :=
  ⟨hactive ▸ h.active, howner ▸ h.mine, hlive ▸ h.reading, hactive ▸ h.hangs⟩

theorem Inv.elsewhere (h : Inv s) (hist : List CJson.Name) (phase : Phase) : Inv { s with hist := hist, phase := phase } :=
  { h with pass := fun p hp => (h.pass p hp).congr rfl rfl rfl }

theorem Inv.note (h : Inv s) {e : Note} (he : Right e) : Inv (s.note e) :=
  ⟨h.held, h.free, h.idle, fun p hp => (h.pass p hp).congr rfl rfl rfl, forall_mem_append.mpr ⟨h.log, forall_mem_singleton.mpr he⟩⟩

theorem Inv.withSlot (h : Inv s) (i : SlotId) {f : Slot → Slot} (hf : (f (s.slots i)).itsHandle = (s.slots i).itsHandle) :
    Inv (s.withSlot i f) := by
  have hsame : ∀ j, ((s.withSlot i f).slots j).itsHandle = (s.slots j).itsHandle := by
    intro j
    rcases eq_or_ne j i with rfl | hj
    · rw [State.slots_withSlot_self, hf]
    · rw [State.slots_withSlot_ne _ _ hj]
  refine ⟨fun j x hx => ?_, fun j hj => ?_, h.idle, fun p hp => (h.pass p hp).congr rfl rfl rfl, h.log⟩
  · rw [hsame] at hx
    exact h.held j x hx
  · rw [hsame] at hj
    exact h.free j hj

theorem Inv.withPass (h : Inv s) (hp : PassOk s p) : Inv { s with pass := some p } := by
  refine ⟨h.held, h.free, by simp, fun p' hp' => ?_, h.log⟩
  cases hp'
  exact hp.congr rfl rfl rfl

theorem PassOk.shorten (h : PassOk s p) (rest : List UInt8) : PassOk s { p with rest := rest } :=
  { h with }

theorem PassOk.quit (h : PassOk s p) (rest : List UInt8) : PassOk s { p with rest := rest, job := none } :=
  ⟨h.active, h.mine, by simp, by simp⟩

theorem PassOk.run (h : PassOk s p) (rest : List UInt8) (hangup : Bool)
    (hhangs : p.branch = .ansi → hangup = true → s.cliActiveSlot = some p.slot) :
    PassOk s { p with rest := rest, job := some ⟨hangup, none⟩ } := by
  refine ⟨h.active, h.mine, fun job x hjob hx => ?_, fun job hjob => ?_⟩
  · cases hjob
    simp at hx
  · cases hjob
    exact hhangs

theorem Inv.clearSlot (h : Inv s) (i : SlotId) : Inv (s.clearSlot i) := by
  refine ⟨fun j x hx => ?_, fun j hj => ?_, h.idle, fun p hp => ?_, h.log⟩
  · rcases eq_or_ne j i with rfl | hne
    · rw [State.slots_clearSlot_self] at hx
      simp [Slot.blank] at hx
    · rw [State.slots_clearSlot_ne _ hne] at hx
      rw [State.owner_clearSlot_ne _ hne]
      exact h.held j x hx
  · rcases eq_or_ne j i with rfl | hne
    · exact State.owner_clearSlot_self s
    · rw [State.slots_clearSlot_ne _ hne] at hj
      rw [State.owner_clearSlot_ne _ hne]
      exact h.free j hj
  · obtain ⟨hactive, hmine, hreading, hhangs⟩ := h.pass p hp
    refine ⟨hactive, ?_, hreading, hhangs⟩
    rcases eq_or_ne p.slot i with heq | hne
    · rw [heq]
      exact .inl (State.owner_clearSlot_self s)
    · rw [State.owner_clearSlot_ne _ hne]
      exact hmine

theorem Inv.gone (h : Inv s) (handle : Nat) : Inv { s with live := update s.live handle none } := by
  have hless : ∀ {x k}, s.live x = none ∨ s.live x = some k →
      update s.live handle none x = none ∨ update s.live handle none x = some k := by
    intro x k hx
    rcases eq_or_ne x handle with rfl | hne
    · exact .inl (update_self ..)
    · rwa [update_of_ne hne]
  refine ⟨fun i x hx => ?_, h.free, h.idle, fun p hp => ?_, h.log⟩
  · obtain ⟨k, hk, hlive⟩ := h.held i x hx
    exact ⟨k, hk, hless hlive⟩
  · obtain ⟨hactive, hmine, hreading, hhangs⟩ := h.pass p hp
    exact ⟨hactive, hmine, fun job x hjob hx => hless (hreading job x hjob hx), hhangs⟩

theorem Inv.comes (h : Inv s) (hslots : ∀ i, (s.slots i).itsHandle ≠ some handle)
    (hreads : ∀ p job, s.pass = some p → p.job = some job → job.read ≠ some handle) (k : Nat) :
    Inv { s with live := update s.live handle (some k), next := s.next + 1 } := by
  refine ⟨fun i x hx => ?_, h.free, h.idle, fun p hp => ?_, h.log⟩
  · have hne : x ≠ handle := fun heq => hslots i (heq ▸ hx)
    show ∃ k', s.owner i = some k' ∧ (update s.live handle (some k) x = none ∨ update s.live handle (some k) x = some k')
    rw [update_of_ne hne]
    exact h.held i x hx
  · obtain ⟨hactive, hmine, hreading, hhangs⟩ := h.pass p hp
    refine ⟨hactive, hmine, fun job x hjob hx => ?_, hhangs⟩
    have hne : x ≠ handle := fun heq => hreads p job hp hjob (heq ▸ hx)
    show update s.live handle (some k) x = none ∨ update s.live handle (some k) x = some p.conn
    rw [update_of_ne hne]
    exact hreading job x hjob hx

section Sessions

variable {how : Opening}

theorem itsHandle_session (how : Opening) (handle : Nat) (cl : Slot) : (how.session handle cl).itsHandle = some handle := by
  cases how with
  | tcp data =>
    simp only [Opening.session, cliTcpConnect]
    split <;> rfl
  | dc => rfl

theorem session_blank (how : Opening) (handle : Nat) {cl : Slot} (hcl : cl.pendingClose = false) :
    how.session handle cl = how.session handle .blank := by
  cases how with
  | tcp data =>
    simp only [Opening.session, cliTcpConnect, hcl]
    split <;> rfl
  | dc => simp only [Opening.session, cliDcConnect, hcl, Slot.blank]

/-- A new client gets a slot with no close pending and a handle that no slot and no read
still has; it is not given the slot of the command that runs, and does not leave a command
without a slot that is to close its session. -/
def CarefulConnect (s : State) (handle : Nat) (how : Opening) : Prop :=
  ∀ i ∈ cliAllocSlot s, (s.slots i).pendingClose = false ∧ (∀ j, (s.slots j).itsHandle ≠ some handle) ∧
    ∀ p ∈ s.pass, p.slot ≠ i ∧ ∀ job ∈ p.job, job.read ≠ some handle ∧
      (p.branch = .ansi → job.hangup = true → prompts (how.session handle (s.slots i)) = false)
  deriving Decidable

theorem inv_onConnect (h : Inv s) (hok : CarefulConnect s handle how) : Inv (onConnect s handle how) := by
  unfold onConnect
  split
  · exact h
  next i hi =>
    obtain ⟨hpending, hslots, hpass⟩ := hok i hi
    have hhandle := itsHandle_session how handle (s.slots i)
    have hlog : Right (.opened s.next handle how (how.session handle (s.slots i))) := session_blank how handle hpending
    refine ⟨fun j x hx => ?_, fun j hj => ?_, fun hnone => ?_, fun p hp => ?_, fun e he => ?_⟩
    · show ∃ k, update s.owner i (some s.next) j = some k ∧ (update s.live handle (some s.next) x = none ∨
        update s.live handle (some s.next) x = some k)
      change (update s.slots i (how.session handle (s.slots i)) j).itsHandle = some x at hx
      rcases eq_or_ne j i with rfl | hne
      · rw [update_self, hhandle] at hx
        cases hx
        exact ⟨s.next, update_self .., .inr (update_self ..)⟩
      · rw [update_of_ne hne] at hx
        have hx' : x ≠ handle := fun heq => hslots j (heq ▸ hx)
        rw [update_of_ne hne, update_of_ne hx']
        exact h.held j x hx
    · change (update s.slots i (how.session handle (s.slots i)) j).itsHandle = none at hj
      rcases eq_or_ne j i with rfl | hne
      · rw [update_self, hhandle] at hj
        simp at hj
      · rw [update_of_ne hne] at hj
        exact (update_of_ne hne ..).trans (h.free j hj)
    · show (if prompts (how.session handle (s.slots i)) then none else s.cliActiveSlot) = none
      rw [h.idle hnone, ite_self]
    · obtain ⟨hactive, hmine, hreading, hhangs⟩ := h.pass p hp
      obtain ⟨hne, hjob⟩ := hpass p hp
      refine ⟨?_, ?_, fun job x hj hx => ?_, fun job hj hbranch hhang => ?_⟩
      · show (if _ then none else s.cliActiveSlot) = none ∨ (if _ then none else s.cliActiveSlot) = some p.slot
        split
        · exact .inl rfl
        · exact hactive
      · show update s.owner i (some s.next) p.slot = none ∨ update s.owner i (some s.next) p.slot = some p.conn
        rw [update_of_ne hne]
        exact hmine
      · show update s.live handle (some s.next) x = none ∨ update s.live handle (some s.next) x = some p.conn
        have hx' : x ≠ handle := fun heq => (hjob job hj).1 (heq ▸ hx)
        rw [update_of_ne hx']
        exact hreading job x hj hx
      · show (if prompts (how.session handle (s.slots i)) then none else s.cliActiveSlot) = some p.slot
        rw [(hjob job hj).2 hbranch hhang]
        exact hhangs job hj hbranch hhang
    · rcases mem_append.mp he with he | he
      · exact h.log e he
      · rw [mem_singleton.mp he]
        exact hlog

def CarefulDispatch (s : State) : Dispatch → Prop
  | .connect handle how => CarefulConnect s handle how
  | .disconnect _ => True

instance (s : State) (d : Dispatch) : Decidable (CarefulDispatch s d) := by
  cases d <;> dsimp only [CarefulDispatch] <;> infer_instance

theorem inv_dispatch (h : Inv s) {d : Dispatch} (hok : CarefulDispatch s d) : Inv (dispatch s d) := by
  cases d with
  | connect handle how => exact inv_onConnect h hok
  | disconnect ref => exact h.clearSlot ref

end Sessions

theorem inv_setPendingClose (h : Inv s) (hi : s.owner i = none ∨ s.owner i = some conn) :
    Inv (setPendingClose s conn i) :=
  (h.withSlot i rfl).note hi

theorem inv_cliRequestSessionEnd (h : Inv s) (hp : PassOk s p) : Inv (cliRequestSessionEnd s p.conn) := by
  unfold cliRequestSessionEnd
  split
  · exact h
  next i hi =>
    rcases hp.active with hnone | hsome
    · exact absurd (hi.symm.trans hnone) (by simp)
    · cases hi.symm.trans hsome
      exact inv_setPendingClose h hp.mine

theorem target_right (h : Inv s) (hp : PassOk s p) : target s = none ∨ target s = some p.conn := by
  unfold target
  rcases hp.active with hnone | hsome
  · rw [hnone]
    exact .inl rfl
  · rw [hsome, bind_some]
    cases hhandle : (s.slots p.slot).itsHandle with
    | none => exact .inl rfl
    | some x =>
      obtain ⟨k, hk, hlive⟩ := h.held p.slot x hhandle
      rcases hp.mine with hmine | hmine
      · exact absurd (hk.symm.trans hmine) (by simp)
      · cases hk.symm.trans hmine
        exact hlive

theorem inv_editByte (h : Inv s) (hp : PassOk s p) (c : UInt8) (rest : List UInt8) (suffix : CJson.Name) :
    Inv (editByte s p c rest suffix) := by
  unfold editByte
  dsimp only
  generalize cliEditChar (fun _ _ => suffix) s.hist (s.slots p.slot).edit c = r
  have hnoted : Inv ((s.withSlot p.slot fun cl => { cl with edit := r.1 }).note (.input p.conn (s.owner p.slot))) :=
    (h.withSlot p.slot rfl).note hp.mine
  have hok : PassOk ((s.withSlot p.slot fun cl => { cl with edit := r.1 }).note (.input p.conn (s.owner p.slot))) p :=
    hp.congr rfl rfl rfl
  generalize (s.withSlot p.slot fun cl => { cl with edit := r.1 }).note _ = u at hnoted hok ⊢
  have hpassed : Inv { u with pass := some { p with rest := rest } } := hnoted.withPass (hok.shorten rest)
  have hended : Inv (cliRequestSessionEnd { u with pass := some { p with rest := rest } } p.conn) :=
    inv_cliRequestSessionEnd (p := p) hpassed (hok.congr rfl rfl rfl)
  split
  · exact hpassed
  · exact hended
  · split
    · exact hended
    · exact hpassed
  next line _ =>
    refine Inv.elsewhere (hnoted.withPass (hok.run rest _ fun _ hhang => ?_)) (histAdd line u.hist) u.phase
    rcases hok.active with hnone | hsome
    · rw [hnone] at hhang
      simp at hhang
    · exact hsome

theorem inv_lineByte (h : Inv s) (hp : PassOk s p) (hbranch : p.branch = .line) (c : UInt8) (rest : List UInt8) :
    Inv (lineByte s p c rest) := by
  unfold lineByte
  dsimp only
  have hnoted : Inv (s.note (.input p.conn (s.owner p.slot))) := h.note hp.mine
  have hok : PassOk (s.note (.input p.conn (s.owner p.slot))) p := hp.congr rfl rfl rfl
  have hpassed := hnoted.withPass (hok.shorten rest)
  split
  · exact inv_setPendingClose (hnoted.withPass (hok.shorten [])) hp.mine
  split
  · split
    · exact hpassed
    · refine hnoted.withPass (hok.run rest _ fun hansi => ?_)
      exact absurd (hbranch.symm.trans hansi) (by simp)
  split
  · exact hpassed.withSlot p.slot rfl
  · exact hpassed

theorem inv_commandDone (h : Inv s) (hp : PassOk s p) (hjob : p.job = some job) : Inv (commandDone s p job) := by
  unfold commandDone
  split
  next hbranch =>
    have hquit : Inv { s with pass := some { p with job := none } } := h.withPass (hp.quit p.rest)
    dsimp only
    split
    next hhang =>
      have hactive := hp.hangs job hjob hbranch hhang
      split
      next i hi =>
        cases hi.symm.trans hactive
        exact inv_setPendingClose hquit hp.mine
      next hnone => exact absurd (hnone.symm.trans hactive) (by simp)
    · exact hquit
  · have hnoted : Inv ((s.withSlot p.slot fun cl => { cl with lineBuf := [] }).note (.input p.conn (s.owner p.slot))) :=
      (h.withSlot p.slot rfl).note hp.mine
    have hok : PassOk ((s.withSlot p.slot fun cl => { cl with lineBuf := [] }).note (.input p.conn (s.owner p.slot))) p :=
      hp.congr rfl rfl rfl
    dsimp only
    split
    · exact inv_setPendingClose (hnoted.withPass (hok.quit [])) hp.mine
    · exact hnoted.withPass (hok.quit p.rest)

/-- Connections that come up while sessions are at work keep away from what is still in use. -/
def Careful (s : State) : Action → Prop
  | .poll d => CarefulDispatch s d
  | .readPoll d => CarefulDispatch s d
  | .dial handle => ∀ i, (s.slots i).itsHandle ≠ some handle
  | _ => True

instance (s : State) (a : Action) : Decidable (Careful s a) := by
  delta Careful
  split <;> infer_instance

section Steps

variable {a : Action}

theorem inv_commandStep (h : Inv s) (hs : s.pass = some p) (hjob : p.job = some job) (hok : Careful s a)
    (ht : commandStep s p job a = some t) : Inv t := by
  have hp := h.pass p hs
  cases a with
  | exit =>
    obtain ⟨-, rfl⟩ := ite_none_right_eq_some.mp ht |>.imp_right some.inj
    exact inv_cliRequestSessionEnd h hp
  | dial handle =>
    obtain ⟨⟨hread, -⟩, rfl⟩ := ite_none_right_eq_some.mp ht |>.imp_right some.inj
    refine h.comes hok (fun p' job' hp' hjob' => ?_) s.next
    cases hs.symm.trans hp'
    cases hjob.symm.trans hjob'
    rw [hread]
    simp
  | read =>
    obtain ⟨-, rfl⟩ := ite_none_right_eq_some.mp ht |>.imp_right some.inj
    refine h.withPass ⟨hp.active, hp.mine, fun job' x hjob' hx => ?_, fun job' hjob' => ?_⟩
    · cases hjob'
      have htarget := target_right h hp
      change (s.cliActiveSlot.bind fun i => (s.slots i).itsHandle) = some x at hx
      rwa [target, ← bind_assoc, hx, bind_some] at htarget
    · cases hjob'
      exact hp.hangs job hjob
  | readPoll d =>
    obtain ⟨-, rfl⟩ := ite_none_right_eq_some.mp ht |>.imp_right some.inj
    exact inv_dispatch h hok
  | readRecv =>
    obtain ⟨conn, hconn, rfl⟩ := map_eq_some_iff.mp ht
    obtain ⟨x, hx, hlive⟩ := bind_eq_some_iff.mp hconn
    refine h.note (.inr ?_)
    rcases hp.reading job x hjob hx with hnone | hsome
    · exact absurd (hlive.symm.trans hnone) (by simp)
    · exact hsome.symm.trans hlive
  | readDone =>
    cases ht
    refine h.withPass ⟨hp.active, hp.mine, fun job' x hjob' hx => ?_, fun job' hjob' => ?_⟩
    · cases hjob'
      simp at hx
    · cases hjob'
      exact hp.hangs job hjob
  | done =>
    obtain ⟨-, rfl⟩ := ite_none_right_eq_some.mp ht |>.imp_right some.inj
    exact inv_commandDone h hp hjob
  | poll | scan | visit | skip | byte | leave | sweep | write | gone => simp [commandStep] at ht

theorem inv_write (h : Inv s) (hs : s.pass = some p) : Inv (itsCliWrite s p.conn) := h.note (target_right h (h.pass p hs))

theorem inv_passStep (h : Inv s) (hs : s.pass = some p) (hok : Careful s a) (ht : passStep s p a = some t) : Inv t := by
  have hp := h.pass p hs
  unfold passStep at ht
  split at ht
  · exact some.inj ht ▸ inv_write h hs
  · split at ht
    next job hjob => exact inv_commandStep h hs hjob hok ht
    · split at ht
      next c rest suffix _ _ =>
        cases ht
        cases hbranch : p.branch with
        | ansi => exact inv_editByte h hp c rest suffix
        | line => exact inv_lineByte h hp hbranch c rest
      · cases ht
        exact ⟨h.held, h.free, fun _ => rfl, by simp, h.log⟩
      · simp at ht

theorem itsHandle_login (auth : Nat → CJson.Name → Bool) (k : Nat) (cl : Slot) (buf : List UInt8) :
    (cliHandleLoginInput auth k cl buf).1.itsHandle = cl.itsHandle := by
  fun_induction cliHandleLoginInput auth k cl buf <;> first | rfl | assumption

theorem inv_visit (h : Inv s) (hs : s.pass = none)
    (hconn : (s.slots i).itsHandle.bind s.live = some conn) (auth : Nat → CJson.Name → Bool) (buf : List UInt8) :
    Inv (visit s i conn auth buf) := by
  obtain ⟨x, hx, hlive⟩ := bind_eq_some_iff.mp hconn
  obtain ⟨k, hk, hlive'⟩ := h.held i x hx
  have howner : s.owner i = some conn := by
    rcases hlive' with hnone | hsome
    · exact absurd (hlive.symm.trans hnone) (by simp)
    · rw [hk, ← hsome, hlive]
  unfold visit
  dsimp only
  split
  · have hnoted : Inv ((s.withSlot i fun _ => (cliHandleLoginInput auth 0 (s.slots i) buf).1).note (.input conn (s.owner i))) :=
      (h.withSlot i (itsHandle_login auth 0 (s.slots i) buf)).note (.inr howner)
    have hpass : (login s i conn auth buf).pass = none := by
      unfold login
      dsimp only
      split <;> exact hs
    have hlogin : Inv (login s i conn auth buf) := by
      unfold login
      dsimp only
      split
      · exact hnoted.note (.inr howner)
      · exact hnoted
    exact { hlogin with idle := fun _ => rfl, pass := fun p hp => absurd (hpass.symm.trans hp) (by simp) }
  · refine ⟨h.held, h.free, by simp, fun p hp => ?_, h.log⟩
    cases hp
    exact ⟨.inr rfl, .inr howner, by simp, by simp⟩

theorem inv_sweep (h : Inv s) (i : SlotId) (drained : Bool) : Inv (sweep s i drained) := by
  have hlater : Inv { s with phase := .afterSweep i } := h.elsewhere s.hist (.afterSweep i)
  unfold sweep
  dsimp only
  split
  · split
    · exact hlater.withSlot i rfl
    · split
      · exact (hlater.gone _).clearSlot i
      · exact hlater
  · exact hlater

theorem inv_loopStep (h : Inv s) (hs : s.pass = none) (hok : Careful s a) (ht : loopStep s a = some t) : Inv t := by
  cases a with
  | poll d =>
    obtain ⟨-, rfl⟩ := ite_none_right_eq_some.mp ht |>.imp_right some.inj
    exact inv_dispatch h hok
  | scan =>
    obtain ⟨-, rfl⟩ := ite_none_right_eq_some.mp ht |>.imp_right some.inj
    exact h.elsewhere s.hist (.slots 0)
  | visit auth buf =>
    simp only [loopStep] at ht
    split at ht
    · split at ht
      · obtain ⟨-, ht⟩ := ite_none_left_eq_some.mp ht
        obtain ⟨conn, hconn, rfl⟩ := map_eq_some_iff.mp ht
        exact inv_visit h hs hconn auth buf
      · simp at ht
    · simp at ht
  | skip =>
    simp only [loopStep] at ht
    split at ht
    · exact some.inj ht ▸ h.elsewhere s.hist _
    · simp at ht
  | sweep drained =>
    simp only [loopStep] at ht
    split at ht
    · split at ht
      · exact some.inj ht ▸ inv_sweep h _ drained
      · simp at ht
    · simp at ht
  | exit | dial | read | readPoll | readRecv | readDone | done | byte | leave | write | gone => simp [loopStep] at ht

theorem inv_step (h : Inv s) (hok : Careful s a) (ht : step s a = some t) : Inv t := by
  unfold step at ht
  split at ht
  next handle => exact some.inj ht ▸ h.gone handle
  · split at ht
    next p hp => exact inv_passStep h hp hok ht
    next hnone => exact inv_loopStep h hnone hok ht

theorem inv_start : Inv start := by
  refine ⟨fun _ _ h => ?_, fun _ _ => rfl, fun _ => rfl, fun _ h => ?_, fun _ h => ?_⟩
  · simp [start, Slot.blank] at h
  · simp [start] at h
  · cases h

end Steps

open Runs

/-- Every schedule in which connections come up carefully keeps sessions apart. -/
theorem sessions_isolated (as : List Action) (s : State) (hmeets : Meets step Careful start as) (hrun : run step start as = some s) :
    ∀ e ∈ s.log, Right e :=
  (run_invariant (fun _ _ _ h hok ht => inv_step h hok ht) inv_start hmeets hrun).log

def typed (line : List UInt8) : List Action :=
  [.poll (.connect 0 .dc), .scan, .visit (fun _ _ => false) line] ++ line.map fun _ => .byte []

/-- While a command of the first session reads, a second client comes in and gets its
own slot. -/
def besideRead : List Action :=
  typed [97, 10] ++ [.write, .read, .readPoll (.connect 1 .dc), .readRecv, .readDone, .write, .done, .leave]

theorem sessions_isolated_beside :
    ∃ s, Meets step Careful start besideRead ∧ run step start besideRead = some s ∧ ∀ e ∈ s.log, Right e :=
  ⟨_, by decide +kernel, rfl, sessions_isolated besideRead _ (by decide +kernel) rfl⟩

def firstSlot : SlotId := ⟨0, by decide⟩

/-- The client of a command that reads goes away, and the next one, which wants no
prompt, is given its slot; then the command prints and the rest of its line is read. -/
def intoSlot : List Action :=
  [.poll (.connect 0 .dc), .scan, .visit (fun _ _ => false) [97, 10, 98], .byte [], .byte [], .read, .gone 0,
    .readPoll (.disconnect firstSlot), .readPoll (.connect 1 (.tcp [1, 0, 0, 1, 0])), .readDone, .write, .done, .byte []]

/-- A line that is to end its session runs while a client with a prompt comes in. -/
def withoutSlot : List Action := typed [59, 10] ++ [.read, .readPoll (.connect 1 .dc), .readDone, .done]

/-- The client of a line that is to end its session goes away while the line runs. The
close stays with the slot, and a client that comes in before the sweep finds it there. -/
def intoClose : List Action :=
  [.poll (.connect 0 (.tcp [])), .poll (.connect 1 .dc), .scan, .visit (fun _ _ => false) [59, 10], .byte [], .byte [], .read, .gone 0,
    .readPoll (.disconnect firstSlot), .readDone, .done, .leave, .visit (fun _ _ => false) [97, 10], .byte [], .byte [], .read,
    .readPoll (.connect 0 .dc)]

def logOf (as : List Action) : List Note := (run step start as).elim [] State.log

theorem sessions_mixed :
    (.output 0 (some 1) ∈ logOf intoSlot ∧ .input 0 (some 1) ∈ logOf intoSlot) ∧ .stray 0 ∈ logOf withoutSlot ∧
      ¬ ∀ e ∈ logOf intoClose, Right e := by
  decide +kernel

end Spangap.SessionRuns
