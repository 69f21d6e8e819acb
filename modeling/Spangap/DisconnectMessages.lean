import Spangap.DisconnectCalls

namespace Spangap.DisconnectMessages

open List Option Function Its Handshake HandshakeRuns Disconnects DisconnectCalls

variable {w : World} {s t : Sys} {me : TaskId} {luck : Luck} {m : Msg} {rest : List Msg} {i : TaskId} {m' : Msg}
  {f f' : Frame} {cb : Option Nat} {ref : Int}

section

variable (hinbox : (s.tasks me).inbox = m :: rest)
include hinbox

theorem msgs_takeOut : ∀ i, ∀ m' ∈ taskMsgs ((takeOut s me m rest).tasks i), m' ∈ taskMsgs (s.tasks i) := by
  refine Sys.withTask_rec (fun m' hm' => mem_append_left _ ?_) fun _ _ _ => id
  rw [hinbox]
  rcases mem_append.mp hm' with hm' | hm'
  · exact mem_cons_of_mem _ hm'
  · rw [mem_singleton.mp hm']
    exact mem_cons_self

theorem inbox_takeOut : ∀ i, ∀ m' ∈ ((takeOut s me m rest).tasks i).inbox, m' ∈ (s.tasks i).inbox :=
  Sys.withTask_rec (fun _ hm' => hinbox ▸ mem_cons_of_mem m hm') fun _ _ _ => id

theorem notices_takeOut (hm : isNotice m = true) :
    ∀ i, notices (s.tasks i) = (if i = me then [m] else []) ++ notices ((takeOut s me m rest).tasks i) := by
  refine Sys.withTask_rec ?_ fun i hi => ?_
  · rw [if_pos rfl, notices, hinbox, filter_cons_of_pos hm]
    rfl
  · rw [if_neg hi, nil_append]

end

theorem book_takeOut (hb : Book w s) (hinbox : (s.tasks me).inbox = m :: rest) (hm : isNotice m = false) :
    Book w (takeOut s me m rest) := by
  refine hb.withTask me ?_ (fun m' hm' => ?_) ?_ (hb.answered me)
  · rw [notices, notices, hinbox, filter_cons_of_neg (by simp [hm])]
  · refine msgs_takeOut hinbox me m' ?_
    rwa [takeOut, Sys.tasks_withTask_self]
  · intro f h hf _ hh
    cases hf
    simp at hh

def callEvents (w : World) (me : TaskId) (side : Side) (port : Nat) (cb : Option Nat) (about : Nat) (ref : Int) : List Event :=
  if 0 ≤ ref ∧ listens w me port cb side then [.called side about ref] else []

section Delivery

variable {side : Side}

theorem mem_callEvents {port about : Nat} {e : Event} :
    e ∈ callEvents w me side port cb about ref ↔ (0 ≤ ref ∧ listens w me port cb side) ∧ e = .called side about ref := by
  rw [callEvents, mem_ite_nil_right, mem_singleton]

theorem log_serverCall (port about : Nat) (ref : Int) (cb : Option Nat) :
    (serverCall w s me port about ref).log = s.log ++ callEvents w me .server port cb about ref := by
  unfold serverCall callEvents
  split
  next h => exact congrArg (s.log ++ ·) (if_pos h.symm).symm
  next h => exact (append_nil _).symm.trans (congrArg (s.log ++ ·) (if_neg fun h' => h h'.symm).symm)

theorem log_clientCall (port about : Nat) (ref : Int) (cb : Option Nat) :
    (clientCall s cb about ref).log = s.log ++ callEvents w me .client port cb about ref := by
  unfold clientCall callEvents
  split
  next h => exact congrArg (s.log ++ ·) (if_pos h).symm
  next h => exact (append_nil _).symm.trans (congrArg (s.log ++ ·) (if_neg h).symm)

/-- What the dispatch of a message that tells of a close does. -/
structure Delivers (w : World) (s t : Sys) (me : TaskId) (m : Msg) (side : Side) : Prop where
  tasks : t.tasks = s.tasks
  gone : ∀ y, m.handle = some y → t.conns y = none
  stay : ∀ y, m.handle ≠ some y → t.conns y = s.conns y
  log : ∃ es, t.log = s.log ++ es ++ callEvents w me side m.port m.cb m.about m.ref ∧ ∀ e ∈ es, e = .freed m.about m.about

theorem lookup_cases (s : Sys) (handle : Option Nat) :
    ((handle.bind fun h => (s.conns h).map fun c => (h, c)) = none ∧ ∀ y, handle = some y → s.conns y = none) ∨
      ∃ h c, handle = some h ∧ s.conns h = some c ∧ (handle.bind fun h => (s.conns h).map fun c => (h, c)) = some (h, c) := by
  cases handle with
  | none => exact .inl ⟨rfl, by simp⟩
  | some h =>
    cases hc : s.conns h with
    | none =>
      refine .inl ⟨by simp [hc], fun y hy => ?_⟩
      cases hy
      exact hc
    | some c => exact .inr ⟨h, c, rfl, hc, by simp [hc]⟩

theorem Delivers.absent (htasks : t.tasks = s.tasks) (hconns : t.conns = s.conns)
    (hlog : t.log = s.log ++ callEvents w me side m.port m.cb m.about m.ref)
    (hnone : ∀ y, m.handle = some y → s.conns y = none) : Delivers w s t me m side := by
  refine ⟨htasks, ?_, fun y _ => congrFun hconns y, [], ?_, by simp⟩
  · rwa [hconns]
  · rw [hlog, append_nil]

theorem Delivers.present {h : Nat} {c : Conn} (hh : m.handle = some h) (hfits : Fits w me m side c) (htasks : t.tasks = s.tasks)
    (hconns : t.conns = update s.conns h none)
    (hlog : t.log = s.log ++ [.freed m.about c.id] ++ callEvents w me side c.port c.cliDisconnectCb m.about (sideRef c side)) :
    Delivers w s t me m side := by
  refine ⟨htasks, fun y hy => ?_, fun y hy => ?_, [.freed m.about c.id], ?_, ?_⟩
  · cases hh.symm.trans hy
    rw [hconns, update_self]
  · rw [hconns, update_of_ne]
    rintro rfl
    exact hy hh
  · rw [hlog, hfits.ref, callEvents, callEvents, hfits.there]
  · intro e he
    rw [mem_singleton.mp he, hfits.id]

theorem delivers_of_fits (hkind : m.kind = tells side) (hfits : ∀ h c, m.handle = some h → s.conns h = some c → Fits w me m side c) :
    Delivers w s (beginMsg w luck s me m).1 me m side := by
  unfold beginMsg
  rw [hkind]
  cases side with
  | client =>
    show Delivers w s (beginDiscFromServer s me m) me m .client
    unfold beginDiscFromServer
    rcases lookup_cases s m.handle with ⟨hnone, hempty⟩ | ⟨h, c, hh, hc, hsome⟩
    · rw [hnone, filter_none]
      exact .absent (tasks_clientCall ..) (conns_clientCall ..) (log_clientCall ..) hempty
    · have hfit := hfits h c hh hc
      have hpass : decide (c.client = me ∧ c.server = m.sender) = true := decide_eq_true ⟨hfit.mine, hfit.other⟩
      rw [hsome, filter_some, if_pos hpass]
      refine .present hh hfit ?_ ?_ ?_
      · simp
      · simp
      · rw [log_clientCall c.port, Sys.log_note, log_connFree]
        rfl
  | server =>
    show Delivers w s (beginDiscFromClient w s me m) me m .server
    unfold beginDiscFromClient
    rcases lookup_cases s m.handle with ⟨hnone, hempty⟩ | ⟨h, c, hh, hc, hsome⟩
    · rw [hnone, filter_none]
      exact .absent (tasks_serverCall ..) (conns_serverCall ..) (log_serverCall ..) hempty
    · have hfit := hfits h c hh hc
      have hpass : decide (c.server = me ∧ c.client = m.sender) = true := decide_eq_true ⟨hfit.mine, hfit.other⟩
      rw [hsome, filter_some, if_pos hpass]
      refine .present hh hfit ?_ ?_ ?_
      · simp
      · simp
      · dsimp only
        rw [log_serverCall c.port _ _ c.cliDisconnectCb, Sys.log_note, log_connFree]
        rfl

theorem chronicle_call {log : List Event} {port about : Nat} (hlog : Chronicle log)
    (hagrees : Agrees log side about ref (listens w me port cb side))
    (hwhy : .closed side.other about ∈ log ∨ side = .server ∧ .reaped about about ∈ log) (hfirst : ∀ r, .called side about r ∉ log) :
    Chronicle (log ++ callEvents w me side port cb about ref) := by
  unfold callEvents
  split
  next hthere =>
    obtain ⟨r, hr⟩ := hagrees.iff.mpr hthere
    obtain rfl := hagrees.same r hr
    exact hlog.snoc ⟨hr, hwhy, hfirst⟩
  · rwa [append_nil]

theorem isNotice_of_tells (hkind : m.kind = tells side) : isNotice m = true := by
  cases side <;> simp [isNotice, hkind, tells]

theorem alone (hb : Book w s) (hinbox : (s.tasks me).inbox = m :: rest) (hm : isNotice m = true)
    (hm' : m' ∈ notices ((takeOut s me m rest).tasks i)) (hkind : m'.kind = m.kind) : m'.about ≠ m.about := by
  intro habout
  have hold : m' ∈ notices (s.tasks i) := notices_takeOut hinbox hm i ▸ mem_append_right _ hm'
  have hfirst : m ∈ notices (s.tasks me) := by
    rw [notices_takeOut hinbox hm, if_pos rfl]
    exact mem_cons_self
  obtain rfl := hb.apart i me m' hold m hfirst hkind habout
  have hkeys := hb.keys i
  rw [notices_takeOut hinbox hm, if_pos rfl, map_append, map_singleton, singleton_append, nodup_cons] at hkeys
  exact hkeys.1 (mem_map.mpr ⟨m', hm', by rw [hkind, habout]⟩)

/-- A step that drops what is left of a connection and calls a side about it. -/
theorem book_drop (hb : Book w s) {es : List Event} {k port : Nat}
    (hlog : t.log = s.log ++ es ++ callEvents w me side port cb k ref) (hes : ∀ e ∈ es, e = .freed k k ∨ e = .reaped k k)
    (hagrees : Agrees s.log side k ref (listens w me port cb side)) (hfirst : ∀ r, .called side k r ∉ s.log)
    (hwhy : .closed side.other k ∈ s.log ∨ side = .server ∧ .reaped k k ∈ es)
    (hreaped : .reaped k k ∈ es → .returned k none ∈ s.log ∧ ∀ y c, t.conns y = some c → c.id ≠ k)
    (hfrom : ∀ y c, t.conns y = some c → s.conns y = some c) (hto : ∀ y c, s.conns y = some c → t.conns y = some c ∨ c.id = k)
    (hmsgs : ∀ i, ∀ m ∈ taskMsgs (t.tasks i), m ∈ taskMsgs (s.tasks i))
    (hframe : ∀ i f, (t.tasks i).frame = some f → f.msg.kind = .connect → (s.tasks i).frame = some f)
    (hcall : ∀ i, (t.tasks i).call = (s.tasks i).call) (hunasked : ∀ i, ∀ m ∈ asks (s.tasks i), m.about ≠ k)
    (huncalled : ∀ i call, (s.tasks i).call = some call → call.id ≠ k)
    (hnotices : ∀ i, (notices (t.tasks i)).Sublist (notices (s.tasks i)))
    (hgone : ∀ i, ∀ m ∈ notices (s.tasks i), m ∈ notices (t.tasks i) ∨ m.kind = tells side ∧ m.about = k)
    (halone : ∀ i, ∀ m ∈ notices (t.tasks i), m.kind = tells side → m.about ≠ k) : Book w t := by
  have hgrow : ∀ e ∈ s.log, e ∈ t.log := fun e he => hlog ▸ mem_append_left _ (mem_append_left _ he)
  have hother : ∀ {e}, e ≠ .freed k k → e ≠ .reaped k k → (e ∈ s.log ++ es ↔ e ∈ s.log) := by
    intro e hf hr
    rw [mem_append, or_iff_left fun he => (hes e he).elim hf hr]
  have hold : ∀ {e}, e ≠ .freed k k → e ≠ .reaped k k → (∀ r, e ≠ .called side k r) → (e ∈ t.log ↔ e ∈ s.log) := by
    intro e hf hr hcalled
    rw [hlog, mem_append, or_iff_left fun he => hcalled _ (mem_callEvents.mp he).2, hother hf hr]
  have hreg : ∀ {side' k' r}, .registered side' k' r ∈ t.log ↔ .registered side' k' r ∈ s.log :=
    hold (by simp) (by simp) (by simp)
  have hasks : ∀ {i m}, m ∈ asks (t.tasks i) → m ∈ asks (s.tasks i) := fun hm =>
    mem_asks.mpr ((mem_asks.mp hm).imp_left (hmsgs _ _))
  refine ⟨?_, fun i => (hb.keys i).sublist ((hnotices i).map _), fun i j a ha b hb' =>
    hb.apart i j a ((hnotices i).subset ha) b ((hnotices j).subset hb'), ?_, ?_, ?_, ?_,
    fun i m hm => hb.senders i m (hasks hm), fun i m hm hkind => hgrow _ (hb.forwards i m (hmsgs i m hm) hkind), ?_, ?_⟩
  · rw [hlog]
    refine chronicle_call (hb.chronicle.append fun e he log' hpre => ?_) (hagrees.congr fun r => hother (by simp) (by simp))
      (hwhy.imp (mem_append_left _) (.imp_right (mem_append_right _))) fun r hr =>
        hfirst r ((hother (by simp) (by simp)).mp hr)
    rcases hes e he with rfl | rfl
    · exact rfl
    · exact ⟨rfl, hpre.subset (hreaped he).1⟩
  · intro i side' m' hm' hkind'
    have hin : m' ∈ notices (t.tasks i) := mem_notices.mpr ⟨hm', side', hkind'⟩
    have hn := hb.notice i side' m' (mem_notices.mp ((hnotices i).subset hin)).1 hkind'
    refine ⟨hn.task, hgrow _ hn.closed, fun r hr => ?_, hn.agrees.congr fun r => hreg, fun y c hy hc => hn.entry y c hy (hfrom y c hc)⟩
    refine hn.uncalled r ((hold (by simp) (by simp) fun r' heq => ?_).mp hr)
    injection heq with hside habout
    exact halone i m' hin (hside ▸ hkind') habout
  · intro y c hc
    rw [hlog, append_assoc]
    refine (hb.entry y c (hfrom y c hc)).grow fun side' r hr => ?_
    rcases mem_append.mp hr with hr | hr
    · exact absurd (hes _ hr) (by simp)
    · exact absurd (mem_callEvents.mp hr).2 (by simp)
  · exact hb.opened_drop hto (fun i m' hm' => hunasked i m' (hasks hm')) hframe hgrow
  · exact hb.answered_drop hto huncalled hcall fun j r hr => (hold (by simp) (by simp) (by simp)).mp hr
  · intro side' k' hk
    rcases hb.told side' k' ((hold (by simp) (by simp) (by simp)).mp hk) with ⟨i, m', hm', hkind', habout⟩ | hcalled
    · rcases hgone i m' (mem_notices.mpr ⟨hm', side', hkind'⟩) with hn | ⟨hkind, hk'⟩
      · exact .inl ⟨i, m', (mem_notices.mp hn).1, hkind', habout⟩
      · obtain rfl := tells_inj (hkind'.symm.trans hkind)
        obtain rfl := hk'.symm.trans habout
        refine .inr fun r hr => ?_
        have hr := hreg.mp hr
        rw [hlog]
        refine mem_append_right _ (mem_callEvents.mpr ⟨hagrees.iff.mp ⟨r, hr⟩, ?_⟩)
        rw [hagrees.same r hr]
    · exact .inr fun r hr => hgrow _ (hcalled r (hreg.mp hr))
  · intro k₁ k₂ hk
    rw [hlog, mem_append, mem_append] at hk
    rcases hk with (hk | hk) | hk
    · have hsettled := hb.reaped k₁ k₂ hk
      exact ⟨fun i m hm => hsettled.asked i m (hasks hm), fun y c hc => hsettled.conns y c (hfrom y c hc)⟩
    · rcases hes _ hk with heq | heq
      · cases heq
      · cases heq
        exact ⟨fun i m hm => hunasked i m (hasks hm), (hreaped hk).2⟩
    · exact absurd (mem_callEvents.mp hk).2 (by simp)

theorem book_deliver (hs : Inv w s) (hb : Book w s) (hinbox : (s.tasks me).inbox = m :: rest)
    (hkind : m.kind = tells side) (hd : Delivers w (takeOut s me m rest) t me m side) : Book w t := by
  obtain ⟨htasks, hgone, hstay, es, hlog, hes⟩ := hd
  have hm := isNotice_of_tells hkind
  have hin : m ∈ (s.tasks me).inbox := hinbox ▸ mem_cons_self
  obtain ⟨-, hclosed, huncalled, hagrees, hfits⟩ := hb.notice me side m hin hkind
  have hfreed : .reaped m.about m.about ∉ es := fun he => absurd (hes _ he) (by simp)
  refine book_drop (s := s) hb hlog (fun e he => .inl (hes e he)) hagrees huncalled (.inl hclosed) (fun h => absurd h hfreed)
    ?_ ?_ ?_ ?_ ?_ (unasked_of_closed hs hb hclosed) (fun i call => uncalled_of_closed hs hb hclosed) ?_ ?_ ?_
  · intro y c hc
    rcases eq_or_ne m.handle (some y) with hy | hy
    · exact absurd ((hgone y hy).symm.trans hc) (by simp)
    · rwa [hstay y hy] at hc
  · intro y c hc
    rcases eq_or_ne m.handle (some y) with hy | hy
    · exact .inr (hfits y c hy hc).id
    · exact .inl ((hstay y hy).trans hc)
  · rw [htasks]
    exact msgs_takeOut hinbox
  · rw [htasks]
    refine Sys.withTask_rec (fun f hf hconnect => ?_) fun _ _ _ hf _ => hf
    cases hf
    cases side <;> exact absurd (hkind.symm.trans hconnect) (by simp [tells])
  · rw [htasks]
    exact Sys.withTask_rec rfl fun _ _ => rfl
  · intro i
    rw [htasks, notices_takeOut hinbox hm i]
    exact sublist_append_right _ _
  · intro i m' hn
    rw [notices_takeOut hinbox hm] at hn
    rw [htasks]
    rcases mem_append.mp hn with hn | hn
    · split at hn
      · obtain rfl := mem_singleton.mp hn
        exact .inr ⟨hkind, rfl⟩
      · cases hn
    · exact .inl hn
  · rw [htasks]
    exact fun i m' hn hkind' => alone hb hinbox hm hn (hkind'.trans hkind.symm)

theorem beginCancel_cases (w : World) (s : Sys) (me : TaskId) (m : Msg) : beginCancel w s me m = s ∨
      ∃ h c, s.conns h = some c ∧ c.server = me ∧ c.client = m.sender ∧ c.connectNonce = m.nonce ∧
        (beginCancel w s me m).conns = update s.conns h none ∧
        (beginCancel w s me m).log = s.log ++ [.reaped m.about c.id] ++ callEvents w me .server c.port none m.about c.serverRef := by
  unfold beginCancel
  split
  · exact .inl rfl
  next h c hfound =>
    obtain ⟨h', hh', hmap⟩ := bind_eq_some_iff.mp hfound
    obtain ⟨c', hc', heq⟩ := map_eq_some_iff.mp hmap
    cases heq
    have hmatch := find?_some hh'
    rw [hc', any_some, decide_eq_true_iff] at hmatch
    refine .inr ⟨h, c, hc', hmatch.1, hmatch.2.1, hmatch.2.2.1, by simp, ?_⟩
    rw [log_serverCall _ _ _ none, Sys.log_note, log_connFree]

theorem book_reap (hs : Inv w s) (hb : Book w s) (hframe : (s.tasks me).frame = none) (hinbox : (s.tasks me).inbox = m :: rest)
    (hkind : m.kind = .connectCancel)
    (hmeets : ∀ h c, s.conns h = some c → c.server = me → c.client = m.sender → c.connectNonce = m.nonce →
      c.id = m.about ∧ .moved c.id ∉ s.log) : Book w (beginCancel w s me m) := by
  rcases beginCancel_cases w s me m with heq | ⟨h, c, hc, hserver, hclient, hnonce, hconns, hlog⟩
  · rw [heq]
    exact hb
  obtain ⟨hid, hmoved⟩ := hmeets h c hc hserver hclient hnonce
  have htasks : (beginCancel w s me m).tasks = s.tasks := tasks_beginCancel m
  generalize beginCancel w s me m = t at hconns hlog htasks ⊢
  rw [hid] at hlog hmoved
  obtain ⟨hnone, hbehind, hasked⟩ := hs.cancels me [] m rest hinbox hkind
  have hagrees : Agrees s.log .server m.about c.serverRef (listens w me c.port none .server) := by
    have h := (hb.entry h c hc).toServer (hid.symm ▸ hmoved)
    rwa [hid, hserver] at h
  have hunasked : ∀ i, ∀ m' ∈ asks (s.tasks i), m'.about ≠ m.about := by
    intro i m' hm' habout
    obtain rfl := hasked i m' hm' habout
    obtain ⟨hin, hconnect⟩ := mem_asks.mp hm'
    rw [taskMsgs, hframe, hinbox] at hin
    rcases mem_cons.mp (append_nil _ ▸ hin) with rfl | hin
    · exact absurd (hkind.symm.trans hconnect) (by simp)
    · exact hbehind m' hin hconnect habout
  have hopen : ∀ side, .closed side m.about ∉ s.log := by
    intro side hclosed
    obtain ⟨x, hx⟩ := hb.chronicle.closed side _ hclosed
    exact absurd (hs.returns _ _ _ hx hnone) (by simp)
  have huncalled : ∀ r, .called .server m.about r ∉ s.log := by
    intro r hr
    rcases (hb.chronicle.called _ _ _ hr).2 with hclosed | ⟨-, hreaped⟩
    · exact hopen _ hclosed
    · exact (hb.reaped _ _ hreaped).conns h c hc hid
  have hfrom : ∀ y c', t.conns y = some c' → y ≠ h ∧ s.conns y = some c' := by
    intro y c' hc'
    rwa [hconns, update_apply, ite_none_left_eq_some] at hc'
  refine book_drop (s := s) hb hlog (fun e he => .inr (mem_singleton.mp he)) hagrees huncalled (.inr ⟨rfl, mem_singleton_self _⟩)
    (fun _ => ⟨hnone, ?_⟩) ?_ ?_ (by rw [htasks]; exact fun i m' => id) (fun i f hf _ => htasks ▸ hf) (fun i => by rw [htasks]) hunasked
    (fun i call hcall habout => (hs.waiting i call hcall).silent _ (habout ▸ hnone)) (fun i => by rw [htasks])
    (fun i m' hn => .inl (htasks ▸ hn)) ?_
  · intro y c' hc' hid'
    obtain ⟨hy, hc'⟩ := hfrom y c' hc'
    exact hy (handle_unique hs hc' hc (hid'.trans hid.symm))
  · exact fun y c' hc' => (hfrom y c' hc').2
  · intro y c' hc'
    rcases eq_or_ne y h with rfl | hy
    · exact .inr ((congrArg Conn.id (some.inj (hc'.symm.trans hc))).trans hid)
    · rw [hconns, update_of_ne hy]
      exact .inl hc'
  · intro i m' hn hkind' habout
    rw [htasks] at hn
    exact hopen _ (habout ▸ (hb.notice i .server m' (mem_notices.mp hn).1 hkind').closed)

end Delivery

theorem book_frame (hb : Book w s) (hf : (s.tasks me).frame = some f) (hmsg : f'.msg = f.msg)
    (hopened : ∀ h, f'.msg.kind = .connect → f'.handle = some h → Opened s me f'.msg h) :
    Book w (s.withFrame me (some f')) := by
  refine hb.withTask me rfl (fun m hm => ?_) (fun f₀ h hf₀ hkind hh => ?_) (hb.answered me)
  · rw [taskMsgs, hf]
    rw [taskMsgs, toList_some, map_singleton, hmsg] at hm
    exact hm
  · cases hf₀
    exact hopened h hkind hh

/-- A new entry, at a handle that no message names, and of a connect that nobody has
registered for. -/
theorem book_open (hs : Inv w s) (hb : Book w s) (hme : me < w.count) (hf : (s.tasks me).frame = some f)
    (hkind : f.msg.kind = .connect) {x : Nat} (hfree : s.conns x = none)
    (hunnamed : ∀ i < w.count, ∀ m ∈ (s.tasks i).inbox, isNotice m = true → m.handle ≠ some x) {c : Conn}
    (htasks : t.tasks = (s.withFrame me (some f')).tasks)
    (hconns : t.conns = update s.conns x (some c)) (hlog : t.log = s.log) (hmsg : f'.msg = f.msg) (hx : f'.handle = some x)
    (hid : c.id = f.msg.about) (hclient : c.client = f.msg.sender) (hserver : c.server = me) (hport : c.port = f.msg.port)
    (hcref : c.clientRef = -1) (hsref : c.serverRef = -1) (hcb : c.cliDisconnectCb = none) : Book w t := by
  have hasked := mem_asks_frame hf hkind
  have hunacked := (hs.asked me f.msg hasked).2
  have hunreturned : ∀ h, .returned f.msg.about (some h) ∉ s.log := fun h hh => hunacked _ (acked_of_returned hs hh)
  have hfrom : ∀ y c', t.conns y = some c' → y = x ∧ c' = c ∨ s.conns y = some c' := by
    intro y c' hc'
    rw [hconns] at hc'
    rcases eq_or_ne y x with rfl | hy
    · rw [update_self] at hc'
      exact .inl ⟨rfl, (some.inj hc').symm⟩
    · rw [update_of_ne hy] at hc'
      exact .inr hc'
  have hto : ∀ y c', s.conns y = some c' → t.conns y = some c' := by
    intro y c' hc'
    rw [hconns, update_of_ne]
    · exact hc'
    · rintro rfl
      exact absurd (hfree.symm.trans hc') (by simp)
  have hmsgs : ∀ i, taskMsgs (t.tasks i) = taskMsgs (s.tasks i) := by
    rw [htasks]
    refine Sys.withTask_rec ?_ fun _ _ => rfl
    rw [taskMsgs, taskMsgs, hf, toList_some, map_singleton, hmsg]
    rfl
  refine hb.calm (E := []) ?_ ?_ ?_ ?_ (by rw [hlog, append_nil]) ?_ ?_ ?_ ?_ (by simp) (hlog ▸ hb.chronicle) (by simp)
  · rw [htasks]
    exact notices_withTask rfl
  · rw [htasks]
    refine Sys.withTask_rec (fun f₀ h hf₀ _ hh => ?_) fun i _ f₀ h hf₀ hkind₀ hh => ?_
    · cases hf₀
      cases hx.symm.trans hh
      refine ⟨c, ?_, hid.trans (congrArg Msg.about hmsg.symm), fun _ => ⟨hserver, hport.trans (congrArg Msg.port hmsg.symm)⟩⟩
      rw [hconns, update_self]
    · refine (hb.opened i f₀ h hf₀ hkind₀ hh).mono (fun c' hc' => ⟨c', hto h c' hc', rfl, fun _ => ⟨rfl, rfl⟩⟩) ?_
      rw [hlog]
      exact fun e he => he
  · intro i k h hk hacked
    have hcall : (t.tasks i).call = (s.tasks i).call := htasks ▸ Sys.withTask_rec rfl (fun _ _ => rfl) i
    obtain ⟨c', hc', hid'⟩ := hb.answered i k h (hcall ▸ hk) (hlog ▸ hacked)
    exact ⟨c', hto h c' hc', hid'⟩
  · intro i m hm
    refine .inl ⟨i, ?_⟩
    rwa [asks, hmsgs] at hm
  · intro y c' hc'
    rw [hlog]
    rcases hfrom y c' hc' with ⟨rfl, rfl⟩ | hc'
    · refine ⟨hclient ▸ hb.senders me _ hasked, hserver ▸ hme, ⟨fun r hr => ?_, ?_⟩, fun hmoved => ⟨fun r hr => ?_, ?_⟩, fun _ => ?_⟩
      · rw [hid] at hr
        exact absurd (hb.chronicle.toClient _ r hr) (not_exists.mpr hunreturned)
      · rw [hcb, hid]
        refine iff_of_false (not_exists.mpr fun r hr => ?_) (by simp)
        exact absurd (hb.chronicle.toClient _ r hr) (not_exists.mpr hunreturned)
      · rw [hid] at hr hmoved
        exact ((hb.chronicle.toServer _ r hr).resolve_right hmoved).elim fun h hh => absurd hh (hunacked _)
      · rw [hid] at hmoved
        rw [hsref, hid]
        refine iff_of_false (not_exists.mpr fun r hr => ?_) (by simp)
        exact ((hb.chronicle.toServer _ r hr).resolve_right hmoved).elim fun h hh => absurd hh (hunacked _)
      · exact ⟨by rw [hcref]; decide, hcb⟩
    · exact hb.entry y c' hc'
  · intro i m side y c' hm hkind' hy hc'
    have hn := hb.notice i side m hm hkind'
    rcases hfrom y c' hc' with ⟨rfl, rfl⟩ | hc'
    · exact absurd hy (hunnamed i hn.task m hm (isNotice_of_tells hkind'))
    · exact hn.entry y c' hy hc'
  · intro y c' hc'
    rcases hfrom y c' hc' with ⟨-, rfl⟩ | hc'
    · exact .inr ⟨me, f.msg, hasked, hid.symm⟩
    · exact .inl ⟨y, c', hc', rfl⟩
  · intro i m hm hkind'
    rw [hmsgs] at hm
    rw [hlog]
    exact hb.forwards i m hm hkind'

theorem book_beginConnect (hs : Inv w s) (hb : Book w s) (hme : me < w.count) (hf : (s.tasks me).frame = some f)
    (hkind : f.msg.kind = .connect)
    (hunnamed : ∀ x, connAlloc s = some x → ∀ i < w.count, ∀ m ∈ (s.tasks i).inbox, isNotice m = true → m.handle ≠ some x) :
    Book w ((beginConnect w luck s me f.msg).1.withFrame me (some (beginConnect w luck s me f.msg).2)) := by
  have hstays : Book w (s.withFrame me (some ⟨f.msg, none, false, false⟩)) :=
    book_frame hb hf rfl (by simp)
  unfold beginConnect
  split
  · exact hstays
  split
  · exact hstays
  next x hx =>
    obtain ⟨-, hx⟩ := ite_none_right_eq_some.mp hx
    have hfree : s.conns x = none := isNone_iff_eq_none.mp (find?_some (p := fun h => (s.conns h).isNone) hx)
    exact book_open hs hb hme hf hkind hfree (hunnamed x hx) rfl rfl rfl rfl rfl rfl rfl rfl rfl rfl rfl rfl

end Spangap.DisconnectMessages
