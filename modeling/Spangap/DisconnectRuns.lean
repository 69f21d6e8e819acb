import Spangap.DisconnectMessages

namespace Spangap.DisconnectRuns

open List Option Function Its Handshake HandshakeRuns Disconnects DisconnectCalls DisconnectMessages

variable {w : World} {s t : Sys} {me : TaskId} {luck : Luck} {m : Msg} {sRef : Int} {port about h : Nat}

def Unnamed (w : World) (s : Sys) : Prop :=
  ∀ x ∈ connAlloc s, ∀ i < w.count, ∀ m ∈ (s.tasks i).inbox, isNotice m = true → m.handle ≠ some x

instance (w : World) (s : Sys) : Decidable (Unnamed w s) := by
  delta Unnamed
  infer_instance

def OwnEntry (s : Sys) (me : TaskId) (m : Msg) : Prop := OnlyEntry s me m ∧ .moved m.about ∉ s.log
  deriving Decidable

def MayRefuse (s : Sys) (me : TaskId) (handle : Option Nat) (luck : Luck) : Prop :=
  luck.hdr = true ∧ luck.enq = true ∧ ∀ h ∈ handle, MayClose s me h
  deriving Decidable

def TidyBegin (w : World) (s : Sys) (me : TaskId) (luck : Luck) (m : Msg) : Prop :=
  match m.kind with
  | .connect => Unnamed w s
  | .connectCancel => OwnEntry s me m
  | .forward => portFind w me m.port = none → MayRefuse s me m.handle luck
  | _ => True

instance (w : World) (s : Sys) (me : TaskId) (luck : Luck) (m : Msg) : Decidable (TidyBegin w s me luck m) := by
  delta TidyBegin
  split <;> infer_instance

def TidyFinish (s : Sys) (me : TaskId) (sRef : Int) (luck : Luck) (f : Frame) : Prop :=
  sRef ≤ 127 ∧ (f.msg.kind = .forward → sRef < 0 → MayRefuse s me f.handle luck)
  deriving Decidable

/-- What keeps closes apart from connects and forwards; the messages about them are enqueued. -/
def Tidy (w : World) (s : Sys) (a : TaskId × Action) : Prop :=
  match a.2 with
  | .read => ∀ k ∈ (s.tasks a.1).call, k.ref ≤ 127
  | .begin luck => ∀ m ∈ (s.tasks a.1).inbox.head?, TidyBegin w s a.1 luck m
  | .finish sRef luck => ∀ f ∈ (s.tasks a.1).frame, TidyFinish s a.1 sRef luck f
  | .disconnect h luck => luck.hdr = true ∧ luck.enq = true ∧ MayClose s a.1 h
  | .forward h _ _ _ _ _ => ∀ c ∈ s.conns h, c.server = a.1 → .closed .client c.id ∉ s.log ∧ .closed .server c.id ∉ s.log
  | _ => True

instance (w : World) (s : Sys) (a : TaskId × Action) : Decidable (Tidy w s a) := by
  delta Tidy
  split <;> infer_instance

theorem book_beginForward (hs : Inv w s) (hb : Book w s)
    (hrefuse : portFind w me m.port = none → MayRefuse s me m.handle luck) : Book w (beginForward w luck s me m).1 := by
  unfold beginForward
  split
  · exact hb
  next h c hfound =>
    obtain ⟨hsome, -⟩ := filter_eq_some_iff.mp hfound
    obtain ⟨h', hh', hmap⟩ := bind_eq_some_iff.mp hsome
    obtain ⟨c', hc', heq⟩ := map_eq_some_iff.mp hmap
    cases heq
    split
    next hnone =>
      obtain ⟨hhdr, henq, hclose⟩ := hrefuse hnone
      exact book_itsDisconnect hs hb hhdr henq (hclose h hh')
    next sp _ =>
      refine hb.reshape h (fun c => { c with kind := sp.kind }) (fun _ => rfl) (fun _ => ⟨rfl, rfl, rfl⟩) rfl
        (append_nil _).symm (by simp) hb.chronicle (by simp) (by simp) ?_ (fun y c' _ => hb.entry y c') (fun _ _ _ => ⟨rfl, rfl⟩) ?_
      · exact fun c₀ hc₀ => (hb.entry h c₀ hc₀).like ⟨rfl, rfl, rfl, rfl, rfl, rfl, rfl⟩
      · exact fun _ _ _ _ _ _ _ hfits => hfits.like ⟨rfl, rfl, rfl, rfl, rfl, rfl, rfl⟩

theorem book_begin (hs : Inv w s) (hb : Book w s) (hme : me < w.count) (htidy : Tidy w s (me, .begin luck))
    (ht : act w s me (.begin luck) = some t) : Book w t := by
  obtain ⟨m, rest, hframe, hinbox, rfl⟩ := act_begin ht
  have htaken := frame_takeOut s me m rest
  have hhead : m ∈ (s.tasks me).inbox.head? := by
    rw [hinbox]
    rfl
  have htidy := htidy m hhead
  unfold TidyBegin at htidy
  -- A message that opens no connection leaves a frame without an entry, or none of a connect.
  have hdone : ∀ {u : Sys} {f : Frame}, Book w u → (u.tasks me).frame = some ⟨m, none, false, false⟩ → f.msg = m → m.kind ≠ .connect →
      Book w (u.withFrame me (some f)) := by
    intro u f hu hf hmsg hkind
    exact book_frame hu hf hmsg fun _ h => absurd (hmsg ▸ h) hkind
  have hout : m.kind ≠ .connectCancel → Inv w (takeOut s me m rest) :=
    fun hcancel => inv_takeOut hs hframe hinbox fun _ hd => absurd hd.kind hcancel
  have hdeliver : ∀ {side}, m.kind = tells side → Book w ((beginMsg w luck (takeOut s me m rest) me m).1.withFrame me (some (beginMsg w luck (takeOut s me m rest) me m).2)) := by
    intro side hkind
    have hin : m ∈ (s.tasks me).inbox := hinbox ▸ mem_cons_self
    have hfits := (hb.notice me side m hin hkind).entry
    have hd : Delivers w (takeOut s me m rest) (beginMsg w luck (takeOut s me m rest) me m).1 me m side :=
      delivers_of_fits hkind hfits
    refine hdone (book_deliver hs hb hinbox hkind hd) ?_ (msg_beginMsg ..) ?_
    · rw [hd.tasks]
      exact htaken
    · cases side <;> simp [hkind, tells]
  cases hkind : m.kind with
  | discFromServer => exact hdeliver (show m.kind = tells .client from hkind)
  | discFromClient => exact hdeliver (show m.kind = tells .server from hkind)
  | connect =>
    rw [hkind] at htidy
    unfold beginMsg
    rw [hkind]
    have hcancel : m.kind ≠ .connectCancel := by simp [hkind]
    have hb' := book_takeOut hb hinbox (by simp [isNotice, hkind])
    refine book_beginConnect (hout hcancel) hb' hme htaken hkind fun x hx i hi m' hm' => ?_
    exact htidy x hx i hi m' (inbox_takeOut hinbox i m' hm')
  | connectCancel =>
    rw [hkind] at htidy
    unfold beginMsg
    rw [hkind]
    have hreaped : Book w (beginCancel w s me m) := by
      refine book_reap hs hb hframe hinbox hkind fun h c hc hserver hclient hnonce => ?_
      have hid := htidy.1 h (hs.conns h c hc).1 c hc hserver hclient hnonce
      exact ⟨hid, hid ▸ htidy.2⟩
    have htasks : (beginCancel w s me m).tasks = s.tasks := tasks_beginCancel m
    refine hdone ?_ ?_ rfl (by simp [hkind])
    · rw [takeOut, beginCancel_withTask]
      exact book_takeOut hreaped (htasks ▸ hinbox) (by simp [isNotice, hkind])
    · rw [tasks_beginCancel]
      exact htaken
  | forward =>
    rw [hkind] at htidy
    have hcancel : m.kind ≠ .connectCancel := by simp [hkind]
    have hconnect : m.kind ≠ .connect := by simp [hkind]
    have hquiet : Quiet (takeOut s me m rest) (beginMsg w luck (takeOut s me m rest) me m).1 := quiet_beginMsg hconnect hcancel
    have hb' := book_takeOut hb hinbox (by simp [isNotice, hkind])
    refine hdone ?_ ((hquiet.frame me).trans htaken) (msg_beginMsg ..) hconnect
    unfold beginMsg
    rw [hkind]
    exact book_beginForward (hout hcancel) hb' htidy
  | aux =>
    unfold beginMsg
    rw [hkind]
    exact hdone (book_takeOut hb hinbox (by simp [isNotice, hkind])) htaken rfl (by simp [hkind])

section Finish

variable {f : Frame}

theorem book_ack (hb : Book w s) {r : Option Nat} (hr : ∀ x, r = some x → ∃ c, s.conns x = some c ∧ c.id = m.about) :
    Book w (ack s m r) := by
  have hrung : Book w (s.withTask m.sender fun t => { t with ackHandle := r, ackNonce := m.nonce, ackSem := true }) :=
    hb.withTask m.sender rfl (fun _ hm => hm) (hb.opened m.sender) (hb.answered m.sender)
  refine hrung.noteShake rfl fun i k h _ heq => ?_
  injection heq with hid hr'
  rw [← hid]
  exact hr h hr'

theorem book_unframe (hb : Book w s) (me : TaskId) : Book w (s.withFrame me none) := by
  refine hb.withTask me rfl (fun m hm => ?_) (by simp) (hb.answered me)
  rcases mem_append.mp hm with hm | hm
  · exact mem_append_left _ hm
  · cases hm

theorem ack_unframe (s : Sys) (m : Msg) (r : Option Nat) (me : TaskId) :
    (ack s m r).withFrame me none = ack (s.withFrame me none) m r := by
  have hcomm : (s.withTask m.sender fun t => { t with ackHandle := r, ackNonce := m.nonce, ackSem := true }).withTask me
      (fun t => { t with frame := none }) = (s.withFrame me none).withTask m.sender fun t =>
        { t with ackHandle := r, ackNonce := m.nonce, ackSem := true } := Sys.withTask_comm fun _ => rfl
  exact congrArg (fun u => u.note (.acked m.about r)) hcomm

theorem asks_unframe (hs : Inv w s) (hf : (s.tasks me).frame = some f) (hkind : f.msg.kind = .connect) (i : TaskId) (m : Msg)
    (hm : m ∈ asks ((s.withFrame me none).tasks i)) : m.about ≠ f.msg.about := by
  refine (asks_answered hs hf hkind none i m ?_).2
  rw [answered_task]
  revert hm
  refine Sys.withTask_rec (fun hm => ?_) (fun j hj hm => ?_) i
  · rw [if_pos rfl]
    exact hm
  · rw [if_neg hj]
    exact hm

theorem book_reject (hs : Inv w s) (hb : Book w s) (hf : (s.tasks me).frame = some f) (hkind : f.msg.kind = .connect)
    (hh : f.handle = some h) : Book w ((ack (connFree s h) f.msg none).withFrame me none) := by
  have hunacked := (hs.asked me f.msg (mem_asks_frame hf hkind)).2
  obtain ⟨c, hc, hid, -⟩ := hb.opened me f h hf hkind hh
  have hto : ∀ y c', s.conns y = some c' → (connFree s h).conns y = some c' ∨ c'.id = f.msg.about := by
    intro y c' hc'
    rcases eq_or_ne y h with rfl | hy
    · exact .inr ((congrArg Conn.id (some.inj (hc'.symm.trans hc))).trans hid)
    · refine .inl ?_
      rwa [conns_connFree, update_of_ne hy]
  have hunframed := book_unframe hb me
  have hfreed : Book w ((connFree s h).withFrame me none) := by
    have htasks : ((connFree s h).withFrame me none).tasks = (s.withFrame me none).tasks := by
      rw [Sys.withFrame, ← connFree_withTask, tasks_connFree]
    have hlog : (connFree s h).log = s.log := log_connFree ..
    refine hunframed.keep (E := []) (fun i => by rw [htasks]) ?_ ?_ (fun i m hm => .inl ⟨i, htasks ▸ hm⟩)
      (hlog.trans (append_nil _).symm) ?_ (fun i m hm => hunframed.forwards i m (htasks ▸ hm)) (by simp)
    · refine hunframed.opened_drop hto ?_ (fun i f' hf' _ => htasks ▸ hf') (by simp)
      rw [htasks]
      exact asks_unframe hs hf hkind
    · intro i k x hk hacked
      rw [htasks] at hk
      obtain ⟨c', hc', hid'⟩ := hunframed.answered i k x hk (hlog ▸ hacked)
      rcases hto x c' hc' with hkept | hsame
      · exact ⟨c', hkept, hid'⟩
      · exact absurd ((hid'.symm.trans hsame) ▸ hlog ▸ hacked) (hunacked _)
    · intro y c' hc'
      rw [Sys.conns_withTask, conns_connFree, update_apply, ite_none_left_eq_some] at hc'
      exact ⟨c', hc'.2, .refl c'⟩
  rw [ack_unframe]
  exact book_ack hfreed (by simp)

def listenEvents (w : World) (me : TaskId) (port about : Nat) (sRef : Int) : List Event :=
  if (portFind w me port).any Port.onDisconnect then [.registered .server about sRef] else []

theorem mem_listenEvents {e : Event} :
    e ∈ listenEvents w me port about sRef ↔ (portFind w me port).any Port.onDisconnect ∧ e = .registered .server about sRef := by
  rw [listenEvents, mem_ite_nil_right, mem_singleton]

theorem log_listen (port about : Nat) (sRef : Int) :
    (Its.listen w s me port about sRef).log = s.log ++ listenEvents w me port about sRef := by
  unfold Its.listen listenEvents
  split
  · rfl
  · exact (append_nil _).symm

theorem entry_accept {c : Conn} {log : List Event} {es : List Event} (hc : Entry w log c) (hlog : Chronicle log)
    (hunacked : ∀ r, .acked c.id r ∉ log) (hid : c.id = about) (hplace : .moved c.id ∉ log → c.server = me ∧ c.port = port)
    (hnonneg : 0 ≤ sRef) (hle : sRef ≤ 127)
    (hes : ∀ side r, .registered side c.id r ∈ es ↔ .registered side c.id r ∈ listenEvents w me port about sRef) :
    Entry w (log ++ es) { c with serverRef := toInt8 sRef } := by
  have hfit := toInt8_of_le hnonneg hle
  refine ⟨hc.client, hc.server, hc.toClient.congr fun r => ?_, fun hmoved => ?_, fun hnot => ?_⟩
  · rw [mem_append, or_iff_left]
    intro hr
    exact absurd (mem_listenEvents.mp ((hes _ _).mp hr)).2 (by simp)
  · have hmoved : .moved c.id ∉ log := fun h => hmoved (mem_append_left _ h)
    obtain ⟨hserver, hport⟩ := hplace hmoved
    have hnew : ∀ {r}, .registered .server c.id r ∈ log ++ es ↔ (portFind w me port).any Port.onDisconnect ∧ r = sRef := by
      intro r
      have hnot : .registered .server c.id r ∉ log := fun hr =>
        ((hlog.toServer _ r hr).resolve_right hmoved).elim fun h hh => hunacked _ hh
      rw [mem_append, or_iff_right hnot, hes, mem_listenEvents, hid]
      simp
    refine ⟨fun r hr => hfit.trans (hnew.mp hr).2.symm, ?_⟩
    simp only [hnew, hserver, hport, hfit]
    exact ⟨fun ⟨_, hthere, _⟩ => ⟨hnonneg, hthere⟩, fun ⟨_, hthere⟩ => ⟨sRef, hthere, rfl⟩⟩
  · exact hc.blank fun x hx => hnot x (mem_append_left _ hx)

theorem book_accept (hs : Inv w s) (hb : Book w s) (hf : (s.tasks me).frame = some f) (hkind : f.msg.kind = .connect)
    (hh : f.handle = some h) (hnonneg : 0 ≤ sRef) (hle : sRef ≤ 127) :
    Book w (ack (Its.listen w (s.withConn h fun c => { c with serverRef := toInt8 sRef }) me f.msg.port f.msg.about sRef)
      f.msg (some h)) := by
  have hasked := mem_asks_frame hf hkind
  have hunacked := (hs.asked me f.msg hasked).2
  obtain ⟨c, hc, hid, hplace⟩ := hb.opened me f h hf hkind hh
  have hclosed : ∀ {side}, .closed side f.msg.about ∉ s.log := fun hin => unasked_of_closed hs hb hin me f.msg hasked rfl
  have hlog : (ack (Its.listen w (s.withConn h fun c => { c with serverRef := toInt8 sRef }) me f.msg.port f.msg.about sRef)
      f.msg (some h)).log = s.log ++ (listenEvents w me f.msg.port f.msg.about sRef ++ [.acked f.msg.about (some h)]) := by
    rw [log_ack, log_listen, Sys.log_withConn, append_assoc]
  have hmem : ∀ {e}, e ∈ listenEvents w me f.msg.port f.msg.about sRef ++ [.acked f.msg.about (some h)] ↔
      e ∈ listenEvents w me f.msg.port f.msg.about sRef ∨ e = .acked f.msg.about (some h) := by
    intro e
    rw [mem_append, mem_singleton]
  refine hb.reshape h (fun c => { c with serverRef := toInt8 sRef }) (fun _ => rfl) (fun i => ?_) ?_ hlog ?_ ?_ ?_ ?_ ?_ ?_
    (fun _ _ _ => ⟨rfl, rfl⟩) ?_
  · rcases eq_or_ne i f.msg.sender with rfl | hi
    · rw [tasks_ack_self, tasks_listen]
      exact ⟨rfl, rfl, rfl⟩
    · rw [tasks_ack_ne hi, tasks_listen]
      exact ⟨rfl, rfl, rfl⟩
  · rw [conns_ack, conns_listen]
  · intro e he
    rcases hmem.mp he with he | rfl
    · rw [(mem_listenEvents.mp he).2]
      rfl
    · rfl
  · rw [hlog]
    have hanswered : Chronicle (s.log ++ [.acked f.msg.about (some h)]) := hb.chronicle.snoc trivial
    have hlater : Chronicle (s.log ++ [.acked f.msg.about (some h)] ++ listenEvents w me f.msg.port f.msg.about sRef) := by
      refine hanswered.append fun e he log' hpre => ?_
      rw [(mem_listenEvents.mp he).2]
      exact .inl ⟨h, hpre.subset (by simp)⟩
    rw [append_assoc] at hlater
    exact hlater.perm (perm_append_comm.append_left _)
  · intro side k r hk hin
    rcases hmem.mp hin with hin | hin
    · have heq := (mem_listenEvents.mp hin).2
      injection heq with _ hk'
      exact hclosed (hk' ▸ hk)
    · simp at hin
  · intro k x hin
    rcases hmem.mp hin with hin | hin
    · exact absurd (mem_listenEvents.mp hin).2 (by simp)
    · injection hin with hk hx
      cases hx
      exact ⟨c, hc, hid.trans hk.symm⟩
  · intro c' hc'
    cases hc.symm.trans hc'
    rw [hlog]
    refine entry_accept (hb.entry h c hc) hb.chronicle (hid ▸ hunacked) hid hplace hnonneg hle fun side r => ?_
    rw [hmem]
    exact or_iff_left (by simp)
  · intro y c' hy hc'
    rw [hlog]
    refine (hb.entry y c' hc').grow fun side r hin => ?_
    rcases hmem.mp hin with hin | hin
    · have heq := (mem_listenEvents.mp hin).2
      injection heq with _ hid'
      exact hy (handle_unique hs hc' hc (hid'.trans hid.symm))
    · simp at hin
  · intro i m side c' hm hkind' hc' hfits
    cases hc'.symm.trans hc
    exact absurd ((hfits.id.symm.trans hid) ▸ (hb.notice i side m hm hkind').closed) hclosed

theorem book_listen (hb : Book w s) (hmoved : .moved about ∈ s.log) (sRef : Int) : Book w (Its.listen w s me port about sRef) := by
  have hlog : (Its.listen w s me port about sRef).log = s.log ++ listenEvents w me port about sRef := log_listen ..
  have hentries : ∀ y c, s.conns y = some c → Entry w (Its.listen w s me port about sRef).log c := by
    intro y c hc
    rw [hlog]
    have hentry := hb.entry y c hc
    refine ⟨hentry.client, hentry.server, hentry.toClient.congr fun r => ?_, fun hnot => ?_, fun hnot => ?_⟩
    · rw [mem_append, or_iff_left]
      intro hr
      exact absurd (mem_listenEvents.mp hr).2 (by simp)
    · have hnot : .moved c.id ∉ s.log := fun h => hnot (mem_append_left _ h)
      refine (hentry.toServer hnot).congr fun r => ?_
      rw [mem_append, or_iff_left]
      intro hr
      have heq := (mem_listenEvents.mp hr).2
      injection heq with _ hid
      exact hnot (hid ▸ hmoved)
    · exact hentry.blank fun x hx => hnot x (mem_append_left _ hx)
  refine hb.reshape 0 id (fun _ => rfl) (fun i => ?_) ?_ hlog ?_ ?_ ?_ ?_ (hentries 0) (fun y c _ => hentries y c) (fun _ _ _ => ⟨rfl, rfl⟩)
    fun _ _ _ _ _ _ _ h => h
  · rw [tasks_listen]
    exact ⟨rfl, rfl, rfl⟩
  · rw [conns_listen, Sys.withConn, Option.map_id, id, Function.update_eq_self]
  · intro e he
    rw [(mem_listenEvents.mp he).2]
    rfl
  · rw [hlog]
    refine hb.chronicle.append fun e he log' hpre => ?_
    rw [(mem_listenEvents.mp he).2]
    exact .inr (hpre.subset hmoved)
  · intro side k r hk hin
    have heq := (mem_listenEvents.mp hin).2
    injection heq with hside hk'
    subst hside hk'
    exact hb.chronicle.unmoved k hk hmoved
  · exact fun k x hin => absurd (mem_listenEvents.mp hin).2 (by simp)

theorem book_finishConnect (hs : Inv w s) (hb : Book w s) (hf : (s.tasks me).frame = some f) (hkind : f.msg.kind = .connect)
    (hle : sRef ≤ 127) : Book w ((finishMsg w luck s me f sRef).withFrame me none) := by
  unfold finishMsg
  rw [hkind]
  dsimp only
  split
  · exact book_unframe (book_ack hb fun _ h => absurd h (by simp)) me
  next h hh =>
    split
    next hok =>
      refine book_unframe ?_ me
      split
      next hasks =>
        have hnonneg : 0 ≤ sRef := by simpa [hasks] using (Bool.and_eq_true_iff.mp hok).2
        exact book_accept hs hb hf hkind hh hnonneg hle
      · refine book_ack hb fun x hx => ?_
        cases hx
        obtain ⟨c, hc, hid, -⟩ := hb.opened me f h hf hkind hh
        exact ⟨c, hc, hid⟩
    · exact book_reject hs hb hf hkind hh

theorem book_finishOther (hs : Inv w s) (hb : Book w s) (hf : (s.tasks me).frame = some f) (hkind : f.msg.kind ≠ .connect)
    (hrefuse : f.msg.kind = .forward → sRef < 0 → MayRefuse s me f.handle luck) : Book w (finishMsg w luck s me f sRef) := by
  unfold finishMsg
  split
  next h => exact absurd h hkind
  next hforward =>
    split
    next h hh =>
      split
      next hno =>
        obtain ⟨hhdr, henq, hclose⟩ := hrefuse hforward (by simpa using (Bool.and_eq_true_iff.mp hno).2)
        exact book_itsDisconnect hs hb hhdr henq (hclose h hh)
      split
      · refine book_listen hb (hb.forwards me f.msg (mem_append_right _ ?_) hforward) sRef
        rw [hf]
        exact mem_singleton_self _
      · exact hb
    · exact hb
  · exact hb

theorem book_finish (hs : Inv w s) (hb : Book w s) (htidy : Tidy w s (me, .finish sRef luck))
    (ht : act w s me (.finish sRef luck) = some t) : Book w t := by
  obtain ⟨f, hf, rfl⟩ := act_finish ht
  obtain ⟨hle, hrefuse⟩ := htidy f hf
  refine book_withMem ?_ _
  rcases eq_or_ne f.msg.kind .connect with hkind | hkind
  · exact book_finishConnect hs hb hf hkind hle
  · exact book_unframe (book_finishOther hs hb hf hkind hrefuse) me

end Finish

theorem book_act {x : Action} (hs : Inv w s) (hb : Book w s) (hme : me < w.count) (htidy : Tidy w s (me, x))
    (ht : act w s me x = some t) : Book w t := by
  cases x with
  | wake => simp [act] at ht
  | read => simp [act] at ht
  | timeout luck => simp [act] at ht
  | begin luck => exact book_begin hs hb hme htidy ht
  | finish sRef luck => exact book_finish hs hb htidy ht
  | connect srv port data len ref cb luck =>
    obtain ⟨-, heq⟩ := ite_none_right_eq_some.mp ht
    exact some.inj heq ▸ book_itsConnect hs hb hme srv port data len ref cb
  | disconnect h luck => exact some.inj ht ▸ book_itsDisconnect hs hb htidy.1 htidy.2.1 htidy.2.2
  | forward h target port data len luck =>
    refine some.inj ht ▸ book_itsServerForward hb (fun c hc hserver side => ?_) target port data len
    obtain ⟨hclient, hserver⟩ := htidy c hc hserver
    cases side
    · exact hclient
    · exact hserver
  | aux | auxOwned | send | recv | recvRef | reset => exact book_aside hb (aside_act ht rfl)

theorem book_step {a : TaskId × Action} (hs : Inv w s) (hb : Book w s) (htidy : Tidy w s a) (ht : step w s a = some t) : Book w t := by
  obtain ⟨me, x⟩ := a
  obtain ⟨hme, ⟨k, hk, ⟨rfl, hmatched, hsem, rfl⟩ | ⟨rfl, hmatched, rfl⟩ | ⟨luck, rfl, hmatched, hsem, rfl⟩⟩ | ⟨hcall, ht⟩⟩ :=
    step_cases ht
  · exact book_wake hb hk
  · exact book_read hs hb hk hmatched (htidy k hk)
  · exact book_timeout hb k
  · exact book_act hs hb hme htidy ht

theorem book_start (w : World) : Book w start := by
  refine ⟨chronicle_nil, fun _ => nodup_nil, ?_, ?_, ?_, ?_, ?_, ?_, ?_, ?_, ?_⟩
  · exact fun _ _ _ hm => absurd hm not_mem_nil
  · exact fun _ _ _ hm => absurd hm not_mem_nil
  · exact (by simp [start])
  · exact (by simp [start])
  · exact (by simp [start])
  · exact fun _ _ hm => absurd hm not_mem_nil
  · exact fun _ _ hm => absurd hm not_mem_nil
  · exact fun _ _ h => absurd h not_mem_nil
  · exact fun _ _ h => absurd h not_mem_nil

open Runs

/-- What disconnects are for. A message frees no connection but its own; a side is
called only for a close of the other one, or for a connect that was given up, with the
reference that it has registered, and at most once; and when nothing is under way any
more it has been called for every close. -/
structure Delivered (s : Sys) : Prop where
  freed : ∀ k k', .freed k k' ∈ s.log → k = k'
  reaped : ∀ k k', .reaped k k' ∈ s.log → k = k'
  called : ∀ side k r, .called side k r ∈ s.log →
    .registered side k r ∈ s.log ∧ (.closed side.other k ∈ s.log ∨ side = .server ∧ .reaped k k ∈ s.log)
  once : ∀ side k, s.log.countP (isCalled side k) ≤ 1
  told : (∀ i, (s.tasks i).inbox = []) →
    ∀ side k r, .closed side.other k ∈ s.log → .registered side k r ∈ s.log → .called side k r ∈ s.log

theorem delivered_of_book (hb : Book w s) : Delivered s := by
  refine ⟨hb.chronicle.freed, fun k k' h => (hb.chronicle.reaped k k' h).1, hb.chronicle.called, hb.chronicle.once, ?_⟩
  intro hdrained side k r hclosed hr
  rcases hb.told side k hclosed with ⟨i, m, hm, -⟩ | hcalled
  · rw [hdrained i] at hm
    cases hm
  · exact hcalled r hr

/-- Every schedule whose steps keep handshakes and closes in order delivers each close
once, and to the right connection. -/
theorem disconnects_delivered (w : World) (as : List (TaskId × Action)) (s : Sys)
    (hmeets : Meets (step w) (fun s a => Orderly s a ∧ Tidy w s a) start as) (hrun : run (step w) start as = some s) :
    Delivered s := by
  have hstep : ∀ s a t, Inv w s ∧ Book w s → Orderly s a ∧ Tidy w s a → step w s a = some t → Inv w t ∧ Book w t :=
    fun s a t hs hok ht => ⟨inv_step hs.1 hok.1 ht, book_step hs.1 hs.2 hok.2 ht⟩
  exact delivered_of_book (run_invariant hstep ⟨inv_start w, book_start w⟩ hmeets hrun).2

def pair : World where
  count := 2
  task t := ⟨t = 1, t = 0, t = 1, 8, 64, if t = 1 then [⟨1, .stream, 4, 0, 0, 0, 0, true, false, true⟩] else [], []⟩

/-- A connection that the server has accepted with `sRef`, and that the client has
registered for with `ref`. -/
def settled (ref sRef : Int) : List (TaskId × Action) :=
  [(0, .connect 1 1 false 0 ref (some 0) lucky), (1, .begin lucky), (1, .finish sRef lucky), (0, .wake), (0, .read)]

/-- Both sides close before either is told. -/
def closedByBoth : List (TaskId × Action) :=
  settled 5 6 ++ [(0, .disconnect 0 lucky), (1, .disconnect 0 lucky), (0, .begin lucky), (1, .begin lucky), (1, .finish 0 lucky),
    (0, .finish 0 lucky)]

theorem disconnects_delivered_both :
    ∃ s, Meets (step pair) (fun s a => Orderly s a ∧ Tidy pair s a) start closedByBoth ∧
      run (step pair) start closedByBoth = some s ∧ Delivered s :=
  ⟨_, by decide +kernel, rfl, disconnects_delivered pair closedByBoth _ (by decide +kernel) rfl⟩

/-- The server closes before the client has read its handle. -/
def closedEarly : List (TaskId × Action) :=
  [(0, .connect 1 1 false 0 5 (some 0) lucky), (1, .begin lucky), (1, .finish 6 lucky), (1, .disconnect 0 lucky), (0, .wake),
    (0, .read), (0, .begin lucky), (0, .finish 0 lucky)]

/-- The client closes a connection twice, whose entry stays until the server is told. -/
def closedTwice : List (TaskId × Action) :=
  settled 5 6 ++ [(0, .disconnect 0 lucky), (0, .disconnect 0 lucky), (1, .begin lucky), (1, .finish 0 lucky), (1, .begin lucky),
    (1, .finish 0 lucky)]

/-- The client closes a connection that has gone from one server to another, which
wants to be told with a reference of its own. -/
def closedAfterMove : List (TaskId × Action) :=
  settled 5 6 ++ [(1, .forward 0 2 2 false 0 lucky), (2, .begin lucky), (2, .finish 7 lucky), (0, .disconnect 0 lucky),
    (2, .begin lucky), (2, .finish 0 lucky)]

theorem disconnects_broken : (∃ s, run (step trio) start closedEarly = some s ∧ ¬ Delivered s) ∧
      (∃ s, run (step pair) start closedTwice = some s ∧ ¬ Delivered s) ∧
      ∃ s, run (step trio) start closedAfterMove = some s ∧ ¬ Delivered s := by
  refine ⟨⟨_, rfl, fun h => ?_⟩, ⟨_, rfl, fun h => ?_⟩, ⟨_, rfl, fun h => ?_⟩⟩
  · refine absurd (h.told (fun i => ?_) .client 0 5 (by decide) (by decide)) (by decide)
    match i with
    | 0 | 1 | 2 | n + 3 => rfl
  · exact absurd (h.once .server 0) (by decide)
  · refine absurd (h.told (fun i => ?_) .server 0 7 (by decide) (by decide)) (by decide)
    match i with
    | 0 | 1 | 2 | n + 3 => rfl

end Spangap.DisconnectRuns
