import Spangap.Handshake
import Spangap.Rings

namespace Spangap.Conservation

open PacketLink (Link Desc linkPurge linkDequeue linkEnqueue linkWaitForSpace itsSendPacket)
open List Option Its Ledger Rings
open Handshake (quiet_beginCancel quiet_beginMsg quiet_finishMsg)

variable {i x len port : Nat} {null late : Bool} {L : Link Payload} {luck : Luck} {w : World} {s t : Sys} {me : TaskId}

section Calls

variable {k : Nat} {P : Stock} {t : TaskId} {m : Msg}

section

variable (h : Ok w s k P)
include h

theorem ok_notify (hm : m.payload = none) : Ok w (notify w luck s t m).1 k P := by
  unfold notify
  split
  next hsend =>
    have ht : t < w.count := by simpa using (Bool.and_eq_true_iff.mp hsend).1
    refine Ok.inboxEnqueue ⟨?_, h.wired.withMem _⟩ ht luck.enq
    rw [msgStock, hm, zero_add]
    exact h.bal.hdrAlloc
  · exact h

theorem ok_buildCopyMsg (luck : Luck) (t : TaskId) (m : Msg) (data : Bool) (len : Nat) :
    ((buildCopyMsg w luck s t m data len).2 = none → Ok w (buildCopyMsg w luck s t m data len).1 k P) ∧
      ∀ m', (buildCopyMsg w luck s t m data len).2 = some m' →
        Ok w (buildCopyMsg w luck s t m data len).1 (k + 1) (msgStock m' + P) := by
  unfold buildCopyMsg
  split
  · exact ⟨fun _ => h, by simp⟩
  split
  · split
    · split
      · refine ⟨by simp, fun m' hm' => ?_⟩
        rw [← some.inj hm']
        exact ⟨h.bal.hdrAlloc.payTake len, (h.wired.withMem Its.hdrAlloc).withMem fun mem => payTake mem len⟩
      · exact ⟨fun _ => ⟨h.bal.hdrAlloc.hdrFree, (h.wired.withMem _).withMem _⟩, by simp⟩
    · refine ⟨by simp, fun m' hm' => ?_⟩
      rw [← some.inj hm', msgStock, zero_add]
      exact ⟨h.bal.hdrAlloc, h.wired.withMem _⟩
  · exact ⟨fun _ => h, by simp⟩

theorem ok_itsDisconnect (x : Nat) : Ok w (itsDisconnect w luck s t x) k P := by
  unfold itsDisconnect
  split
  · exact h
  next c hc =>
    generalize (c.noPool && decide (c.kind ≠ .packet)) = noPool
    have hfirst : ∀ e, Ok w (if noPool = true then s.note e else connFree (s.note e) x) k P := by
      intro e
      split
      · exact h.note e
      · exact ok_connFree (h.note e) x
    have hlast : ∀ {u : Sys} (target : TaskId) {m : Msg}, m.payload = none → Ok w u k P →
        Ok w (if (noPool && !(notify w luck u target m).2) = true then connFree (notify w luck u target m).1 x
          else (notify w luck u target m).1) k P := by
      intro u target m hm hu
      split
      · exact ok_connFree (ok_notify hu hm) x
      · exact ok_notify hu hm
    split
    · exact hlast c.client rfl (hfirst _)
    split
    · exact hlast c.server rfl (hfirst _)
    · exact h

theorem ok_ack (m : Msg) (handle : Option Nat) : Ok w (ack s m handle) k P :=
  (h.withTask m.sender (f := fun t => { t with ackHandle := handle, ackNonce := m.nonce, ackSem := true }) (.refl _)).note _

theorem ok_serverCall (port about : Nat) (ref : Int) : Ok w (serverCall w s t port about ref) k P :=
  h.noteIf _ _

theorem ok_clientCall (cb : Option Nat) (about : Nat) (ref : Int) : Ok w (clientCall s cb about ref) k P :=
  h.noteIf _ _

theorem ok_listen (port about : Nat) (sRef : Int) : Ok w (listen w s t port about sRef) k P :=
  h.noteIf _ _

end

theorem connAlloc_free (h : connAlloc s = some x) : s.conns x = none := by
  have := find?_some h
  simpa using this

theorem ok_beginConnect (h : Ok w s k P) : Ok w (beginConnect w luck s t m).1 k P := by
  unfold beginConnect
  split
  · exact h
  split
  · exact h
  next x hx =>
    obtain ⟨-, hx⟩ := ite_none_right_eq_some.mp hx
    exact ok_newConn h (connAlloc_free hx) (equipped_buffers luck _ s.links) _

theorem ok_beginMsg (h : Ok w s k P) : Ok w (beginMsg w luck s t m).1 k P := by
  unfold beginMsg
  split
  · exact ok_beginConnect h
  · unfold beginCancel
    split
    · exact h
    · exact ok_serverCall ((ok_connFree h _).note _) _ _ _
  · unfold beginDiscFromClient
    split
    · exact ok_serverCall h _ _ _
    · exact ok_serverCall ((ok_connFree h _).note _) _ _ _
  · unfold beginDiscFromServer
    split
    · exact ok_clientCall h _ _ _
    · exact ok_clientCall ((ok_connFree h _).note _) _ _ _
  · unfold beginForward
    split
    · exact h
    split
    · exact ok_itsDisconnect h _
    · exact h.withConn _ fun c => by funext d; cases d <;> rfl
  · exact h

theorem ok_finishMsg (h : Ok w s k P) (f : Frame) (sRef : Int) : Ok w (finishMsg w luck s t f sRef) k P := by
  unfold finishMsg
  split
  · split
    · exact ok_ack h _ _
    split
    · refine ok_ack ?_ _ _
      split
      · exact ok_listen (h.withConn _ fun c => by funext d; cases d <;> rfl) _ _ _
      · exact h
    · exact ok_ack (ok_connFree h _) _ _
  · split
    · split
      · exact ok_itsDisconnect h _
      split
      · exact ok_listen h _ _ _
      · exact h
    · exact h
  · exact h

theorem ok_itsConnect (h : Ok w s k P) (srv : TaskId) (port : Nat) (data : Bool) (len : Nat) (ref : Int) (cb : Option Nat) :
    Ok w (itsConnect w luck s t srv port data len ref cb) k P := by
  have hcalls : Ok w { s with calls := s.calls + 1 } k P := ⟨h.bal.congr rfl rfl rfl, h.wired.congr rfl fun _ c hc => ⟨c, hc, rfl⟩⟩
  unfold itsConnect
  dsimp only
  split
  next hsrv =>
    generalize (if (s.tasks t).connectGen + 1 = 0 then _ else _ : UInt32) = nonce
    have hready := hcalls.withTask t (f := fun t => { t with ackSem := false, ackHandle := none, connectGen := nonce }) (.refl _)
    obtain ⟨hnone, hsome⟩ := ok_buildCopyMsg hready luck srv
      { blankMsg .connect t s.calls with port := port, nonce := nonce } data len
    split
    next hr => exact (hnone hr).note _
    next m hr =>
      split
      · exact ((hsome m hr).inboxEnqueue hsrv.2.1 luck.enq).withTask t (.refl _)
      · exact ((hsome m hr).inboxEnqueue hsrv.2.1 luck.enq).note _
  · exact hcalls.note _

theorem ok_itsServerForward (h : Ok w s k P) (x : Nat) (target : TaskId) (port : Nat) (data : Bool) (len : Nat) :
    Ok w (itsServerForward w luck s t x target port data len) k P := by
  unfold itsServerForward
  split
  · exact h
  next c hc =>
    split
    · exact h
    next sp hsp =>
      obtain ⟨htarget, -⟩ := ite_none_right_eq_some.mp hsp
      split
      · exact h
      · have hmoved := (h.withConn x (f := fun c => { c with server := target, port := port, kind := sp.kind })
          fun c => by funext d; cases d <;> rfl).note (.moved c.id)
        obtain ⟨hnone, hsome⟩ := ok_buildCopyMsg hmoved luck target
          { blankMsg .forward t c.id with port := port, handle := some x } data len
        dsimp only
        split
        next hr => exact hnone hr
        next m hr => exact (hsome m hr).inboxEnqueue htarget.1 luck.enq

theorem lt_of_auxRegistered (h : auxRegistered w t port = true) : t < w.count := by
  simpa using (Bool.and_eq_true_iff.mp h).1

theorem ok_itsSendAux (h : Ok w s k P) (me : TaskId) (port : Nat) (data : Bool) (len : Nat) :
    Ok w (itsSendAux w luck s me t port data len).1 k P := by
  unfold itsSendAux
  split
  next hreg =>
    obtain ⟨hnone, hsome⟩ := ok_buildCopyMsg h luck t { blankMsg .aux me 0 with port := port } data len
    dsimp only
    split
    next hr => exact hnone hr
    next m hr => exact (hsome m hr).inboxEnqueue (lt_of_auxRegistered hreg) luck.enq
  · exact h

theorem ok_giveBack {p : Nat} (h : Ok w s k ((p, len) ::ₘ P)) :
    Ok w (s.withMem fun mem => { mem with pay := ctrSub mem.pay len, returned := mem.returned ++ [p] }) k P := by
  refine ⟨h.bal.give rfl rfl rfl ?_, h.wired.withMem _⟩
  rw [coe_concat, Multiset.add_cons]

theorem ok_itsSendAuxOwned (h : Ok w s k P) (me : TaskId)
    (hnull : null = true → auxRegistered w t port = true → len ≤ (w.task t).inboxMsgMax → luck.hdr = true → luck.enq = false) :
    Ok w (itsSendAuxOwned w luck s me t port null len).1 k P := by
  unfold itsSendAuxOwned
  split
  next hgo =>
    obtain ⟨hgo, hhdr⟩ := Bool.and_eq_true_iff.mp hgo
    obtain ⟨hreg, hlen⟩ := Bool.and_eq_true_iff.mp hgo
    have ht := lt_of_auxRegistered hreg
    have htaken : Ok w ((s.withMem hdrAlloc).withMem fun mem => payTake mem len) (k + 1) ((s.mem.taken, len) ::ₘ P) :=
      ⟨h.bal.hdrAlloc.payTake len, (h.wired.withMem _).withMem _⟩
    dsimp only
    split
    next henq =>
      cases null with
      | true => simp [hnull rfl hreg (of_decide_eq_true hlen) hhdr] at henq
      | false => exact Ok.inboxEnqueue htaken ht true
    · refine Ok.inboxEnqueue ?_ ht false
      rw [msgStock, zero_add]
      exact ok_giveBack htaken
  · exact h

theorem sendLink_ring (h : sendLink s t x = some i) : ∃ c d, s.conns x = some c ∧ sendRing c d = some i := by
  obtain ⟨c, hc, h⟩ := bind_eq_some_iff.mp h
  split at h
  · split at h
    · exact ⟨c, .client, hc, h⟩
    · exact ⟨c, .server, hc, (ite_none_right_eq_some.mp h).2⟩
  · simp at h

theorem recvLink_ring (h : recvLink s t x = some i) : ∃ c d, s.conns x = some c ∧ sendRing c d = some i := by
  obtain ⟨c, hc, h⟩ := bind_eq_some_iff.mp h
  split at h
  · split at h
    · exact ⟨c, .server, hc, h⟩
    · exact ⟨c, .client, hc, (ite_none_right_eq_some.mp h).2⟩
  · simp at h

theorem itsSend_cases (luck : Luck) (late owned null : Bool) (s : Sys) (t : TaskId) (x len : Nat) :
    itsSend luck late owned null s t x len = (s, false) ∨
      ∃ i L, sendLink s t x = some i ∧ s.links[i]? = some L ∧ (0 < len ∧ len ≤ L.maxMsg ∧ linkWaitForSpace late L len = true) ∧
        itsSend luck late owned null s t x len =
          ({ s with links := s.links.set i (linkEnqueue L ⟨s.mem.taken, owned && null⟩ len), mem := payTake s.mem len }, true) := by
  unfold itsSend
  split
  · exact .inl rfl
  next i L hi =>
    obtain ⟨i', hring, hL⟩ := bind_eq_some_iff.mp hi
    obtain ⟨L', hL, heq⟩ := map_eq_some_iff.mp hL
    cases heq
    dsimp only
    split
    · exact .inl rfl
    next hsent =>
      refine .inr ⟨i, L, hring, hL, ?_⟩
      unfold itsSendPacket at hsent ⊢
      split at hsent
      · exact absurd rfl hsent
      next hlen =>
        split at hsent
        next hwait =>
          split at hsent
          next hok =>
            rw [if_neg hlen, if_pos hwait, if_pos hok]
            exact ⟨⟨by omega, by omega, hwait⟩, rfl⟩
          · exact absurd rfl hsent
        · exact absurd rfl hsent

theorem itsSend_owned (hring : sendLink s t x = some i) (hL : s.links[i]? = some L) (hpos : 0 < len)
    (hmax : len ≤ L.maxMsg) (hwait : linkWaitForSpace late L len = true) (null : Bool) :
    itsSend luck late true null s t x len =
      ({ s with links := s.links.set i (linkEnqueue L ⟨s.mem.taken, null⟩ len), mem := payTake s.mem len }, true) := by
  have hfound : ((sendLink s t x).bind fun i => s.links[i]?.map fun L => (i, L)) = some (i, L) := by
    rw [hring, bind_some, hL, map_some]
  have hpacket : itsSendPacket late luck.pay true (⟨s.mem.taken, null⟩ : Payload) len L =
      (linkEnqueue L ⟨s.mem.taken, null⟩ len, len) := by
    rw [itsSendPacket, if_neg (by omega), if_pos hwait, Bool.true_or, if_pos rfl]
  unfold itsSend
  rw [hfound]
  dsimp only
  rw [Bool.true_and, hpacket, if_neg hpos.ne']

theorem queue_sent (h : linkWaitForSpace late L len = true) (p : Payload) :
    (linkEnqueue L p len).queue = L.queue ++ [⟨len, p⟩] :=
  PacketLink.queue_linkEnqueue ((PacketLink.linkCanSend_iff L len).mp (Bool.and_eq_true_iff.mp h).1).1 p len

theorem linkStock_sent (h : linkWaitForSpace late L len = true) (p : Payload) :
    linkStock (linkEnqueue L p len) = linkStock L + stock p len := by
  rw [linkStock, linkStock, queue_sent h, map_append, sum_append, map_singleton, sum_singleton]

theorem ok_itsSend (h : Ok w s k P) (late : Bool) {owned : Bool} (hnull : (owned && null) = false) (x len : Nat) :
    Ok w (itsSend luck late owned null s t x len).1 k P := by
  rcases itsSend_cases luck late owned null s t x len with heq | ⟨i, L, hring, hL, ⟨-, -, hwait⟩, heq⟩
  · rw [heq]
    exact h
  · obtain ⟨c, d, hc, hcd⟩ := sendLink_ring hring
    rw [heq, hnull]
    refine ⟨(h.bal.payTake len).setLink (s := s.withMem fun mem => payTake mem len) hL ?_, ?_⟩
    · rw [linkStock_sent hwait, add_assoc]
      rfl
    · suffices hwired : Wired { s with links := s.links.set i (linkEnqueue L ⟨s.mem.taken, false⟩ len) } from
        hwired.withMem fun mem => payTake mem len
      refine h.wired.setRing hc hcd hL rfl rfl ?_
      rw [queue_sent hwait]
      exact forall_mem_append.mpr ⟨h.wired.blocks i L hL, forall_mem_singleton.mpr rfl⟩

theorem ok_dequeue (h : Ok w s k P) {d : Desc Payload} {L' : Link Payload}
    (hi : ((recvLink s t x).bind fun i => s.links[i]?.bind fun L => (linkDequeue L).map fun r => (i, r)) = some (i, d, L')) :
    Ok w { s with links := s.links.set i L' } k (stock d.ptr d.len + P) ∧ d.ptr.null = false := by
  obtain ⟨i', hring, hi⟩ := bind_eq_some_iff.mp hi
  obtain ⟨L, hL, hi⟩ := bind_eq_some_iff.mp hi
  obtain ⟨r, hr, heq⟩ := map_eq_some_iff.mp hi
  cases heq
  obtain ⟨hq, hL'⟩ := PacketLink.linkDequeue_spec hr
  obtain ⟨c, e, hc, hce⟩ := recvLink_ring hring
  have hblocks := h.wired.blocks i L hL
  rw [hq] at hblocks
  refine ⟨⟨h.bal.setLink hL ?_, ?_⟩, hblocks d mem_cons_self⟩
  · rw [linkStock, linkStock, hq, map_cons, sum_cons]
    abel
  · refine h.wired.setRing hc hce hL ?_ ?_ fun e he => hblocks e (mem_cons_of_mem _ he)
    · rw [hL']
    · rw [hL']

theorem ok_itsRecv (h : Ok w s k P) (x : Nat) : Ok w (Its.itsRecv s t x) k P := by
  unfold Its.itsRecv
  split
  · exact h
  next i d L' hi =>
    obtain ⟨hout, -⟩ := ok_dequeue h hi
    exact ⟨hout.bal.payDrop, hout.wired.withMem (payDrop d.ptr d.len)⟩

theorem ok_itsRecvRef (h : Ok w s k P) (x : Nat) : Ok w (Its.itsRecvRef s t x) k P := by
  unfold Its.itsRecvRef
  split
  · exact h
  next i d L' hi =>
    obtain ⟨hout, hblock⟩ := ok_dequeue h hi
    rw [stock, if_neg (by simp [hblock]), Multiset.singleton_add] at hout
    refine ⟨Balanced.give hout.bal ?_ ?_ ?_ ?_, hout.wired.withMem (payHandoff d.ptr d.len)⟩
    · rfl
    · rfl
    · rfl
    show (s.mem.freed : Multiset Nat) + (s.mem.handed ++ [d.ptr.serial] : List Nat) + s.mem.returned = _
    rw [coe_concat, Multiset.add_cons, Multiset.cons_add]

theorem ok_linkPurgeAt (h : Ok w s k P) {c : Conn} (d : Side) (hc : s.conns x = some c) :
    Ok w (linkPurgeAt (sendRing c d) s) k P := by
  unfold linkPurgeAt
  split
  · exact h
  next i L hi =>
    obtain ⟨i', hring, hL⟩ := bind_eq_some_iff.mp hi
    obtain ⟨L', hL, heq⟩ := map_eq_some_iff.mp hL
    cases heq
    obtain ⟨M, hM, hMuse, hMmade⟩ := h.wired.inUse x c d i hc hring
    rw [hL] at hM
    cases hM
    have hpurge : linkPurge L = ({ L with queue := [], outstanding := 0 }, L.queue) := if_pos hMmade
    have hset : Balanced w { s with links := s.links.set i (linkPurge L).1 } k
        (((linkPurge L).2.map fun d => stock d.ptr d.len).sum + P) := by
      refine h.bal.setLink hL ?_
      rw [hpurge]
      exact (zero_add _).symm
    refine ⟨hset.dropAll, Wired.withMem (h.wired.setRing hc hring hL ?_ ?_ ?_) (dropAll (linkPurge L).2)⟩
    · rw [hpurge]
    · rw [hpurge]
    · rw [hpurge]
      exact fun _ he => absurd he not_mem_nil

theorem conns_linkPurgeAt (r : Option Nat) (s : Sys) : (linkPurgeAt r s).conns = s.conns := by
  unfold linkPurgeAt
  split <;> rfl

theorem ok_itsReset (h : Ok w s k P) (x : Nat) : Ok w (itsReset s x) k P := by
  unfold itsReset
  split
  · exact h
  next c hc =>
    have hc := (filter_eq_some_iff.mp hc).1
    exact ok_linkPurgeAt (ok_linkPurgeAt h .client hc) .server ((congrFun (conns_linkPurgeAt _ s) x).trans hc)

end Calls

theorem frame_beginMsg (m : Msg) (i : TaskId) : ((beginMsg w luck s me m).1.tasks i).frame = (s.tasks i).frame := by
  rcases eq_or_ne m.kind .connect with hkind | hconnect
  · rw [beginMsg, hkind]
    dsimp only [beginConnect]
    split
    · rfl
    split <;> rfl
  rcases eq_or_ne m.kind .connectCancel with hkind | hcancel
  · rw [beginMsg, hkind]
    exact (quiet_beginCancel m).frame i
  · exact (quiet_beginMsg hconnect hcancel).frame i

theorem frame_finishMsg (f : Frame) (sRef : Int) (i : TaskId) :
    ((finishMsg w luck s me f sRef).tasks i).frame = (s.tasks i).frame := by
  have hack : ∀ (u : Sys) (handle : Option Nat), ((ack u f.msg handle).tasks i).frame = (u.tasks i).frame := by
    intro u handle
    rcases eq_or_ne i f.msg.sender with rfl | hi
    · rw [tasks_ack_self]
    · rw [tasks_ack_ne hi]
  rcases eq_or_ne f.msg.kind .connect with hkind | hkind
  · rw [finishMsg, hkind]
    dsimp only
    split
    · exact hack s _
    split
    · rw [hack]
      split
      · rw [tasks_listen, Sys.tasks_withConn]
      · rfl
    · rw [hack, tasks_connFree]
  · exact (quiet_finishMsg hkind sRef).frame i

/-- An owned send of NULL that is accepted: a target that has the port and takes
the length, with a header and a place in the inbox, or a ring that takes the
length and has space for it in time. -/
def NullTaken (w : World) (s : Sys) (a : TaskId × Action) : Prop :=
  match a.2 with
  | .auxOwned target port null len luck =>
    null = true ∧ auxRegistered w target port = true ∧ len ≤ (w.task target).inboxMsgMax ∧ luck.hdr = true ∧ luck.enq = true
  | .send h len late owned null _ =>
    owned = true ∧ null = true ∧ ∃ i L, sendLink s a.1 h = some i ∧ s.links[i]? = some L ∧
      0 < len ∧ len ≤ L.maxMsg ∧ linkWaitForSpace late L len = true
  | _ => False

/-- A step that is taken is no such send. -/
def NoNull (w : World) (s : Sys) (a : TaskId × Action) : Prop := step w s a ≠ none → ¬ NullTaken w s a

section Runs

variable {x : Action} {a : TaskId × Action}

theorem ok_begin (h : Ok w s 0 0) (ht : act w s me (.begin luck) = some t) : Ok w t 0 0 := by
  obtain ⟨m, inbox, hframe, hinbox, rfl⟩ := act_begin ht
  have hout : Ok w (takeOut s me m inbox) 0 0 := by
    refine h.withTask me ?_
    rw [taskMsgs, taskMsgs, hframe, hinbox]
    exact (@perm_append_comm _ inbox _).trans (by simp)
  refine (ok_beginMsg hout).withTask me ?_
  rw [taskMsgs, taskMsgs, frame_beginMsg, takeOut, Sys.tasks_withTask_self]
  exact .of_eq (congrArg (fun m => _ ++ [m]) (msg_beginMsg ..))

theorem ok_finish (h : Ok w s 0 0) (hme : me < w.count) {sRef : Int} (ht : act w s me (.finish sRef luck) = some t) :
    Ok w t 0 0 := by
  obtain ⟨f, hframe, rfl⟩ := act_finish ht
  have hdone : Ok w (finishMsg w luck s me f sRef) 0 0 := ok_finishMsg h f sRef
  have hstill : ((finishMsg w luck s me f sRef).tasks me).frame = some f := (frame_finishMsg f sRef me).trans hframe
  exact ⟨(hdone.bal.release hme hstill).msgFree, (hdone.wired.withTask me _).withMem _⟩

theorem ok_act (h : Ok w s 0 0) (hme : me < w.count) (hnull : ¬ NullTaken w s (me, x)) (ht : act w s me x = some t) :
    Ok w t 0 0 := by
  cases x with
  | wake => simp [act] at ht
  | read => simp [act] at ht
  | timeout luck => simp [act] at ht
  | begin luck => exact ok_begin h ht
  | finish sRef luck => exact ok_finish h hme ht
  | connect srv port data len ref cb luck =>
    obtain ⟨-, heq⟩ := ite_none_right_eq_some.mp ht
    exact some.inj heq ▸ ok_itsConnect h srv port data len ref cb
  | disconnect y luck => exact some.inj ht ▸ ok_itsDisconnect h y
  | forward y target port data len luck => exact some.inj ht ▸ ok_itsServerForward h y target port data len
  | aux target port data len luck => exact some.inj ht ▸ ok_itsSendAux h me port data len
  | auxOwned target port null len luck =>
    refine some.inj ht ▸ ok_itsSendAuxOwned h me fun htrue hreg hlen hhdr => ?_
    exact Bool.not_eq_true _ |>.mp fun henq => hnull ⟨htrue, hreg, hlen, hhdr, henq⟩
  | send y len late owned null luck =>
    refine some.inj ht ▸ ?_
    cases hown : owned && null with
    | false => exact ok_itsSend h late hown y len
    | true =>
      obtain ⟨howned, htrue⟩ := Bool.and_eq_true_iff.mp hown
      rcases itsSend_cases luck late owned null s me y len with heq | ⟨i, L, hring, hL, hfits, -⟩
      · rw [heq]
        exact h
      · exact absurd ⟨howned, htrue, i, L, hring, hL, hfits⟩ hnull
  | recv y => exact some.inj ht ▸ ok_itsRecv h y
  | recvRef y => exact some.inj ht ▸ ok_itsRecvRef h y
  | reset y => exact some.inj ht ▸ ok_itsReset h y

theorem ok_step (h : Ok w s 0 0) (hnull : ¬ NullTaken w s a) (ht : step w s a = some t) : Ok w t 0 0 := by
  obtain ⟨hme, ⟨k, -, ⟨-, -, -, rfl⟩ | ⟨-, -, rfl⟩ | ⟨luck, -, -, -, rfl⟩⟩ | ⟨-, ht⟩⟩ := step_cases ht
  · exact h.withTask a.1 (.refl _)
  · unfold connectRead
    have hread := (h.withTask a.1 (f := fun t => { t with call := none }) (.refl _)).note
      (.returned k.id (s.tasks a.1).ackHandle)
    dsimp only
    split
    · exact hread
    · refine Ok.noteIf (hread.withConn _ fun c => by funext d; cases d <;> rfl) _ _
  · exact ok_notify ((h.withTask a.1 (f := fun t => { t with call := none }) (.refl _)).note (.returned k.id none)) rfl
  · exact ok_act h hme hnull ht

theorem pay_of_nullTaken (hnull : NullTaken w s a) (ht : step w s a = some t) :
    heldPay w t = heldPay w s ∧ ∃ len, t.mem.pay = ctrAdd s.mem.pay len := by
  obtain ⟨me, x⟩ := a
  obtain ⟨-, ⟨k, -, hx⟩ | ⟨-, ht⟩⟩ := step_cases ht
  · exfalso
    rcases hx with ⟨rfl, -⟩ | ⟨rfl, -⟩ | ⟨luck, rfl, -⟩ <;> exact hnull
  unfold NullTaken at hnull
  split at hnull
  next target port null len luck hx =>
    obtain ⟨rfl, hreg, hlen, hhdr, henq⟩ := hnull
    subst hx
    have hheld := (held_enqueue (s := (s.withMem hdrAlloc).withMem fun mem => payTake mem len) (lt_of_auxRegistered hreg)
      { blankMsg .aux me 0 with port := port, len := len, payload := none }).2
    have hgo : (auxRegistered w target port && decide (len ≤ (w.task target).inboxMsgMax) && luck.hdr) = true := by
      simp [hreg, hlen, hhdr]
    have hsent := some.inj ht
    rw [itsSendAuxOwned, if_pos hgo] at hsent
    rw [if_pos henq] at hsent
    rw [← hsent]
    exact ⟨hheld.trans (add_zero _), len, rfl⟩
  next y len late owned null luck hx =>
    obtain ⟨rfl, rfl, i, L, hring, hL, hpos, hmax, hwait⟩ := hnull
    subst hx
    have hsent := some.inj ht
    rw [itsSend_owned hring hL hpos hmax hwait] at hsent
    have hheld := heldPay_setLink (w := w) hL (linkEnqueue L ⟨s.mem.taken, true⟩ len) (payTake s.mem len)
    rw [linkStock_sent hwait] at hheld
    rw [← hsent]
    exact ⟨add_right_cancel (hheld.trans (congrArg (heldPay w s + ·) (add_zero _))), len, rfl⟩
  · exact hnull.elim

theorem ctrAdd_ne (c : Counter) (n : Nat) : ctrAdd c n ≠ c := by
  intro h
  have : c.blocks + 1 = c.blocks := congrArg Counter.blocks h
  simp at this

theorem unbalanced_of_nullTaken (h : Balanced w s 0 0) (hnull : NullTaken w s a) (ht : step w s a = some t) :
    ¬ Balanced w t 0 0 := by
  obtain ⟨hheld, len, hpay⟩ := pay_of_nullTaken hnull ht
  intro hbad
  have hsame := hbad.pay
  rw [hheld, ← h.pay, hpay] at hsame
  exact ctrAdd_ne _ _ hsame

theorem ok_start (w : World) : Ok w start 0 0 := by
  have hhdr : heldHdr w start = 0 := Finset.sum_eq_zero fun _ _ => rfl
  have hpay : heldPay w start = 0 := by
    have htasks : ∑ t ∈ Finset.range w.count, taskStock (start.tasks t) = 0 := Finset.sum_eq_zero fun _ _ => rfl
    rw [heldPay, htasks]
    rfl
  refine ⟨⟨?_, ?_, ?_⟩, ⟨?_, ?_, ?_, ?_⟩⟩
  · rw [hhdr]
    rfl
  · rw [hpay]
    rfl
  · rw [hpay]
    rfl
  · exact (by simp [start])
  · exact (by simp [start])
  · exact (by simp [start])
  · exact (by simp [start])

end Runs

/-- The counters are as before and nothing is kept or handed on. -/
structure Kept (s t : Sys) : Prop where
  pay : t.mem.pay = s.mem.pay
  hdr : t.mem.hdr = s.mem.hdr
  handed : t.mem.handed = s.mem.handed
  tasks : t.tasks = s.tasks
  links : t.links = s.links

/-- A send that reports failure keeps nothing, and frees no block of the caller. -/
structure FailedSendsKeep (w : World) (s : Sys) : Prop where
  aux : ∀ luck me target port data len, (itsSendAux w luck s me target port data len).2 = false →
    Kept s (itsSendAux w luck s me target port data len).1
  auxOwned : ∀ luck me target port null len, (itsSendAuxOwned w luck s me target port null len).2 = false →
    Kept s (itsSendAuxOwned w luck s me target port null len).1 ∧
      (itsSendAuxOwned w luck s me target port null len).1.mem.freed = s.mem.freed
  send : ∀ luck late owned null me h len, (itsSend luck late owned null s me h len).2 = false →
    (itsSend luck late owned null s me h len).1 = s

section Failures

variable {target : TaskId}

theorem Kept.refl (s : Sys) : Kept s s := ⟨rfl, rfl, rfl, rfl, rfl⟩

theorem kept_buildCopyMsg (w : World) (luck : Luck) (s : Sys) (target : TaskId) (m : Msg) (data : Bool) (len : Nat) :
    ((buildCopyMsg w luck s target m data len).2 = none → Kept s (buildCopyMsg w luck s target m data len).1) ∧
      ∀ m', (buildCopyMsg w luck s target m data len).2 = some m' →
        Kept s ((buildCopyMsg w luck s target m data len).1.withMem (msgFree m')) := by
  unfold buildCopyMsg
  split
  · exact ⟨fun _ => .refl s, by simp⟩
  split
  · split
    · split
      · refine ⟨by simp, fun m' hm' => ?_⟩
        rw [← some.inj hm']
        exact ⟨ctrSub_ctrAdd _ _, ctrSub_ctrAdd _ _, rfl, rfl, rfl⟩
      · exact ⟨fun _ => ⟨rfl, ctrSub_ctrAdd _ _, rfl, rfl, rfl⟩, by simp⟩
    · refine ⟨by simp, fun m' hm' => ?_⟩
      rw [← some.inj hm']
      exact ⟨rfl, ctrSub_ctrAdd _ _, rfl, rfl, rfl⟩
  · exact ⟨fun _ => .refl s, by simp⟩

theorem kept_itsSendAux {data : Bool} (h : (itsSendAux w luck s me target port data len).2 = false) :
    Kept s (itsSendAux w luck s me target port data len).1 := by
  unfold itsSendAux at h ⊢
  split
  next hreg =>
    rw [if_pos hreg] at h
    obtain ⟨hnone, hsome⟩ := kept_buildCopyMsg w luck s target { blankMsg .aux me 0 with port := port } data len
    dsimp only at h ⊢
    split
    next hr => exact hnone hr
    next m hr =>
      rw [hr] at h
      dsimp only at h
      rw [h]
      exact hsome m hr
  · exact .refl s

theorem kept_itsSendAuxOwned (h : (itsSendAuxOwned w luck s me target port null len).2 = false) :
    Kept s (itsSendAuxOwned w luck s me target port null len).1 ∧
      (itsSendAuxOwned w luck s me target port null len).1.mem.freed = s.mem.freed := by
  unfold itsSendAuxOwned at h ⊢
  split
  next hgo =>
    rw [if_pos hgo] at h
    dsimp only at h ⊢
    split
    next henq =>
      rw [if_pos henq] at h
      simp at h
    · exact ⟨⟨ctrSub_ctrAdd _ _, ctrSub_ctrAdd _ _, rfl, rfl, rfl⟩, rfl⟩
  · exact ⟨.refl s, rfl⟩

theorem failedSendsKeep (w : World) (s : Sys) : FailedSendsKeep w s := by
  refine ⟨fun _ _ _ _ _ _ h => kept_itsSendAux h, fun _ _ _ _ _ _ h => kept_itsSendAuxOwned h, ?_⟩
  intro luck late owned null me y len h
  rcases itsSend_cases luck late owned null s me y len with heq | ⟨i, L, -, -, -, heq⟩
  · rw [heq]
  · rw [heq] at h
    simp at h

end Failures

section Schedules

open Runs

variable {as : List (TaskId × Action)}

theorem balanced_of_meets (h : Ok w s 0 0) (hmeets : Meets (step w) (NoNull w) s as)
    (hrun : run (step w) s as = some t) : Ok w t 0 0 := by
  refine run_invariant (fun s a t hs hok ht => ok_step hs (hok ?_) ht) h hmeets hrun
  rw [ht]
  exact some_ne_none t

theorem meets_of_balanced (h : Ok w s 0 0)
    (hall : ∀ A B u, as = A ++ B → run (step w) s A = some u → Balanced w u 0 0) : Meets (step w) (NoNull w) s as := by
  induction as generalizing s with
  | nil => trivial
  | cons a as ih =>
    have hnull : ∀ t, step w s a = some t → ¬ NullTaken w s a := by
      intro t ht hnull
      refine unbalanced_of_nullTaken h.bal hnull ht (hall [a] as t rfl ?_)
      exact (run_cons _ _ _ _ _).mpr ⟨t, ht, rfl⟩
    refine ⟨fun hne => ?_, fun t ht => ih (ok_step h (hnull t ht) ht) fun A B u hAB hu => ?_⟩
    · obtain ⟨t, ht⟩ := ne_none_iff_exists'.mp hne
      exact hnull t ht
    · exact hall (a :: A) B u (congrArg (a :: ·) hAB) ((run_cons _ _ _ _ _).mpr ⟨t, ht, hu⟩)

/-- After each operation of a schedule the counters tell what is held, every
payload taken over has gone one way once, and failed sends keep nothing: exactly
where no operation is an owned send of NULL that is accepted. -/
theorem memory_conserved_iff (w : World) (as : List (TaskId × Action)) :
    (∀ A B u, as = A ++ B → run (step w) start A = some u → Balanced w u 0 0 ∧ FailedSendsKeep w u) ↔
      Meets (step w) (NoNull w) start as := by
  constructor
  · exact fun h => meets_of_balanced (ok_start w) fun A B u hAB hu => (h A B u hAB hu).1
  · rintro h A B u rfl hu
    exact ⟨(balanced_of_meets (ok_start w) (meets_append h hu).1 hu).bal, failedSendsKeep w u⟩

end Schedules

def pair : World where
  count := 2
  task t := ⟨false, false, false, 0, 64, [], if t = 1 then [7] else []⟩

/-- NULL of length 0 is sent, picked up and done with: one block is counted and
none is held. -/
theorem null_send_counted :
    ∃ u, Runs.run (step pair) start [(0, .auxOwned 1 7 true 0 lucky), (1, .begin lucky), (1, .finish 0 lucky)] = some u ∧
      heldPay pair u = 0 ∧ u.mem.pay.blocks = 1 ∧ ¬ Balanced pair u 0 0 := by
  refine ⟨_, rfl, ?_, ?_, fun h => ?_⟩
  · decide +kernel
  · decide +kernel
  · exact absurd h.pay (by decide +kernel)

end Spangap.Conservation
