import Spangap.Disconnects

namespace Spangap.DisconnectCalls

open List Option Function Its Handshake HandshakeRuns Disconnects

variable {w : World} {s t : Sys} {me i : TaskId} {luck : Luck} {side : Side} {m : Msg} {h k x : Nat} {c : Conn}
  {log : List Event}

theorem acked_of_returned (hs : Inv w s) (h : .returned k (some x) ∈ s.log) : .acked k (some x) ∈ s.log := by
  obtain ⟨A, B, hsplit⟩ := append_of_mem h
  rw [hsplit]
  exact mem_append_left _ ((hs.told A B k (some x) hsplit).2 x rfl)

theorem unasked_of_returned (hs : Inv w s) (h : .returned k (some x) ∈ s.log) (i : TaskId) (m : Msg)
    (hm : m ∈ asks (s.tasks i)) : m.about ≠ k := by
  rintro rfl
  exact (hs.asked i m hm).2 _ (acked_of_returned hs h)

theorem unasked_of_closed (hs : Inv w s) (hb : Book w s) (h : .closed side k ∈ s.log) (i : TaskId) (m : Msg)
    (hm : m ∈ asks (s.tasks i)) : m.about ≠ k := by
  obtain ⟨x, hx⟩ := hb.chronicle.closed side k h
  exact unasked_of_returned hs hx i m hm

theorem uncalled_of_closed (hs : Inv w s) (hb : Book w s) (h : .closed side k ∈ s.log) {call : Call}
    (hcall : (s.tasks i).call = some call) : call.id ≠ k := by
  rintro rfl
  obtain ⟨x, hx⟩ := hb.chronicle.closed side _ h
  exact (hs.waiting i call hcall).silent _ hx

theorem book_withMem (hb : Book w s) (f : Memory → Memory) : Book w (s.withMem f) := hb.congr rfl rfl rfl

theorem book_inboxEnqueue (hb : Book w s) (hkind : m.kind = .connectCancel) (target : TaskId) (ok : Bool) :
    Book w (inboxEnqueue s target m ok) := by
  cases ok with
  | true => refine hb.post ?_ ?_ ?_ target <;> simp [isNotice, hkind]
  | false => exact book_withMem hb _

theorem book_aside (hb : Book w s) (h : Aside s t) : Book w t := by
  rcases h.tasks with heq | ⟨target, m, hm, heq⟩
  · exact hb.congr heq h.conns h.log
  · have hposted : Book w (s.post target m) := by
      refine hb.post ?_ ?_ ?_ target <;> simp [isNotice, hm]
    exact hposted.congr heq h.conns h.log

section Connects

variable {k : Call}

theorem book_returned (hb : Book w s) (id : Nat) (r : Option Nat) : Book w (s.note (.returned id r)) :=
  hb.noteShake rfl (by simp)

theorem book_itsConnect (hs : Inv w s) (hb : Book w s) (hme : me < w.count) (srv : TaskId) (port : Nat)
    (data : Bool) (len : Nat) (ref : Int) (cb : Option Nat) : Book w (itsConnect w luck s me srv port data len ref cb) := by
  have hfresh : ∀ r, .acked s.calls r ∉ s.log ∧ .returned s.calls r ∉ s.log :=
    fun r => ⟨fun h => Nat.lt_irrefl _ (hs.bound _ _ (.inl h)), fun h => Nat.lt_irrefl _ (hs.bound _ _ (.inr h))⟩
  have hnext : Book w { s with calls := s.calls + 1 } := hb.congr rfl rfl rfl
  unfold itsConnect
  dsimp only
  split
  · generalize (if (s.tasks me).connectGen + 1 = 0 then _ else _ : UInt32) = nonce
    have hready : Book w (Sys.withTask { s with calls := s.calls + 1 } me fun t =>
        { t with ackSem := false, ackHandle := none, connectGen := nonce }) :=
      hnext.withTask me rfl (fun _ hm => hm) (hb.opened me) (hb.answered me)
    have hlog : (Sys.withTask { s with calls := s.calls + 1 } me fun t =>
        { t with ackSem := false, ackHandle := none, connectGen := nonce }).log = s.log := rfl
    generalize Sys.withTask { s with calls := s.calls + 1 } me _ = u at hready hlog ⊢
    obtain ⟨⟨f, hf⟩, hspec⟩ := buildCopyMsg_spec w luck u srv
      { blankMsg .connect me s.calls with port := port, nonce := nonce } data len
    rw [hf]
    have hbuilt := book_withMem hready f
    split
    · exact book_returned hbuilt _ _
    next m hm =>
      obtain ⟨p, rfl⟩ := hspec m hm
      split
      next henq =>
        rw [henq]
        have hposted := hbuilt.post (m := { blankMsg .connect me s.calls with port := port, nonce := nonce, len := len, payload := p })
          rfl (by simp [blankMsg]) (fun _ => ⟨hme, fun r hr => (hfresh r).2 (hlog ▸ hr)⟩) srv
        refine hposted.withTask me rfl (fun _ hm => hm) (hposted.opened me) fun k h hk hacked => ?_
        cases hk
        exact absurd (hlog ▸ hacked) (hfresh _).1
      next henq =>
        rw [Bool.not_eq_true _ |>.mp henq]
        exact book_returned (book_withMem hbuilt _) _ _
  · exact book_returned hnext _ _

theorem book_wake (hb : Book w s) (hk : (s.tasks me).call = some k) : Book w (connectWake s me k) := by
  refine hb.withTask me rfl (fun _ hm => hm) (hb.opened me) fun k' h hk' => ?_
  cases hk'
  exact hb.answered me k h hk

theorem book_hangUp (hb : Book w s) (me : TaskId) : Book w (s.withCall me none) :=
  hb.withTask me rfl (fun _ hm => hm) (hb.opened me) (by simp)

theorem book_timeout (hb : Book w s) (k : Call) : Book w (connectTimeout w luck s me k) := by
  have hgone : Book w ((s.withCall me none).note (.returned k.id none)) :=
    book_returned (book_hangUp hb me) _ _
  unfold connectTimeout notify
  split
  · exact book_inboxEnqueue (book_withMem hgone _) rfl k.server luck.enq
  · exact hgone

theorem toInt8_of_le {ref : Int} (hnonneg : 0 ≤ ref) (hle : ref ≤ 127) : toInt8 ref = ref :=
  Int.bmod_eq_of_le (by omega) (by omega)

def readEntry (k : Call) (c : Conn) : Conn :=
  { c with
    clientRef := if 0 ≤ k.ref then toInt8 k.ref else c.clientRef
    cliDisconnectCb := if k.cb.isSome then k.cb else c.cliDisconnectCb }

def readEvents (k : Call) : List Event := if 0 ≤ k.ref ∧ k.cb.isSome then [.registered .client k.id k.ref] else []

theorem mem_readEvents {e : Event} : e ∈ readEvents k ↔ (0 ≤ k.ref ∧ k.cb.isSome) ∧ e = .registered .client k.id k.ref := by
  rw [readEvents, mem_ite_nil_right, mem_singleton]

theorem connectRead_some (hh : (s.tasks me).ackHandle = some h) :
    (connectRead s me k).tasks = (s.withCall me none).tasks ∧
      (connectRead s me k).conns = (s.withConn h (readEntry k)).conns ∧
      (connectRead s me k).log = s.log ++ [.returned k.id (some h)] ++ readEvents k := by
  unfold connectRead readEvents
  rw [hh]
  dsimp only
  split
  · exact ⟨rfl, rfl, rfl⟩
  · exact ⟨rfl, rfl, (append_nil _).symm⟩

theorem entry_read (hc : Entry w log c) (hlog : Chronicle log) (hsilent : ∀ h, .returned c.id (some h) ∉ log) (hid : c.id = k.id)
    (href : k.ref ≤ 127) (h : Nat) : Entry w (log ++ [.returned k.id (some h)] ++ readEvents k) (readEntry k c) := by
  obtain ⟨hcref, hcb⟩ := hc.blank hsilent
  have hnew : ∀ {r}, .registered .client c.id r ∈ log ++ [.returned k.id (some h)] ++ readEvents k ↔
      (0 ≤ k.ref ∧ k.cb.isSome) ∧ r = k.ref := by
    intro r
    have hnot : .registered .client c.id r ∉ log := fun hr => (hlog.toClient _ r hr).elim hsilent
    rw [hid] at hnot ⊢
    simp [hnot, mem_readEvents]
  refine ⟨hc.client, hc.server, ⟨fun r hr => ?_, ?_⟩, ?_, ?_⟩
  · obtain ⟨⟨hnonneg, -⟩, rfl⟩ := hnew.mp hr
    exact (if_pos hnonneg).trans (toInt8_of_le hnonneg href)
  · have href : 0 ≤ (readEntry k c).clientRef ↔ 0 ≤ k.ref := by
      unfold readEntry
      split
      next hnonneg => rw [toInt8_of_le hnonneg href]
      next hneg => exact iff_of_false (Int.not_le.mpr hcref) hneg
    have hthere : (readEntry k c).cliDisconnectCb.isSome = k.cb.isSome := by
      unfold readEntry
      rw [hcb]
      cases k.cb <;> rfl
    rw [href, hthere]
    exact ⟨fun ⟨r, hr⟩ => (hnew.mp hr).1, fun hthere => ⟨k.ref, hnew.mpr ⟨hthere, rfl⟩⟩⟩
  · intro hmoved
    refine (hc.toServer fun hin => hmoved ?_).congr fun r => ?_
    · exact mem_append_left _ (mem_append_left _ hin)
    · simp [mem_readEvents]
  · intro hnot
    refine absurd ?_ (hnot h)
    simp [readEntry, hid]

theorem book_read (hs : Inv w s) (hb : Book w s) (hk : (s.tasks me).call = some k) (hmatched : k.matched = true)
    (href : k.ref ≤ 127) : Book w (connectRead s me k) := by
  have hwait := hs.waiting me k hk
  have hacked := hwait.matched hmatched
  cases hh : (s.tasks me).ackHandle with
  | none =>
    unfold connectRead
    rw [hh]
    exact book_returned (book_hangUp hb me) _ _
  | some h =>
    rw [hh] at hacked
    obtain ⟨htasks, hconns, hlog⟩ := connectRead_some (k := k) hh
    obtain ⟨c, hc, hid⟩ := hb.answered me k h hk hacked
    have hsilent : ∀ x, .returned c.id (some x) ∉ s.log := fun x => hid ▸ hwait.silent (some x)
    have hgone : Book w ((s.withCall me none).note (.returned k.id (some h))) :=
      book_returned (book_hangUp hb me) _ _
    refine hgone.reshape h (readEntry k) (fun _ => rfl) (fun i => htasks ▸ ⟨rfl, rfl, rfl⟩) hconns hlog ?_ ?_ ?_ ?_ ?_ ?_
      (fun _ _ _ => ⟨rfl, rfl⟩) ?_
    · intro e he
      rw [(mem_readEvents.mp he).2]
      rfl
    · rw [hlog]
      refine hgone.chronicle.append fun e he log' hpre => ?_
      rw [(mem_readEvents.mp he).2]
      exact ⟨h, hpre.subset (by simp)⟩
    · intro side j r hclosed hin
      cases (mem_readEvents.mp hin).2
      exact uncalled_of_closed hs hb (by simpa using hclosed) hk rfl
    · exact fun j x hin => absurd (mem_readEvents.mp hin).2 (by simp)
    · intro c' hc'
      cases hc.symm.trans hc'
      rw [hlog]
      exact entry_read (hb.entry h c hc) hb.chronicle hsilent hid href h
    · intro y c' hy hc'
      rw [hlog]
      refine (hgone.entry y c' hc').grow fun side r hin => ?_
      have hsame := (mem_readEvents.mp hin).2
      injection hsame with _ hid'
      exact hy (handle_unique hs hc' hc (hid'.trans hid.symm))
    · intro i m side c' hm hkind hc' hfits
      cases hc'.symm.trans hc
      have hclosed := (hgone.notice i side m hm hkind).closed
      exact absurd (hid.symm.trans hfits.id) (uncalled_of_closed hs hb (by simpa using hclosed) hk)

end Connects

def hasReturned (log : List Event) (k : Nat) : Bool :=
  log.any fun e => match e with
    | .returned k' (some _) => k' = k
    | _ => false

theorem hasReturned_iff : hasReturned log k = true ↔ ∃ h, .returned k (some h) ∈ log := by
  rw [hasReturned, List.any_eq_true]
  constructor
  · rintro ⟨e, he, hk⟩
    split at hk
    next h => exact ⟨h, of_decide_eq_true hk ▸ he⟩
    · simp at hk
  · rintro ⟨h, hh⟩
    exact ⟨_, hh, decide_eq_true rfl⟩

/-- The client has read its handle, this side has not closed yet, and the client
closes no connection that was forwarded. -/
def Closable (s : Sys) (side : Side) (k : Nat) : Prop :=
  hasReturned s.log k = true ∧ .closed side k ∉ s.log ∧ (side = .client → .moved k ∉ s.log)
  deriving Decidable

def MayClose (s : Sys) (me : TaskId) (h : Nat) : Prop :=
  ∀ c ∈ s.conns h, if c.server = me then Closable s .server c.id else c.client = me → Closable s .client c.id
  deriving Decidable

theorem kind_closeMsg (c : Conn) (h : Nat) (side : Side) : (closeMsg c h side).kind = tells side.other := by
  cases side <;> rfl

theorem about_closeMsg (c : Conn) (h : Nat) (side : Side) : (closeMsg c h side).about = c.id := by
  cases side <;> rfl

theorem tells_inj {side' : Side} (h : tells side = tells side') : side = side' := by
  cases side <;> cases side' <;> first | rfl | simp [tells] at h

theorem other_other (side : Side) : side.other.other = side := by
  cases side <;> rfl

theorem fits_closeMsg (c : Conn) (h : Nat) (side : Side) : Fits w (endpoint c side.other) (closeMsg c h side) side.other c := by
  cases side <;> exact ⟨rfl, rfl, rfl, rfl, rfl⟩

theorem agrees_closeMsg (hc : Entry w log c) (h : Nat) (hmoved : side = .client → .moved c.id ∉ log) :
    Agrees log side.other c.id (closeMsg c h side).ref
      (listens w (endpoint c side.other) (closeMsg c h side).port (closeMsg c h side).cb side.other) := by
  cases side with
  | client => exact hc.toServer (hmoved rfl)
  | server => exact hc.toClient

theorem mem_closed {m' : Msg} {j : TaskId}
    (hin : m' ∈ ((s.post j m).tasks i).inbox) :
    m' ∈ (s.tasks i).inbox ∨ i = j ∧ m' = m := by
  rw [HandshakeCalls.task_post] at hin
  exact (mem_append.mp hin).imp_right HandshakeCalls.mem_post

theorem notices_post (hm : isNotice m = true) (i j : TaskId) :
    notices ((s.post j m).tasks i) =
      notices (s.tasks i) ++ if i = j then [m] else [] := by
  rw [HandshakeCalls.task_post, notices, notices, filter_append]
  split
  · rw [filter_cons_of_pos hm, filter_nil]
  · rw [filter_nil]

section

variable (hb : Book w s) (hm : isNotice m = true)
  (hfirst : ∀ i, ∀ m' ∈ notices (s.tasks i), m'.kind = m.kind → m'.about ≠ m.about) (j : TaskId)
include hb hm hfirst j

theorem keys_post (i : TaskId) :
    ((notices ((s.post j m).tasks i)).map fun m => (m.kind, m.about)).Nodup := by
  rw [notices_post hm]
  split
  · rw [map_append, nodup_append]
    refine ⟨hb.keys i, by simp, fun key hkey key' hkey' heq => ?_⟩
    obtain ⟨m', hm', rfl⟩ := mem_map.mp hkey
    rw [map_singleton, mem_singleton] at hkey'
    rw [hkey'] at heq
    exact hfirst i m' hm' (congrArg Prod.fst heq) (congrArg Prod.snd heq)
  · rw [append_nil]
    exact hb.keys i

theorem apart_post (i i' : TaskId) (a b : Msg)
    (ha : a ∈ notices ((s.post j m).tasks i))
    (hb' : b ∈ notices ((s.post j m).tasks i')) (hkind : a.kind = b.kind)
    (habout : a.about = b.about) : i = i' := by
  have hcases : ∀ {i a}, a ∈ notices ((s.post j m).tasks i) →
      a ∈ notices (s.tasks i) ∨ i = j ∧ a = m := by
    intro i a ha
    rw [notices_post hm] at ha
    exact (mem_append.mp ha).imp_right HandshakeCalls.mem_post
  rcases hcases ha with hold | ⟨hi, rfl⟩ <;> rcases hcases hb' with hold' | ⟨hi', heq⟩
  · exact hb.apart i i' a hold b hold' hkind habout
  · subst heq
    exact absurd habout (hfirst i a hold hkind)
  · exact absurd habout.symm (hfirst i' b hold' hkind.symm)
  · exact hi.trans hi'.symm

end

theorem book_close (hs : Inv w s) (hb : Book w s) (hc : s.conns h = some c) (hok : Closable s side c.id)
    (htasks : t.tasks = (s.post (endpoint c side.other) (closeMsg c h side)).tasks)
    (hconns : t.conns = s.conns ∨ t.conns = update s.conns h none) (hlog : t.log = s.log ++ [.closed side c.id]) :
    Book w t := by
  obtain ⟨hreturned, hopen, hmoved⟩ := hok
  obtain ⟨x, hx⟩ := hasReturned_iff.mp hreturned
  have hentry := hb.entry h c hc
  have hold : ∀ {e}, e ≠ .closed side c.id → (e ∈ t.log ↔ e ∈ s.log) := by
    intro e he
    rw [hlog, mem_append, or_iff_left fun h => he (mem_singleton.mp h)]
  have hgrow : ∀ e ∈ s.log, e ∈ t.log := fun e he => hlog ▸ mem_append_left _ he
  have hfrom : ∀ y c', t.conns y = some c' → s.conns y = some c' := by
    intro y c' hc'
    rcases hconns with heq | heq
    · rwa [heq] at hc'
    · rw [heq, update_apply, ite_none_left_eq_some] at hc'
      exact hc'.2
  have hto : ∀ y c', s.conns y = some c' → t.conns y = some c' ∨ c'.id = c.id := by
    intro y c' hc'
    rcases hconns with heq | heq
    · exact .inl (heq ▸ hc')
    · rcases eq_or_ne y h with rfl | hy
      · exact .inr (congrArg Conn.id (some.inj (hc'.symm.trans hc)))
      · refine .inl ?_
        rwa [heq, update_of_ne hy]
  have hinbox : ∀ {i m}, m ∈ (t.tasks i).inbox → m ∈ (s.tasks i).inbox ∨ i = endpoint c side.other ∧ m = closeMsg c h side := by
    intro i m hm
    rw [htasks] at hm
    exact mem_closed hm
  have hasks : ∀ i, asks (t.tasks i) = asks (s.tasks i) := by
    intro i
    rw [htasks]
    refine HandshakeCalls.asks_postOther ?_ _ i
    rw [kind_closeMsg]
    cases side <;> simp [tells, Side.other]
  have hkeep : ∀ i, (t.tasks i).frame = (s.tasks i).frame ∧ (t.tasks i).call = (s.tasks i).call := by
    intro i
    rw [htasks, HandshakeCalls.task_post]
    exact ⟨rfl, rfl⟩
  -- No message tells of this close yet.
  have hfirst : ∀ i, ∀ m ∈ notices (s.tasks i), m.kind = (closeMsg c h side).kind → m.about ≠ (closeMsg c h side).about := by
    intro i m hm hkind habout
    rw [kind_closeMsg] at hkind
    rw [about_closeMsg] at habout
    have hclosed := (hb.notice i _ m (mem_notices.mp hm).1 hkind).closed
    rw [other_other, habout] at hclosed
    exact hopen hclosed
  have hnotice : isNotice (closeMsg c h side) = true := by
    cases side <;> rfl
  have hcall : ∀ r, .called side.other c.id r ∉ s.log := by
    intro r hr
    rcases (hb.chronicle.called _ _ _ hr).2 with hclosed | ⟨-, hreaped⟩
    · rw [other_other] at hclosed
      exact hopen hclosed
    · exact absurd (hs.returns _ _ _ hx (hb.chronicle.reaped _ _ hreaped).2) (by simp)
  refine ⟨?_, ?_, ?_, ?_, ?_, ?_, ?_, ?_, ?_, ?_, ?_⟩
  · rw [hlog]
    exact hb.chronicle.snoc ⟨⟨x, hx⟩, hmoved⟩
  · rw [htasks]
    exact keys_post hb hnotice hfirst _
  · rw [htasks]
    exact fun i j m hm m' hm' => apart_post hb hnotice hfirst _ i j m m' hm hm'
  · intro i side' m hm hkind
    rcases hinbox hm with hm | ⟨rfl, rfl⟩
    · obtain ⟨htask, hclosed, huncalled, hagrees, hfits⟩ := hb.notice i side' m hm hkind
      refine ⟨htask, hgrow _ hclosed, fun r hr => huncalled r ((hold (by simp)).mp hr), ?_, fun y c' hy hc' => hfits y c' hy (hfrom y c' hc')⟩
      exact hagrees.congr fun r => hold (by simp)
    · obtain rfl : side' = side.other := tells_inj (hkind.symm.trans (kind_closeMsg c h side))
      have hmem : .closed side c.id ∈ t.log := by
        rw [hlog]
        simp
      refine ⟨?_, ?_, ?_, ?_, fun y c' hy hc' => ?_⟩
      · cases side
        · exact hentry.server
        · exact hentry.client
      · rwa [other_other, about_closeMsg]
      · intro r hr
        rw [about_closeMsg] at hr
        exact hcall r ((hold (by simp)).mp hr)
      · rw [about_closeMsg]
        exact (agrees_closeMsg hentry h hmoved).congr fun r => hold (by simp)
      · obtain rfl : y = h := by
          cases side <;> exact (some.inj hy).symm
        obtain rfl : c' = c := some.inj ((hfrom y c' hc').symm.trans hc)
        exact fits_closeMsg c' y side
  · intro y c' hc'
    rw [hlog]
    exact (hb.entry y c' (hfrom y c' hc')).grow (by simp)
  · refine hb.opened_drop hto (fun i m hm => ?_) (fun i f hf _ => (hkeep i).1 ▸ hf) hgrow
    rw [hasks] at hm
    exact unasked_of_returned hs hx i m hm
  · refine hb.answered_drop hto (fun i call hcall hid => ?_) (fun i => (hkeep i).2) fun j r hr => (hold (by simp)).mp hr
    exact (hs.waiting i call hcall).silent _ (hid ▸ hx)
  · intro i m hm
    rw [hasks] at hm
    exact hb.senders i m hm
  · intro i m hm hkind
    rcases mem_append.mp hm with hm | hm
    · rcases hinbox hm with hm | ⟨-, rfl⟩
      · exact hgrow _ (hb.forwards i m (mem_append_left _ hm) hkind)
      · rw [kind_closeMsg] at hkind
        cases side <;> simp [tells, Side.other] at hkind
    · rw [(hkeep i).1] at hm
      exact hgrow _ (hb.forwards i m (mem_append_right _ hm) hkind)
  · intro side' k hk
    rw [hlog] at hk
    rcases mem_append.mp hk with hk | hk
    · rcases hb.told side' k hk with ⟨i, m, hm, hkind, habout⟩ | hcalled
      · refine .inl ⟨i, m, ?_, hkind, habout⟩
        rw [htasks, HandshakeCalls.task_post]
        exact mem_append_left _ hm
      · exact .inr fun r hr => hgrow _ (hcalled r ((hold (by simp)).mp hr))
    · have heq := mem_singleton.mp hk
      injection heq with hside hid
      refine .inl ⟨endpoint c side.other, closeMsg c h side, ?_, ?_, ?_⟩
      · rw [htasks, HandshakeCalls.task_post, if_pos rfl]
        exact mem_append_right _ (mem_singleton_self _)
      · rw [kind_closeMsg, ← hside, other_other]
      · rw [about_closeMsg, hid]
  · intro k k' hk
    have hsettled := hb.reaped k k' ((hold (by simp)).mp hk)
    refine ⟨fun i m hm => ?_, fun y c' hc' => hsettled.conns y c' (hfrom y c' hc')⟩
    rw [hasks] at hm
    exact hsettled.asked i m hm

theorem book_itsDisconnect (hs : Inv w s) (hb : Book w s) (hhdr : luck.hdr = true) (henq : luck.enq = true) (hok : MayClose s me h) :
    Book w (itsDisconnect w luck s me h) := by
  rcases itsDisconnect_cases w luck s me h with heq | ⟨c, side, sent, hc, hme, hside, hsent, htasks, hconns, hlog, -⟩
  · rw [heq]
    exact hb
  have hentry := hb.entry h c hc
  have hthere : endpoint c side.other < w.count := by
    cases side
    · exact hentry.server
    · exact hentry.client
  have hsent : sent = true := by
    rw [hsent, decide_eq_true hthere, hhdr, henq]
    rfl
  have hclosable : Closable s side c.id := by
    have hok := hok c hc
    cases side with
    | server =>
      rw [if_pos (show c.server = me from hme)] at hok
      exact hok
    | client =>
      rw [if_neg (hside rfl)] at hok
      exact hok hme
  rw [hsent, if_pos rfl] at htasks
  refine book_close hs hb hc hclosable htasks ?_ hlog
  rw [hconns]
  split
  · exact .inl rfl
  · exact .inr rfl

theorem book_itsServerForward (hb : Book w s) (hopen : ∀ c, s.conns h = some c → c.server = me → ∀ side, .closed side c.id ∉ s.log)
    (target : TaskId) (port : Nat) (data : Bool) (len : Nat) : Book w (itsServerForward w luck s me h target port data len) := by
  unfold itsServerForward
  split
  · exact hb
  next c hfound =>
    obtain ⟨hc, hserver⟩ := filter_eq_some_iff.mp hfound
    have hopen := hopen c hc (of_decide_eq_true hserver)
    split
    · exact hb
    next sp hsp =>
      obtain ⟨⟨htarget, -⟩, -⟩ := ite_none_right_eq_some.mp hsp
      split
      · exact hb
      · have hmoved : Book w ((s.withConn h fun c => { c with server := target, port := port, kind := sp.kind }).note (.moved c.id)) := by
          refine hb.reshape h (fun c => { c with server := target, port := port, kind := sp.kind }) (fun _ => rfl)
            (fun _ => ⟨rfl, rfl, rfl⟩) rfl rfl (by simp [isCalm]) (hb.chronicle.snoc (hopen .client)) (by simp) (by simp) ?_
            (fun y c' _ hc' => (hb.entry y c' hc').grow (by simp)) ?_ ?_
          · intro c' hc'
            cases hc.symm.trans hc'
            have hgrown : Entry w (s.log ++ [.moved c.id]) c := (hb.entry h c hc).grow (by simp)
            exact { hgrown with server := htarget, toServer := fun hnot => absurd (by simp) hnot }
          · intro c' hc' hnot
            cases hc'.symm.trans hc
            exact absurd (by simp) hnot
          · intro i m side c' hm hkind hc' hfits
            cases hc'.symm.trans hc
            exact absurd (hfits.id ▸ (hb.notice i side m hm hkind).closed) (hopen side.other)
        have hin : .moved c.id ∈ ((s.withConn h fun c => { c with server := target, port := port, kind := sp.kind }).note (.moved c.id)).log := by
          simp
        dsimp only
        generalize Sys.note _ _ = u at hmoved hin ⊢
        obtain ⟨⟨f, hf⟩, hspec⟩ := buildCopyMsg_spec w luck u target
          { blankMsg .forward me c.id with port := port, handle := some h } data len
        rw [hf]
        split
        · exact book_withMem hmoved f
        next m hm =>
          obtain ⟨p, rfl⟩ := hspec m hm
          cases luck.enq with
          | true => exact (book_withMem hmoved f).post rfl (fun _ => hin) (by simp [blankMsg]) target
          | false => exact book_withMem (book_withMem hmoved f) _

end Spangap.DisconnectCalls
