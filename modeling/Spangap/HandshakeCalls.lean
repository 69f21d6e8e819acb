import Spangap.Handshake

namespace Spangap.HandshakeCalls

open List Its Handshake

variable {w : World} {s t : Sys} {me : TaskId} {luck : Luck} {m : Msg} {srv : TaskId} {id : Nat}

theorem task_post (s : Sys) (m : Msg) (srv i : TaskId) : (s.post srv m).tasks i =
    { s.tasks i with inbox := (s.tasks i).inbox ++ if i = srv then [m] else [] } := by
  refine Sys.withTask_rec ?_ (fun i hi => ?_) i
  · rw [if_pos rfl]
  · rw [if_neg hi, append_nil]

theorem mem_post {i : TaskId} {m' : Msg} (h : m' ∈ (if i = srv then [m] else [])) : i = srv ∧ m' = m :=
  (mem_ite_nil_right.mp h).imp_right mem_singleton.mp

section Ends

variable {k : Nat} {r : Option Nat} (hs : Inv w s) (hk : k < s.calls) (hsilent : ∀ r, .returned k r ∉ s.log)
  (hcalls : ∀ i c, (s.tasks i).call = some c → c.id ≠ k) (htold : ∀ r', .acked k r' ∈ s.log → r = r')
  (hsome : ∀ h, r = some h → .acked k (some h) ∈ s.log)

include hs hk hsilent hcalls htold hsome

/-- A call returns, and its cancel may be sent in the same step. -/
theorem inv_ends {M : TaskId → List Msg}
    (htasks : ∀ i, t.tasks i = { s.tasks i with inbox := (s.tasks i).inbox ++ M i }) (hconns : t.conns = s.conns)
    (hcount : s.calls ≤ t.calls) (hlog : t.log = s.log ++ [.returned k r])
    (hms : ∀ i, ∀ m ∈ M i, m.kind ≠ .connect ∧ m.about = k ∧ r = none ∧ ∀ j, ∀ m' ∈ asks (s.tasks j), m'.about = k → j = i)
    (hnone : r = none → Settled t k ∨ ∃ j m A B, Doomed t k j m A B) : Inv w t := by
  have hreturned : ∀ {i r'}, .returned i r' ∈ t.log ↔ .returned i r' ∈ s.log ∨ i = k ∧ r' = r := by simp [hlog]
  have hasks : ∀ i, asks (t.tasks i) = asks (s.tasks i) := fun i => by rw [htasks, asks_append fun m hm => (hms i m hm).1]
  refine hs.extend ⟨htasks, fun i m hm hkind => absurd hkind (hms i m hm).1, fun x c hc => .inl ⟨c, hconns ▸ hc, rfl, rfl, rfl⟩, hcount,
    fun _ _ => by simp [hlog], fun _ _ hr => hreturned.mpr (.inl hr), fun i r' hr' => ?_, fun i A m B hsplit _ => ?_⟩ (fun i => ?_)
    (fun i j => ?_) ?_
  · rcases hreturned.mp hr' with hr' | ⟨rfl, rfl⟩
    · exact .inl hr'
    · refine .inr ⟨hk, fun r₂ h₂ => ?_, hcalls, hnone⟩
      exact ((hreturned.mp h₂).resolve_left (hsilent r₂)).2
  · have hadded := hms i
    rw [hsplit, forall_mem_append, forall_mem_cons] at hadded
    obtain ⟨-, ⟨-, habout, hr, hwhere⟩, hbehind⟩ := hadded
    refine ⟨hreturned.mpr (.inr ⟨habout, hr.symm⟩), fun m' hm' hkind => absurd hkind (hbehind m' hm').1, fun j m' hm' heq => ?_⟩
    exact hwhere j m' (hasks j ▸ hm') (heq.trans habout)
  · rw [hasks]
    exact hs.once i
  · rw [hasks, hasks]
    exact hs.apart i j
  · rw [hlog]
    refine told_snoc hs.told fun i r' heq => ?_
    cases heq
    exact ⟨htold, hsome⟩

theorem inv_returned (hnone : r = none → Settled s k) : Inv w (s.note (.returned k r)) :=
  inv_ends hs hk hsilent hcalls htold hsome (M := fun _ => []) (fun i => by rw [Sys.tasks_note, append_nil]) rfl (Nat.le_refl _) rfl
    (by simp) fun hr => .inl { hnone hr with }

end Ends

section Calls

variable {k : Call}

theorem inv_wake (hs : Inv w s) (hk : (s.tasks me).call = some k) (hmatched : k.matched = false)
    (hsem : (s.tasks me).ackSem = true) : Inv w (connectWake s me k) := by
  have hwait := hs.waiting me k hk
  refine hs.keepInbox (.refl _) (fun f h hf _ hh => ⟨f, hf, rfl, hh⟩) (fun k' hk' => ?_) ?_ rfl
  · cases hk'
    exact fun i k' => hs.other_call hk i k'
  · intro k' hk'
    cases hk'
    refine { hwait with asked := ?_, matched := ?_, rung := ?_, heard := ?_ }
    · exact fun j m hm => hwait.asked j m ((asks_withTask (.refl _) j).mem_iff.mp hm)
    · rw [Sys.tasks_withTask_self]
      exact fun hnonce => hwait.rung hsem (of_decide_eq_true hnonce)
    · rw [Sys.tasks_withTask_self]
      exact (by simp)
    · intro r hr
      rcases hwait.heard r hr with h | ⟨-, hnonce⟩
      · simp [hmatched] at h
      · exact .inl (decide_eq_true hnonce)

theorem inv_hangUp (hs : Inv w s) (me : TaskId) : Inv w (s.withCall me none) := by
  refine hs.keepInbox (.refl _) (fun f h hf _ hh => ⟨f, hf, rfl, hh⟩) ?_ ?_ rfl
  · exact (by simp)
  · exact (by simp)

theorem hangUp_calls (hs : Inv w s) (hk : (s.tasks me).call = some k) (i : TaskId) (c : Call)
    (hc : ((s.withCall me none).tasks i).call = some c) : c.id ≠ k.id := by
  revert hc
  exact Sys.withTask_rec (by simp) (fun i hi hc => (hs.other_call hk i c hi hc).symm) i

theorem inv_read (hs : Inv w s) (hk : (s.tasks me).call = some k) (hmatched : k.matched = true) : Inv w (connectRead s me k) := by
  have hwait := hs.waiting me k hk
  have hacked := hwait.matched hmatched
  have hsettled : (s.tasks me).ackHandle = none → Settled s k.id := by
    intro hnone
    rw [hnone] at hacked
    refine ⟨fun i m hm habout => (hs.asked i m hm).2 none (habout ▸ hacked), fun x c hc hid => ?_⟩
    obtain ⟨-, -, ⟨i, f, hf, hkind, habout, -⟩ | hother⟩ := hs.conns x c hc
    · exact (hs.asked i f.msg (mem_asks_frame hf hkind)).2 none ((habout.trans hid) ▸ hacked)
    · exact absurd (hs.answer k.id _ _ hacked (hid ▸ hother)) (by simp)
  have hreturned : Inv w ((s.withCall me none).note (.returned k.id (s.tasks me).ackHandle)) := by
    refine inv_returned (inv_hangUp hs me) hwait.fresh hwait.silent (hangUp_calls hs hk)
      (fun r' hr' => hs.answer k.id _ _ hacked hr') (fun h hh => hh ▸ hacked) fun hnone => ⟨fun i m hm => ?_, (hsettled hnone).conns⟩
    exact (hsettled hnone).asked i m ((asks_withTask (.refl _) i).mem_iff.mp hm)
  unfold connectRead
  dsimp only
  split
  · exact hreturned
  · refine Inv.quiet ?_ (quiet_noteIf _ fun _ _ => ⟨by simp, by simp⟩)
    exact hreturned.quiet (quiet_withConn _ fun _ => ⟨rfl, rfl, rfl⟩)

theorem asks_postOther (hm : m.kind ≠ .connect) (srv i : TaskId) :
    asks ((s.post srv m).tasks i) = asks (s.tasks i) := by
  rw [task_post, asks_append]
  intro m' hm'
  rw [(mem_post hm').2]
  exact hm

theorem inv_nextCall (hs : Inv w s) : Inv w { s with calls := s.calls + 1 } ∧ Unheard { s with calls := s.calls + 1 } s.calls := by
  refine ⟨hs.extend (M := fun _ => []) ⟨fun i => ?_, by simp, fun _ c hc => .inl ⟨c, hc, rfl, rfl, rfl⟩, s.calls.le_succ, fun _ _ => .rfl,
    fun _ _ => id, fun _ _ => .inl, by simp⟩ hs.once hs.apart hs.told, ⟨?_, ?_⟩, s.calls.lt_succ_self, ?_, ?_⟩
  · rw [append_nil]
  · exact fun i m hm => Nat.ne_of_lt (hs.asked i m hm).1
  · exact fun x c hc => Nat.ne_of_lt (hs.conns x c hc).2.1
  · exact fun r => ⟨fun h => absurd (hs.bound s.calls r (.inl h)) (Nat.lt_irrefl _),
      fun h => absurd (hs.bound s.calls r (.inr h)) (Nat.lt_irrefl _)⟩
  · exact fun i k hk => Nat.ne_of_lt (hs.waiting i k hk).fresh

theorem asks_post (hm : m.kind = .connect) (srv i : TaskId) :
    (asks ((s.post srv m).tasks i)).Perm
      ((if i = srv then [m] else []) ++ asks (s.tasks i)) := by
  refine Sys.withTask_rec ?_ (fun i hi => ?_) i
  · rw [if_pos rfl, asks, asks, taskMsgs, append_assoc]
    refine (perm_middle.filter _).trans ?_
    rw [singleton_append, filter_cons_of_pos (by simpa using hm)]
    rfl
  · rw [if_neg hi]
    rfl

section

variable (hs : Inv w s)
include hs

theorem inv_post (hm : m.kind = .connect) (hnew : Unheard s m.about) (srv : TaskId) :
    Inv w (s.post srv m) := by
  have hadds : Extends s (s.post srv m) fun i => if i = srv then [m] else [] := by
    refine ⟨task_post s m srv, fun i m' hm' _ => (mem_post hm').2 ▸ hnew, fun _ c hc => .inl ⟨c, hc, rfl, rfl, rfl⟩, Nat.le_refl _, fun _ _ => .rfl,
      fun _ _ => id, fun _ _ => .inl, fun i A m' B hsplit hkind => ?_⟩
    have hin : m' ∈ (if i = srv then [m] else []) := hsplit ▸ by simp
    rw [(mem_post hin).2, hm] at hkind
    cases hkind
  refine hs.extend hadds (fun i => ?_) ?_ hs.told
  · refine ((asks_post hm srv i).map Msg.about).nodup_iff.mpr ?_
    split
    · rw [singleton_append, map_cons, nodup_cons]
      refine ⟨fun h => ?_, hs.once i⟩
      obtain ⟨m', hm', habout⟩ := mem_map.mp h
      exact hnew.asked i m' hm' habout
    · exact hs.once i
  · intro i j m₁ h₁ m₂ h₂ habout
    rcases hadds.asked h₁ with hold₁ | ⟨hnew₁, -⟩ <;> rcases hadds.asked h₂ with hold₂ | ⟨hnew₂, -⟩
    · exact hs.apart i j m₁ hold₁ m₂ hold₂ habout
    · exact absurd (habout.trans (congrArg Msg.about (mem_post hnew₂).2)) (hnew.asked i m₁ hold₁)
    · exact absurd (habout.symm.trans (congrArg Msg.about (mem_post hnew₁).2)) (hnew.asked j m₂ hold₂)
    · exact (mem_post hnew₁).1.trans (mem_post hnew₂).1.symm

theorem inv_refused (h : Unheard s id) : Inv w (s.note (.returned id none)) :=
  inv_returned hs h.fresh (fun r => (h.log r).2) h.calls (fun r hr => absurd hr (h.log r).1) (by simp)
    fun _ => h.toSettled

theorem inv_reset (h : Unheard s id) (hme : (s.tasks me).call = none) (nonce : UInt32) :
    Inv w (s.withTask me fun t => { t with ackSem := false, ackHandle := none, connectGen := nonce }) ∧
      Unheard (s.withTask me fun t => { t with ackSem := false, ackHandle := none, connectGen := nonce }) id := by
  constructor
  · refine hs.keepInbox (.refl _) (fun f h hf _ hh => ⟨f, hf, rfl, hh⟩) ?_ ?_ rfl
    · exact fun k hk => absurd (hme.symm.trans hk) (by simp)
    · exact fun k hk => absurd (hme.symm.trans hk) (by simp)
  · refine ⟨⟨fun i m hm => h.asked i m ((asks_withTask (.refl _) i).mem_iff.mp hm), h.conns⟩, h.fresh, h.log, ?_⟩
    exact Sys.withTask_rec (fun k hk => absurd (hme.symm.trans hk) (by simp)) fun i _ => h.calls i

theorem inv_ask (hm : m.kind = .connect) (hnew : Unheard s m.about) (hme : me < w.count) (hsrv : srv < w.count)
    (hsender : m.sender = me) (hnonce : m.nonce ≠ 0) (hsem : (s.tasks me).ackSem = false) (port : Nat) (ref : Int)
    (cb : Option Nat) :
    Inv w ((s.post srv m).withTask me fun t =>
      { t with call := some ⟨m.about, srv, port, m.nonce, ref, cb, false⟩ }) := by
  refine (inv_post hs hm hnew srv).keepInbox (.refl _) (fun f h hf _ hh => ⟨f, hf, rfl, hh⟩) (fun k hk i k' _ hk' => ?_) ?_ rfl
  · cases hk
    rw [task_post] at hk'
    exact (hnew.calls i k' hk').symm
  · intro k hk
    cases hk
    have hclear : ((s.post srv m).tasks me).ackSem = false := by
      rwa [task_post]
    refine ⟨hme, hsrv, hnonce, hnew.fresh, fun r => (hnew.log r).2, ?_, fun x c hc hid => absurd hid (hnew.conns x c hc), ?_, ?_, ?_⟩
    · intro j m' hm' habout
      have hin := (asks_post hm srv j).mem_iff.mp ((asks_withTask (.refl _) j).mem_iff.mp hm')
      rcases mem_append.mp hin with hin | hin
      · obtain ⟨hj, rfl⟩ := mem_post hin
        exact ⟨hj, hsender, rfl⟩
      · exact absurd habout (hnew.asked j m' hin)
    · exact (by simp)
    · rw [Sys.tasks_withTask_self]
      exact fun h => absurd (hclear.symm.trans h) (by simp)
    · exact fun r hr => absurd hr (hnew.log r).1

theorem inv_itsConnect (hme : me < w.count) (hcall : (s.tasks me).call = none) (srv : TaskId) (port : Nat)
    (data : Bool) (len : Nat) (ref : Int) (cb : Option Nat) : Inv w (itsConnect w luck s me srv port data len ref cb) := by
  obtain ⟨hnext, hnew⟩ := inv_nextCall hs
  unfold itsConnect
  dsimp only
  split
  next hgo =>
    generalize hgen : (if (s.tasks me).connectGen + 1 = 0 then _ else _ : UInt32) = nonce
    have hnonce : nonce ≠ 0 := by
      rw [← hgen]
      split
      next h0 =>
        rw [h0]
        decide
      next h0 => exact h0
    obtain ⟨hready, hnew⟩ := inv_reset hnext hnew hcall nonce
    have hsem := congrArg Task.ackSem (Sys.tasks_withTask_self { s with calls := s.calls + 1 } me fun t =>
      { t with ackSem := false, ackHandle := none, connectGen := nonce })
    generalize Sys.withTask { s with calls := s.calls + 1 } me _ = u at hready hnew hsem ⊢
    obtain ⟨⟨f, hf⟩, hspec⟩ := buildCopyMsg_spec w luck u srv
      { blankMsg .connect me s.calls with port := port, nonce := nonce } data len
    rw [hf]
    have hbuilt := hready.quiet (quiet_withMem f)
    have hnew := hnew.quiet (quiet_withMem f)
    split
    · exact inv_refused hbuilt hnew
    next m hm =>
      obtain ⟨p, rfl⟩ := hspec m hm
      split
      next henq =>
        rw [henq]
        exact inv_ask hbuilt rfl hnew hme hgo.2.1 rfl hnonce hsem port ref cb
      next henq =>
        rw [Bool.not_eq_true _ |>.mp henq]
        exact inv_refused (hbuilt.quiet (quiet_withMem _)) (hnew.quiet (quiet_withMem _))
  · exact inv_refused hnext hnew

theorem inv_giveUp (hkind : m.kind = .connectCancel) (hk : m.about < s.calls) (hnonce : m.nonce ≠ 0)
    (hsilent : ∀ r, .returned m.about r ∉ s.log) (hcalls : ∀ i c, (s.tasks i).call = some c → c.id ≠ m.about)
    (hunheard : ∀ r, .acked m.about r ∉ s.log)
    (hasks : ∀ i, ∀ m' ∈ asks (s.tasks i), m'.about = m.about → i = srv ∧ m'.sender = m.sender ∧ m'.nonce = m.nonce)
    (hconns : ∀ h c, s.conns h = some c → c.id = m.about → c.client = m.sender ∧ c.connectNonce = m.nonce) :
    Inv w ((s.note (.returned m.about none)).post srv m) := by
  refine inv_ends hs hk hsilent hcalls (fun r hr => absurd hr (hunheard r)) (by simp)
    (task_post _ m srv) rfl (Nat.le_refl _) rfl (fun i m' hm' => ?_) fun _ => .inr ⟨srv, m, (s.tasks srv).inbox, [], hkind, rfl, hnonce, ?_, by simp, fun i m' hm' => ?_, hconns⟩
  · obtain ⟨rfl, rfl⟩ := mem_post hm'
    exact ⟨by simp [hkind], rfl, rfl, fun j m₂ hm₂ habout => (hasks j m₂ hm₂ habout).1⟩
  · rw [task_post, if_pos rfl]
    rfl
  · rw [asks_postOther (by simp [hkind])] at hm'
    exact hasks i m' hm'

theorem inv_timeout (hk : (s.tasks me).call = some k) (hmatched : k.matched = false)
    (hsem : (s.tasks me).ackSem = false) (hhdr : luck.hdr = true) (henq : luck.enq = true) :
    Inv w (connectTimeout w luck s me k) := by
  have hwait := hs.waiting me k hk
  have hunheard : ∀ r, .acked k.id r ∉ s.log := by
    intro r hr
    rcases hwait.heard r hr with h | ⟨h, -⟩
    · simp [hmatched] at h
    · simp [hsem] at h
  have hposted := inv_giveUp (m := { blankMsg .connectCancel me k.id with port := k.port, nonce := k.nonce })
    (inv_hangUp hs me) rfl hwait.fresh hwait.nonce hwait.silent (hangUp_calls hs hk) hunheard
    (fun i m' hm' => hwait.asked i m' ((asks_withTask (.refl _) i).mem_iff.mp hm')) hwait.conns
  have hsent : (notify w luck ((s.withCall me none).note (.returned k.id none)) k.server
      { blankMsg .connectCancel me k.id with port := k.port, nonce := k.nonce }).2 = true := by
    rw [sent_notify, decide_eq_true hwait.server, hhdr, henq]
    rfl
  refine hposted.quiet (quiet_same ?_ (conns_notify ..) (calls_notify ..) (log_notify ..))
  unfold connectTimeout
  rw [tasks_notify, if_pos hsent]
  rfl

end

end Calls

end Spangap.HandshakeCalls
