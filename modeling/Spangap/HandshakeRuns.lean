import Spangap.HandshakeCalls
import Spangap.Runs

namespace Spangap.HandshakeRuns

open List Option Function Its Handshake HandshakeCalls

variable {w : World} {s t : Sys} {me : TaskId} {luck : Luck} {c : Conn} {h : Nat} {i : TaskId} {f' f : Frame} {k : Call}
  {m : Msg} {rest : List Msg} {sRef : Int}

theorem inv_takeOut (hs : Inv w s) (hframe : (s.tasks me).frame = none) (hinbox : (s.tasks me).inbox = m :: rest)
    (hcancel : ∀ k, Doomed s k me m [] rest → ∀ h c, s.conns h = some c → c.id ≠ k) : Inv w (takeOut s me m rest) := by
  have hasks : (asks { s.tasks me with inbox := rest, frame := some ⟨m, none, false, false⟩ }).Perm (asks (s.tasks me)) := by
    rw [asks, asks, taskMsgs, taskMsgs, hframe, hinbox]
    exact ((@perm_append_comm _ rest _).trans (by simp)).filter _
  refine hs.withTask hasks (fun f h hf => absurd (hframe.symm.trans hf) (by simp)) (fun k hk => hs.other_call hk) ?_
    (hinbox ▸ suffix_cons m rest) ?_
  · exact fun k hk => (hs.waiting me k hk).withTask hasks fun _ => ⟨rfl, rfl, rfl⟩
  · intro k c A B hd
    have hsplit := hd.inbox
    rw [hinbox] at hsplit
    cases A with
    | nil =>
      cases hsplit
      refine .inr ⟨fun i m' hm' habout => ?_, hcancel k hd⟩
      obtain ⟨rfl, -⟩ := hd.asked i m' hm' habout
      obtain ⟨hin, hkind⟩ := mem_asks.mp hm'
      rw [taskMsgs, hframe, hinbox] at hin
      rcases mem_cons.mp (by simpa using hin) with rfl | hin
      · exact absurd (hd.kind.symm.trans hkind) (by simp)
      · exact hd.behind m' hin hkind habout
    | cons a A =>
      cases hsplit
      exact .inl ⟨A, rfl⟩

theorem asks_frame {t : Task} (hf : t.frame = some f) (hmsg : f'.msg = f.msg) : asks { t with frame := some f' } = asks t := by
  rw [asks, asks, taskMsgs, taskMsgs, hf]
  show (t.inbox ++ [f'.msg]).filter _ = _
  rw [hmsg]
  rfl

section

variable (hs : Inv w s) (hf : (s.tasks me).frame = some f)
include hs hf

theorem inv_frame (hmsg : f'.msg = f.msg)
    (hkind : f.msg.kind = .connect → ∀ h, f.handle = some h → f'.handle = some h) : Inv w (s.withFrame me (some f')) := by
  have hasks := asks_frame hf hmsg
  refine hs.keepInbox (.of_eq hasks) ?_ (fun k hk => hs.other_call hk) ?_ rfl
  · intro f₀ h hf₀ hkind₀ hhandle
    rw [hf] at hf₀
    cases hf₀
    exact ⟨f', rfl, hmsg, hkind hkind₀ h hhandle⟩
  · exact fun k hk => (hs.waiting me k hk).withTask (.of_eq hasks) fun _ => ⟨rfl, rfl, rfl⟩

theorem inv_done (hkind : f.msg.kind ≠ .connect) : Inv w (s.withFrame me none) := by
  have hasks : asks { s.tasks me with frame := none } = asks (s.tasks me) := by
    rw [asks, asks, taskMsgs, taskMsgs, hf, filter_append, filter_append]
    exact congrArg _ (by simpa using hkind)
  refine hs.keepInbox (.of_eq hasks) ?_ (fun k hk => hs.other_call hk) ?_ rfl
  · intro f₀ h hf₀ hkind₀
    rw [hf, some_inj] at hf₀
    exact absurd (hf₀ ▸ hkind₀) hkind
  · exact fun k hk => (hs.waiting me k hk).withTask (.of_eq hasks) fun _ => ⟨rfl, rfl, rfl⟩

theorem inv_open (hkind : f.msg.kind = .connect) (hnone : f.handle = none)
    {x : Nat} (hx : x < maxConns) (htasks : t.tasks = (s.withFrame me (some f')).tasks)
    (hconns : t.conns = update s.conns x (some c)) (hcalls : t.calls = s.calls) (hlog : t.log = s.log)
    (hmsg : f'.msg = f.msg) (hhandle : f'.handle = some x) (hid : c.id = f.msg.about) (hclient : c.client = f.msg.sender)
    (hnonce : c.connectNonce = f.msg.nonce) : Inv w t := by
  have hframe := inv_frame hs hf hmsg fun _ _ hh => absurd (hnone.symm.trans hh) (by simp)
  refine hframe.extend (M := fun _ => []) ⟨fun i => ?_, by simp, fun y c' hc' => ?_, Nat.le_of_eq hcalls.symm, ?_, ?_, ?_, by simp⟩
    (htasks ▸ hframe.once) (htasks ▸ hframe.apart) (hlog ▸ hs.told)
  · rw [htasks, append_nil]
  · rw [hconns] at hc'
    rcases eq_or_ne y x with rfl | hy
    · rw [update_self] at hc'
      cases hc'
      refine .inr ⟨hx, me, f', ?_, hmsg ▸ hkind, hhandle, hmsg ▸ hid, hmsg ▸ hclient, hmsg ▸ hnonce⟩
      rw [Sys.tasks_withTask_self]
    · rw [update_of_ne hy] at hc'
      exact .inl ⟨c', hc', rfl, rfl, rfl⟩
  · exact fun _ _ => hlog ▸ .rfl
  · exact fun _ _ => hlog ▸ id
  · exact fun _ _ hr => .inl (hlog ▸ hr)

end

def answered (s : Sys) (me : TaskId) (m : Msg) (r : Option Nat) : Sys := (ack s m r).withFrame me none

theorem answered_task (s : Sys) (me : TaskId) (m : Msg) (r : Option Nat) (i : TaskId) :
    (answered s me m r).tasks i = { s.tasks i with
      ackSem := if i = m.sender then true else (s.tasks i).ackSem
      ackHandle := if i = m.sender then r else (s.tasks i).ackHandle
      ackNonce := if i = m.sender then m.nonce else (s.tasks i).ackNonce
      frame := if i = me then none else (s.tasks i).frame } := by
  have hack : (ack s m r).tasks i = { s.tasks i with
      ackSem := if i = m.sender then true else (s.tasks i).ackSem
      ackHandle := if i = m.sender then r else (s.tasks i).ackHandle
      ackNonce := if i = m.sender then m.nonce else (s.tasks i).ackNonce } := by
    split
    next hi => rw [hi, tasks_ack_self]
    next hi => rw [tasks_ack_ne hi]
  rcases eq_or_ne i me with rfl | hi
  · rw [answered, Sys.tasks_withTask_self, hack, if_pos rfl]
  · rw [answered, Sys.tasks_withTask_ne hi, hack, if_neg hi]

theorem acks_answered_self (s : Sys) (me : TaskId) (m : Msg) (r : Option Nat) :
    ((answered s me m r).tasks m.sender).ackSem = true ∧ ((answered s me m r).tasks m.sender).ackHandle = r ∧
      ((answered s me m r).tasks m.sender).ackNonce = m.nonce := by
  rw [answered_task]
  exact ⟨if_pos rfl, if_pos rfl, if_pos rfl⟩

theorem acks_answered_ne (s : Sys) (me : TaskId) (hi : i ≠ m.sender) (r : Option Nat) :
    ((answered s me m r).tasks i).ackSem = (s.tasks i).ackSem ∧ ((answered s me m r).tasks i).ackHandle = (s.tasks i).ackHandle ∧
      ((answered s me m r).tasks i).ackNonce = (s.tasks i).ackNonce := by
  rw [answered_task]
  exact ⟨if_neg hi, if_neg hi, if_neg hi⟩

theorem asks_answered_self (hf : (s.tasks me).frame = some f) (hkind : f.msg.kind = .connect) (r : Option Nat) :
    asks (s.tasks me) = asks ((answered s me f.msg r).tasks me) ++ [f.msg] := by
  rw [answered_task, asks, asks, taskMsgs, taskMsgs, hf, if_pos rfl, filter_append, filter_append]
  simp [hkind]

section

variable (hs : Inv w s) (hf : (s.tasks me).frame = some f) (hkind : f.msg.kind = .connect)
include hs hf hkind

theorem asks_answered (r : Option Nat) (i : TaskId) (m' : Msg) (hm' : m' ∈ asks ((answered s me f.msg r).tasks i)) :
    m' ∈ asks (s.tasks i) ∧ m'.about ≠ f.msg.about := by
  rcases eq_or_ne i me with rfl | hi
  · have hsplit := asks_answered_self hf hkind r
    refine ⟨hsplit ▸ mem_append_left _ hm', fun habout => ?_⟩
    have honce := hs.once i
    rw [hsplit, map_append, nodup_append] at honce
    exact honce.2.2 _ (mem_map_of_mem hm') _ (mem_singleton_self _) habout
  · rw [answered_task, if_neg hi] at hm'
    exact ⟨hm', fun habout => hi (hs.apart i me m' hm' f.msg (mem_asks_frame hf hkind) habout)⟩

section Fair

variable {r : Option Nat} (hfair : ∀ k, (s.tasks f.msg.sender).call = some k → k.id ≠ f.msg.about →
      f.msg.nonce ≠ k.nonce ∧ k.matched = false ∧ ¬ ((s.tasks f.msg.sender).ackSem = true ∧ (s.tasks f.msg.sender).ackNonce = k.nonce))

include hfair

theorem waiting_answered (hk : (s.tasks i).call = some k) : Waiting w (answered s me f.msg r) i k := by
  have hasked := mem_asks_frame hf hkind
  have hmem := asks_answered hs hf hkind r
  have h := hs.waiting i k hk
  have hlog : ∀ {r'}, .acked k.id r' ∈ (answered s me f.msg r).log ↔ .acked k.id r' ∈ s.log ∨ k.id = f.msg.about ∧ r' = r := by
    simp [answered]
  have hsilent : ∀ r', .returned k.id r' ∉ (answered s me f.msg r).log := fun r' hr' => h.silent r' (by simpa [answered] using hr')
  have hacks : _ → _ → _ → Waiting w (answered s me f.msg r) i k := fun hmatched hrung hheard =>
    ⟨h.task, h.server, h.nonce, h.fresh, hsilent, fun j m hm => h.asked j m (hmem j m hm).1, h.conns, hmatched, hrung, hheard⟩
  rcases eq_or_ne k.id f.msg.about with hid | hid
  · obtain ⟨-, rfl, hnonce⟩ := h.asked me f.msg hasked hid.symm
    obtain ⟨hsem, hhandle, hack⟩ := acks_answered_self s me f.msg r
    refine hacks ?_ ?_ ?_
    · exact fun hmatched => absurd (hid ▸ h.matched hmatched) ((hs.asked me f.msg hasked).2 _)
    · exact fun _ _ => hlog.mpr (.inr ⟨hid, hhandle⟩)
    · exact fun _ _ => .inr ⟨hsem, hack.trans hnonce⟩
  · have hkept : ∀ {r'}, .acked k.id r' ∈ (answered s me f.msg r).log ↔ .acked k.id r' ∈ s.log := by
      intro r'
      rw [hlog, or_iff_left fun h => hid h.1]
    rcases eq_or_ne i f.msg.sender with rfl | hi
    · -- A late answer: it does not match, and there is none yet that it could overwrite.
      obtain ⟨hnonce, hmatched, hrung⟩ := hfair k hk hid
      obtain ⟨-, -, hack⟩ := acks_answered_self s me f.msg r
      refine hacks ?_ ?_ ?_
      · exact (by simp [hmatched])
      · exact fun _ heq => absurd (hack.symm.trans heq) hnonce
      · intro r' hr'
        rcases h.heard r' (hkept.mp hr') with h | h
        · simp [hmatched] at h
        · exact absurd h hrung
    · obtain ⟨hsem, hhandle, hack⟩ := acks_answered_ne s me hi r
      refine hacks ?_ ?_ ?_
      · rw [hkept, hhandle]
        exact h.matched
      · rw [hkept, hsem, hhandle, hack]
        exact h.rung
      · intro r' hr'
        rw [hsem, hack]
        exact h.heard r' (hkept.mp hr')

theorem inv_ack (hr : ∀ x c, s.conns x = some c → c.id = f.msg.about → r = some x) :
    Inv w (answered s me f.msg r) := by
  have hasked := mem_asks_frame hf hkind
  obtain ⟨hfresh, hunacked⟩ := hs.asked me f.msg hasked
  have hmem := asks_answered hs hf hkind r
  have hlog : ∀ {k r'}, .acked k r' ∈ (answered s me f.msg r).log ↔ .acked k r' ∈ s.log ∨ k = f.msg.about ∧ r' = r := by
    simp [answered]
  have hreturned : ∀ {k r'}, .returned k r' ∈ (answered s me f.msg r).log ↔ .returned k r' ∈ s.log := by
    simp [answered]
  refine ⟨?_, ?_, ?_, ?_, ?_, ?_, ?_, ?_, ?_, ?_, ?_, ?_⟩
  · intro i m hm
    obtain ⟨hold, hne⟩ := hmem i m hm
    refine ⟨(hs.asked i m hold).1, fun r' hr' => ?_⟩
    rcases hlog.mp hr' with h | ⟨h, -⟩
    · exact (hs.asked i m hold).2 r' h
    · exact hne h
  · intro i
    rcases eq_or_ne i me with rfl | hi
    · have honce := hs.once i
      rw [asks_answered_self hf hkind r, map_append, nodup_append] at honce
      exact honce.1
    · rw [answered_task, if_neg hi]
      exact hs.once i
  · exact fun i j m hm m' hm' => hs.apart i j m (hmem _ _ hm).1 m' (hmem _ _ hm').1
  · intro k r' h
    rcases h with h | h
    · rcases hlog.mp h with h | ⟨rfl, -⟩
      · exact hs.bound k r' (.inl h)
      · exact hfresh
    · exact hs.bound k r' (.inr (hreturned.mp h))
  · intro x c hc
    obtain ⟨hx, hid, hplaced⟩ := hs.conns x c hc
    refine ⟨hx, hid, ?_⟩
    rcases hplaced with ⟨i, f₀, hf₀, hkind₀, habout, hhandle⟩ | h
    · rcases eq_or_ne i me with rfl | hi
      · rw [hf] at hf₀
        cases hf₀
        exact .inr (hlog.mpr (.inr ⟨habout.symm, (hr x c hc habout.symm).symm⟩))
      · refine .inl ⟨i, f₀, ?_, hkind₀, habout, hhandle⟩
        rw [answered_task, if_neg hi]
        exact hf₀
    · exact .inr (hlog.mpr (.inl h))
  · intro k r₁ r₂ h₁ h₂
    rcases hlog.mp h₁ with hold₁ | ⟨hk₁, hr₁⟩ <;> rcases hlog.mp h₂ with hold₂ | ⟨hk₂, hr₂⟩
    · exact hs.answer k r₁ r₂ hold₁ hold₂
    · exact absurd (hk₂ ▸ hold₁) (hunacked r₁)
    · exact absurd (hk₁ ▸ hold₂) (hunacked r₂)
    · exact hr₁.trans hr₂.symm
  · exact fun k r₁ r₂ h₁ h₂ => hs.returns k r₁ r₂ (hreturned.mp h₁) (hreturned.mp h₂)
  · intro i k hk
    rw [answered_task] at hk
    exact waiting_answered hs hf hkind hfair hk
  · intro i j k k' hk hk'
    rw [answered_task] at hk hk'
    exact hs.callers i j k k' hk hk'
  · intro i A m B hsplit hcancel
    rw [answered_task] at hsplit
    have h := hs.cancels i A m B hsplit hcancel
    exact ⟨hreturned.mpr h.returned, h.behind, fun j m' hm' => h.asked j m' (hmem j m' hm').1⟩
  · exact told_snoc hs.told (by simp)
  · intro k hk
    rcases hs.gone k (hreturned.mp hk) with h | ⟨j, m, A, B, h⟩
    · exact .inl ⟨fun i m hm => h.asked i m (hmem _ _ hm).1, h.conns⟩
    · refine .inr ⟨j, m, A, B ++ [], h.step ?_ (by simp) (fun i m hm _ => (hmem _ _ hm).1)
        fun x c hc hid => .inl ⟨c, hc, hid, rfl, rfl⟩⟩
      rw [answered_task, append_nil]
      exact h.inbox

end Fair

end

/-- A late answer, to another connect of the client than the one it waits in, has
another nonce and does not come between the answer to that one and the end of the call. -/
def FairAnswer (s : Sys) (me : TaskId) : Prop :=
  ∀ f ∈ (s.tasks me).frame, f.msg.kind = .connect → ∀ k ∈ (s.tasks f.msg.sender).call, k.id ≠ f.msg.about →
    f.msg.nonce ≠ k.nonce ∧ k.matched = false ∧
      ¬ ((s.tasks f.msg.sender).ackSem = true ∧ (s.tasks f.msg.sender).ackNonce = k.nonce)
  deriving Decidable

def OnlyEntry (s : Sys) (me : TaskId) (m : Msg) : Prop :=
  ∀ h < maxConns, ∀ c ∈ s.conns h, c.server = me → c.client = m.sender → c.connectNonce = m.nonce → c.id = m.about

instance (s : Sys) (me : TaskId) (m : Msg) : Decidable (OnlyEntry s me m) := by
  delta OnlyEntry
  infer_instance

def CancelMeets (s : Sys) (me : TaskId) : Prop :=
  ∀ m ∈ (s.tasks me).inbox.head?, m.kind = .connectCancel → ∀ h < maxConns, ∀ c ∈ s.conns h, c.id = m.about →
    c.server = me ∧ OnlyEntry s me m

instance (s : Sys) (me : TaskId) : Decidable (CancelMeets s me) := by
  delta CancelMeets
  infer_instance

/-- What keeps handshakes in order; cancels are enqueued. -/
def Orderly (s : Sys) (a : TaskId × Action) : Prop :=
  match a.2 with
  | .finish _ _ => FairAnswer s a.1
  | .begin _ => CancelMeets s a.1
  | .timeout luck => luck.hdr = true ∧ luck.enq = true
  | _ => True

instance (s : Sys) (a : TaskId × Action) : Decidable (Orderly s a) := by
  obtain ⟨i, x⟩ := a
  cases x <;> delta Orderly <;> infer_instance

section Steps

variable {x : Action}

theorem handle_unique (hs : Inv w s) {h' : Nat} {c' : Conn} (hc : s.conns h = some c) (hc' : s.conns h' = some c')
    (hid : c.id = c'.id) : h = h' := by
  have hnot : ∀ {i f r}, (s.tasks i).frame = some f → f.msg.kind = .connect → .acked f.msg.about r ∉ s.log :=
    fun hf hkind => (hs.asked _ _ (mem_asks_frame hf hkind)).2 _
  obtain ⟨-, -, ⟨i, f, hf, hkind, habout, hhandle⟩ | hacked⟩ := hs.conns h c hc <;>
    obtain ⟨-, -, ⟨j, f', hf', hkind', habout', hhandle'⟩ | hacked'⟩ := hs.conns h' c' hc'
  · obtain rfl := hs.apart i j _ (mem_asks_frame hf hkind) _ (mem_asks_frame hf' hkind') (habout.trans (hid.trans habout'.symm))
    rw [hf, some_inj] at hf'
    rw [← hf', hhandle, some_inj] at hhandle'
    exact hhandle'
  · exact absurd ((habout.trans hid) ▸ hacked') (hnot hf hkind)
  · exact absurd ((habout'.trans hid.symm) ▸ hacked) (hnot hf' hkind')
  · exact some.inj (hs.answer _ _ _ hacked (hid ▸ hacked'))

theorem tasks_beginCancel (m : Msg) : (beginCancel w s me m).tasks = s.tasks := by
  unfold beginCancel
  split <;> simp

theorem conns_beginCancel (hs : Inv w s) (hc : s.conns h = some c) (hclient : c.client = m.sender)
    (hnonce : c.connectNonce = m.nonce) (hzero : m.nonce ≠ 0) (hserver : c.server = me) (hid : c.id = m.about)
    (honly : OnlyEntry s me m) : (beginCancel w s me m).conns h = none := by
  have hbound := (hs.conns h c hc).1
  have hfound : (cancelTarget s me m).isSome := by
    rw [cancelTarget, find?_isSome]
    refine ⟨h, mem_range.mpr hbound, ?_⟩
    rw [hc]
    simp [hserver, hclient, hnonce, hzero]
  obtain ⟨h', hh'⟩ := isSome_iff_exists.mp hfound
  have hbound' := mem_range.mp (mem_of_find?_eq_some hh')
  have hmatch := find?_some hh'
  cases hc' : s.conns h' with
  | none =>
    rw [hc'] at hmatch
    simp at hmatch
  | some c' =>
    rw [hc', any_some, decide_eq_true_iff] at hmatch
    obtain ⟨hserver', hclient', hnonce', -⟩ := hmatch
    obtain rfl := handle_unique hs hc' hc ((honly h' hbound' c' hc' hserver' hclient' hnonce').trans hid.symm)
    unfold beginCancel
    rw [hh', bind_some, hc', map_some]
    simp

theorem conns_of_beginCancel (hc : (beginCancel w s me m).conns h = some c) : s.conns h = some c := by
  unfold beginCancel at hc
  split at hc
  · exact hc
  next h' _ _ =>
    rw [conns_serverCall, Sys.conns_note, conns_connFree] at hc
    rw [update_apply, ite_none_left_eq_some] at hc
    exact hc.2

theorem inv_beginCancel (hs : Inv w s) (hframe : (s.tasks me).frame = none)
    (hinbox : (s.tasks me).inbox = m :: rest) (hok : Orderly s (me, .begin luck)) :
    Inv w (beginCancel w (takeOut s me m rest) me m) := by
  have htasks : (beginCancel w s me m).tasks = s.tasks := tasks_beginCancel m
  rw [takeOut, beginCancel_withTask]
  refine inv_takeOut (hs.quiet (quiet_beginCancel m)) (htasks ▸ hframe) (htasks ▸ hinbox) fun k hd h c hc hid => ?_
  obtain ⟨hclient, hnonce⟩ := hd.conns h c hc hid
  have hold := conns_of_beginCancel hc
  have hhead : m ∈ (s.tasks me).inbox.head? := by
    rw [hinbox]
    rfl
  have habout : c.id = m.about := hid.trans hd.about.symm
  obtain ⟨hserver, honly⟩ := hok m hhead hd.kind h (hs.conns h c hold).1 c hold habout
  rw [conns_beginCancel hs hold hclient hnonce hd.nonce hserver habout honly] at hc
  simp at hc

theorem inv_beginConnect (hs : Inv w s) (hf : (s.tasks me).frame = some f) (hkind : f.msg.kind = .connect)
    (hnone : f.handle = none) :
    Inv w ((beginConnect w luck s me f.msg).1.withFrame me (some (beginConnect w luck s me f.msg).2)) := by
  have hstays : Inv w (s.withFrame me (some ⟨f.msg, none, false, false⟩)) :=
    inv_frame hs hf rfl fun _ _ hh => absurd (hnone.symm.trans hh) (by simp)
  unfold beginConnect
  split
  · exact hstays
  split
  · exact hstays
  next x hx =>
    obtain ⟨-, hx⟩ := ite_none_right_eq_some.mp hx
    have hbound : x < maxConns := by
      obtain ⟨i, -, rfl⟩ := mem_map.mp (mem_of_find?_eq_some hx)
      exact Nat.mod_lt _ (by decide)
    exact inv_open hs hf hkind hnone hbound rfl rfl rfl rfl rfl rfl rfl rfl rfl

theorem frame_takeOut (s : Sys) (me : TaskId) (m : Msg) (rest : List Msg) :
    ((takeOut s me m rest).tasks me).frame = some ⟨m, none, false, false⟩ :=
  congrArg Task.frame (Sys.tasks_withTask_self ..)

theorem inv_begin (hs : Inv w s) (hok : Orderly s (me, .begin luck)) (ht : act w s me (.begin luck) = some t) : Inv w t := by
  obtain ⟨m, rest, hframe, hinbox, rfl⟩ := act_begin ht
  have htaken := frame_takeOut s me m rest
  rcases eq_or_ne m.kind .connectCancel with hcancel | hcancel
  · have hdone := inv_beginCancel hs hframe hinbox hok
    have hstays : ((beginCancel w (takeOut s me m rest) me m).tasks me).frame = some ⟨m, none, false, false⟩ := by
      rw [tasks_beginCancel]
      exact htaken
    unfold beginMsg
    rw [hcancel]
    exact inv_frame hdone hstays rfl fun _ _ => id
  · have hout : Inv w (takeOut s me m rest) := inv_takeOut hs hframe hinbox fun _ hd => absurd hd.kind hcancel
    rcases eq_or_ne m.kind .connect with hconnect | hconnect
    · unfold beginMsg
      rw [hconnect]
      exact inv_beginConnect hout htaken hconnect rfl
    · have hquiet : Quiet (takeOut s me m rest) (beginMsg w luck (takeOut s me m rest) me m).1 := quiet_beginMsg hconnect hcancel
      exact inv_frame (hout.quiet hquiet) ((hquiet.frame me).trans htaken) (msg_beginMsg ..) fun h => absurd h hconnect

theorem handle_of_frame (hs : Inv w s) (hf : (s.tasks me).frame = some f) (hkind : f.msg.kind = .connect)
    (hc : s.conns h = some c) (hid : c.id = f.msg.about) : f.handle = some h := by
  have hasked := mem_asks_frame hf hkind
  obtain ⟨-, -, ⟨i, f₀, hf₀, hkind₀, habout, hhandle⟩ | hacked⟩ := hs.conns h c hc
  · obtain rfl := hs.apart i me _ (mem_asks_frame hf₀ hkind₀) _ hasked (habout.trans hid)
    rw [hf, some_inj] at hf₀
    rwa [hf₀]
  · exact absurd (hid ▸ hacked) ((hs.asked me f.msg hasked).2 _)

theorem inv_finishConnect (hs : Inv w s) (hf : (s.tasks me).frame = some f) (hkind : f.msg.kind = .connect)
    (hok : Orderly s (me, .finish sRef luck)) :
    Inv w ((finishMsg w luck s me f sRef).withFrame me none) := by
  have hanswer : ∀ {u : Sys} {r : Option Nat}, Quiet s u → u.tasks = s.tasks →
      (∀ x c, u.conns x = some c → c.id = f.msg.about → r = some x) → Inv w (answered u me f.msg r) := by
    intro u r hquiet htasks hr
    refine inv_ack (hs.quiet hquiet) (htasks ▸ hf) hkind ?_ hr
    rw [htasks]
    exact hok f hf hkind
  unfold finishMsg
  rw [hkind]
  dsimp only
  split
  next hnone =>
    refine hanswer (.refl s) rfl fun x c hc hid => ?_
    exact absurd (hnone.symm.trans (handle_of_frame hs hf hkind hc hid)) (by simp)
  next h hsome =>
    split
    · generalize hu : (if f.asks then _ else s) = u
      have hquiet : Quiet s u := by
        rw [← hu]
        split
        · refine Quiet.trans ?_ (quiet_listen ..)
          exact quiet_withConn h fun _ => ⟨rfl, rfl, rfl⟩
        · exact .refl s
      have htasks : u.tasks = s.tasks := by
        rw [← hu]
        split
        · rw [tasks_listen, Sys.tasks_withConn]
        · rfl
      refine hanswer hquiet htasks fun x c hc hid => ?_
      exact hsome.symm.trans (handle_of_frame (hs.quiet hquiet) (htasks ▸ hf) hkind hc hid)
    · have hquiet : Quiet s (connFree s h) := quiet_connFree h
      have htasks := tasks_connFree s h
      refine hanswer hquiet htasks fun x c hc hid => ?_
      cases hsome.symm.trans (handle_of_frame (hs.quiet hquiet) (htasks ▸ hf) hkind hc hid)
      simp at hc

theorem inv_finish (hs : Inv w s) (hok : Orderly s (me, .finish sRef luck))
    (ht : act w s me (.finish sRef luck) = some t) : Inv w t := by
  obtain ⟨f, hf, rfl⟩ := act_finish ht
  rcases eq_or_ne f.msg.kind .connect with hkind | hkind
  · exact (inv_finishConnect hs hf hkind hok).quiet (quiet_withMem _)
  · have hquiet : Quiet s (finishMsg w luck s me f sRef) := quiet_finishMsg hkind sRef
    exact (inv_done (hs.quiet hquiet) ((hquiet.frame me).trans hf) hkind).quiet (quiet_withMem _)

theorem inv_act (hs : Inv w s) (hme : me < w.count) (hcall : (s.tasks me).call = none) (hok : Orderly s (me, x))
    (ht : act w s me x = some t) : Inv w t := by
  cases x with
  | wake => simp [act] at ht
  | read => simp [act] at ht
  | timeout luck => simp [act] at ht
  | begin luck => exact inv_begin hs hok ht
  | finish sRef luck => exact inv_finish hs hok ht
  | connect srv port data len ref cb luck =>
    obtain ⟨-, heq⟩ := ite_none_right_eq_some.mp ht
    exact some.inj heq ▸ inv_itsConnect hs hme hcall srv port data len ref cb
  | disconnect h luck => exact some.inj ht ▸ hs.quiet (quiet_itsDisconnect h)
  | forward h target port data len luck => exact some.inj ht ▸ hs.quiet (quiet_itsServerForward h target port data len)
  | aux | auxOwned | send | recv | recvRef | reset => exact hs.quiet (quiet_aside (aside_act ht rfl))

theorem inv_step {a : TaskId × Action} (hs : Inv w s) (hok : Orderly s a) (ht : step w s a = some t) : Inv w t := by
  obtain ⟨me, x⟩ := a
  obtain ⟨hme, ⟨k, hk, ⟨rfl, hmatched, hsem, rfl⟩ | ⟨rfl, hmatched, rfl⟩ | ⟨luck, rfl, hmatched, hsem, rfl⟩⟩ | ⟨hcall, ht⟩⟩ :=
    step_cases ht
  · exact inv_wake hs hk hmatched hsem
  · exact inv_read hs hk hmatched
  · exact inv_timeout hs hk hmatched hsem hok.1 hok.2
  · exact inv_act hs hme hcall hok ht

theorem inv_start (w : World) : Inv w start := by
  refine ⟨?_, fun _ => nodup_nil, ?_, ?_, ?_, ?_, ?_, ?_, ?_, ?_, told_nil, ?_⟩
  · exact fun _ _ hm => absurd hm not_mem_nil
  · exact fun _ _ _ hm => absurd hm not_mem_nil
  · exact (by simp [start])
  · exact (by simp [start])
  · exact fun _ _ _ h => absurd h not_mem_nil
  · exact fun _ _ _ h => absurd h not_mem_nil
  · exact (by simp [start])
  · exact (by simp [start])
  · exact (by simp [start])
  · exact fun _ h => absurd h not_mem_nil

end Steps

open Runs

def Answers (w : World) (s : Sys) (i : TaskId) (k : Call) (h : Nat) : Prop :=
  (∀ luck, step w s (i, .timeout luck) = none) ∧
    ∃ bs t, (bs = [(i, .wake), (i, .read)] ∨ bs = [(i, .read)]) ∧ run (step w) s bs = some t ∧ .returned k.id (some h) ∈ t.log

/-- What the handshake is for: a call returns a handle only for its own connection;
an acceptance that comes while it waits is what it returns; and when nothing is under
way any more, no entry belongs to a call that returned none. -/
structure Faithful (w : World) (s : Sys) : Prop where
  own : ∀ A B k h, s.log = A ++ .returned k (some h) :: B →
    .acked k (some h) ∈ A ∧ ∀ h' c, s.conns h' = some c → c.id = k → h' = h
  heard : ∀ A B k r h, s.log = A ++ .returned k r :: B → .acked k (some h) ∈ A → r = some h
  answers : ∀ i k h, (s.tasks i).call = some k → .acked k.id (some h) ∈ s.log → Answers w s i k h
  reaped : (∀ i, (s.tasks i).inbox = [] ∧ (s.tasks i).frame = none) →
    ∀ h c, s.conns h = some c → .returned c.id none ∉ s.log

theorem returned_connectRead (s : Sys) (me : TaskId) (k : Call) :
    .returned k.id (s.tasks me).ackHandle ∈ (connectRead s me k).log := by
  unfold connectRead
  dsimp only
  split
  · simp
  · split <;> simp

theorem step_read (hi : i < w.count) (hk : (s.tasks i).call = some k) (hmatched : k.matched = true) :
    step w s (i, .read) = some (connectRead s i k) := by
  simp [step, hi, hk, hmatched]

theorem answers_of_inv (hs : Inv w s) (hk : (s.tasks i).call = some k) (hacked : .acked k.id (some h) ∈ s.log) :
    Answers w s i k h := by
  have hwait := hs.waiting i k hk
  cases hmatched : k.matched with
  | true =>
    have hhandle := hs.answer k.id _ _ (hwait.matched hmatched) hacked
    refine ⟨fun luck => by simp [step, hk, hmatched], [(i, .read)], _, .inr rfl, ?_, hhandle ▸ returned_connectRead s i k⟩
    exact (run_cons _ _ _ _ _).mpr ⟨_, step_read hwait.task hk hmatched, rfl⟩
  | false =>
    obtain ⟨hsem, hnonce⟩ := (hwait.heard _ hacked).resolve_left (by simp [hmatched])
    have hhandle := hs.answer k.id _ _ (hwait.rung hsem hnonce) hacked
    have hwake : step w s (i, .wake) = some (connectWake s i k) := by simp [step, hwait.task, hk, hmatched, hsem]
    have hcall : ((connectWake s i k).tasks i).call = some { k with matched := true } := by
      rw [connectWake, Sys.tasks_withTask_self]
      simp [hnonce]
    have hkept : ((connectWake s i k).tasks i).ackHandle = some h := by
      rw [connectWake, Sys.tasks_withTask_self]
      exact hhandle
    refine ⟨fun luck => by simp [step, hk, hsem], [(i, .wake), (i, .read)], _, .inl rfl, ?_,
      hkept ▸ returned_connectRead (connectWake s i k) i { k with matched := true }⟩
    exact (run_cons _ _ _ _ _).mpr ⟨_, hwake, (run_cons _ _ _ _ _).mpr ⟨_, step_read hwait.task hcall rfl, rfl⟩⟩

theorem faithful_of_inv (hs : Inv w s) : Faithful w s := by
  refine ⟨?_, ?_, fun i k h hk hacked => answers_of_inv hs hk hacked, ?_⟩
  · intro A B k h hlog
    have hacked := (hs.told A B k (some h) hlog).2 h rfl
    have hin : .acked k (some h) ∈ s.log := hlog ▸ mem_append_left _ hacked
    refine ⟨hacked, fun h' c hc hid => ?_⟩
    obtain ⟨-, -, ⟨i, f, hf, hkind, habout, -⟩ | hother⟩ := hs.conns h' c hc
    · exact absurd ((habout.trans hid) ▸ hin) ((hs.asked i f.msg (mem_asks_frame hf hkind)).2 _)
    · exact some.inj (hs.answer k _ _ (hid ▸ hother) hin)
  · exact fun A B k r h hlog hacked => (hs.told A B k r hlog).1 (some h) hacked
  · intro hdrained h c hc hnone
    rcases hs.gone c.id hnone with hsettled | ⟨j, m, A, B, hdoomed⟩
    · exact hsettled.conns h c hc rfl
    · exact absurd (hdoomed.inbox.symm.trans (hdrained j).1) (by simp)

/-- Every schedule whose steps keep the order leads to a state in which handshakes are faithful. -/
theorem handshake_faithful (w : World) (as : List (TaskId × Action)) (s : Sys) (hmeets : Meets (step w) Orderly start as)
    (hrun : run (step w) start as = some s) : Faithful w s :=
  faithful_of_inv (run_invariant (fun _ _ _ hs hok ht => inv_step hs hok ht) (inv_start w) hmeets hrun)

def trio : World where
  count := 3
  task t := ⟨t ≠ 0, t = 0, false, 8, 64, if t = 0 then [] else [⟨t, .stream, 4, 0, 0, 0, 0, true, false, true⟩], []⟩

/-- A connect is given up and reaped, and the next one is accepted. -/
def abandonedOnce : List (TaskId × Action) :=
  [(0, .connect 1 1 false 0 0 none lucky), (0, .timeout lucky), (0, .connect 2 2 false 0 0 none lucky), (1, .begin lucky),
    (1, .finish 0 lucky), (1, .begin lucky), (1, .finish 0 lucky), (0, .wake), (2, .begin lucky), (2, .finish 0 lucky),
    (0, .wake), (0, .read)]

theorem handshake_faithful_abandoned :
    ∃ s, Meets (step trio) Orderly start abandonedOnce ∧ run (step trio) start abandonedOnce = some s ∧ Faithful trio s :=
  ⟨_, by decide +kernel, rfl, handshake_faithful trio abandonedOnce _ (by decide +kernel) rfl⟩

/-- The second connect is accepted, and before the client has looked the answer to
the first one, which it gave up, takes its place. -/
def lateAnswer : List (TaskId × Action) :=
  [(0, .connect 1 1 false 0 0 none lucky), (0, .timeout lucky), (0, .connect 2 2 false 0 0 none lucky), (1, .begin lucky),
    (2, .begin lucky), (2, .finish 0 lucky), (1, .finish 0 lucky), (0, .wake), (0, .timeout lucky)]

/-- The server hands the connection on before the client gives up. -/
def forwardedAway : List (TaskId × Action) :=
  [(0, .connect 1 1 false 0 0 none lucky), (1, .begin lucky), (1, .forward 0 2 2 false 0 lucky), (0, .timeout lucky),
    (1, .finish 0 lucky), (1, .begin lucky), (1, .finish 0 lucky), (2, .begin lucky), (2, .finish 0 lucky)]

theorem handshake_broken : (∃ s, run (step trio) start lateAnswer = some s ∧ ¬ Faithful trio s) ∧
      ∃ s, run (step trio) start forwardedAway = some s ∧ ¬ Faithful trio s := by
  refine ⟨⟨_, rfl, fun h => ?_⟩, ⟨_, rfl, fun h => ?_⟩⟩
  · exact absurd (h.heard [.returned 0 none, .registered .server 1 0, .acked 1 (some 1), .registered .server 0 0,
      .acked 0 (some 0)] [] 1 none 1 rfl (by decide)) (by decide)
  · refine h.reaped (fun i => ?_) 0 _ rfl (by decide)
    match i with
    | 0 | 1 | 2 => exact ⟨rfl, rfl⟩
    | n + 3 => exact ⟨rfl, rfl⟩

end Spangap.HandshakeRuns
