import Spangap.Its

namespace Spangap.Handshake

open List Option Function Its

variable {k : Nat} {B A ms : List Msg} {i me : TaskId} {m : Msg} {r : Option Nat} {w : World} {e : Event} {t s : Sys}
  {f : Frame}

def asks (t : Task) : List Msg := (taskMsgs t).filter fun m => m.kind = .connect

/-- No connect of call `k` is unanswered, and no entry belongs to it. -/
structure Settled (s : Sys) (k : Nat) : Prop where
  asked : ∀ i, ∀ m ∈ asks (s.tasks i), m.about ≠ k
  conns : ∀ h c, s.conns h = some c → c.id ≠ k

/-- The cancel `m` of call `k` waits at task `j`, behind the connect. -/
structure Doomed (s : Sys) (k : Nat) (j : TaskId) (m : Msg) (before after : List Msg) : Prop where
  kind : m.kind = .connectCancel
  about : m.about = k
  nonce : m.nonce ≠ 0
  inbox : (s.tasks j).inbox = before ++ m :: after
  behind : ∀ m' ∈ after, m'.kind = .connect → m'.about ≠ k
  asked : ∀ i, ∀ m' ∈ asks (s.tasks i), m'.about = k → i = j ∧ m'.sender = m.sender ∧ m'.nonce = m.nonce
  conns : ∀ h c, s.conns h = some c → c.id = k → c.client = m.sender ∧ c.connectNonce = m.nonce

/-- A task waits in call `k`. Its ack, once given, is there to be read. -/
structure Waiting (w : World) (s : Sys) (i : TaskId) (k : Call) : Prop where
  task : i < w.count
  server : k.server < w.count
  nonce : k.nonce ≠ 0
  fresh : k.id < s.calls
  silent : ∀ r, .returned k.id r ∉ s.log
  asked : ∀ j, ∀ m ∈ asks (s.tasks j), m.about = k.id → j = k.server ∧ m.sender = i ∧ m.nonce = k.nonce
  conns : ∀ h c, s.conns h = some c → c.id = k.id → c.client = i ∧ c.connectNonce = k.nonce
  matched : k.matched = true → .acked k.id (s.tasks i).ackHandle ∈ s.log
  rung : (s.tasks i).ackSem = true → (s.tasks i).ackNonce = k.nonce → .acked k.id (s.tasks i).ackHandle ∈ s.log
  heard : ∀ r, .acked k.id r ∈ s.log → k.matched = true ∨ (s.tasks i).ackSem = true ∧ (s.tasks i).ackNonce = k.nonce

/-- A cancel is of a call that has returned none, and comes after its connect. -/
structure Cancelled (s : Sys) (i : TaskId) (m : Msg) (after : List Msg) : Prop where
  returned : .returned m.about none ∈ s.log
  behind : ∀ m' ∈ after, m'.kind = .connect → m'.about ≠ m.about
  asked : ∀ j, ∀ m' ∈ asks (s.tasks j), m'.about = m.about → j = i

def Told (log : List Event) : Prop :=
  ∀ A B k r, log = A ++ .returned k r :: B →
    (∀ r', .acked k r' ∈ A → r = r') ∧ ∀ h, r = some h → .acked k (some h) ∈ A

def Placed (s : Sys) (h : Nat) (c : Conn) : Prop :=
  (∃ i f, (s.tasks i).frame = some f ∧ f.msg.kind = .connect ∧ f.msg.about = c.id ∧ f.handle = some h) ∨
    .acked c.id (some h) ∈ s.log

structure Inv (w : World) (s : Sys) : Prop where
  asked : ∀ i, ∀ m ∈ asks (s.tasks i), m.about < s.calls ∧ ∀ r, .acked m.about r ∉ s.log
  once : ∀ i, ((asks (s.tasks i)).map Msg.about).Nodup
  apart : ∀ i j, ∀ m ∈ asks (s.tasks i), ∀ m' ∈ asks (s.tasks j), m.about = m'.about → i = j
  bound : ∀ k r, .acked k r ∈ s.log ∨ .returned k r ∈ s.log → k < s.calls
  conns : ∀ h c, s.conns h = some c → h < maxConns ∧ c.id < s.calls ∧ Placed s h c
  answer : ∀ k r r', .acked k r ∈ s.log → .acked k r' ∈ s.log → r = r'
  returns : ∀ k r r', .returned k r ∈ s.log → .returned k r' ∈ s.log → r = r'
  waiting : ∀ i k, (s.tasks i).call = some k → Waiting w s i k
  callers : ∀ i j k k', (s.tasks i).call = some k → (s.tasks j).call = some k' → k.id = k'.id → i = j
  cancels : ∀ i A m B, (s.tasks i).inbox = A ++ m :: B → m.kind = .connectCancel → Cancelled s i m B
  told : Told s.log
  gone : ∀ k, .returned k none ∈ s.log → Settled s k ∨ ∃ j m A B, Doomed s k j m A B

/-- A change without a part in a handshake: messages of other kinds, other events,
and entries that keep their call or go. -/
structure Quiet (s t : Sys) : Prop where
  tasks : ∀ i, ∃ ms : List Msg, t.tasks i = { s.tasks i with inbox := (s.tasks i).inbox ++ ms } ∧
    ∀ m ∈ ms, m.kind ≠ .connect ∧ m.kind ≠ .connectCancel
  conns : ∀ h c', t.conns h = some c' →
    ∃ c, s.conns h = some c ∧ c'.id = c.id ∧ c'.client = c.client ∧ c'.connectNonce = c.connectNonce
  calls : t.calls = s.calls
  log : ∃ es : List Event, t.log = s.log ++ es ∧ ∀ e ∈ es, ∀ k r, e ≠ .acked k r ∧ e ≠ .returned k r

/-- A call that nothing is known of yet. -/
structure Unheard (s : Sys) (id : Nat) : Prop extends Settled s id where
  fresh : id < s.calls
  log : ∀ r, .acked id r ∉ s.log ∧ .returned id r ∉ s.log
  calls : ∀ i k, (s.tasks i).call = some k → k.id ≠ id

/-- Call `k` returns `r` in a step from `s` to `t`. -/
structure Ends (s t : Sys) (k : Nat) (r : Option Nat) : Prop where
  fresh : k < s.calls
  only : ∀ r', .returned k r' ∈ t.log → r' = r
  calls : ∀ i c, (s.tasks i).call = some c → c.id ≠ k
  gone : r = none → Settled t k ∨ ∃ j m A B, Doomed t k j m A B

/-- An entry that is made from the connect under dispatch. -/
def Opens (s : Sys) (h : Nat) (c : Conn) : Prop :=
  h < maxConns ∧ ∃ i f, (s.tasks i).frame = some f ∧ f.msg.kind = .connect ∧ f.handle = some h ∧ c.id = f.msg.about ∧
    c.client = f.msg.sender ∧ c.connectNonce = f.msg.nonce

/-- A step that adds messages to the inboxes and answers nothing. -/
structure Extends (s t : Sys) (ms : TaskId → List Msg) : Prop where
  tasks : ∀ i, t.tasks i = { s.tasks i with inbox := (s.tasks i).inbox ++ ms i }
  fresh : ∀ i, ∀ m ∈ ms i, m.kind = .connect → Unheard s m.about
  conns : ∀ h c', t.conns h = some c' →
    (∃ c, s.conns h = some c ∧ c'.id = c.id ∧ c'.client = c.client ∧ c'.connectNonce = c.connectNonce) ∨ Opens s h c'
  calls : s.calls ≤ t.calls
  acked : ∀ k r, .acked k r ∈ t.log ↔ .acked k r ∈ s.log
  kept : ∀ k r, .returned k r ∈ s.log → .returned k r ∈ t.log
  returned : ∀ k r, .returned k r ∈ t.log → .returned k r ∈ s.log ∨ Ends s t k r
  cancels : ∀ i A m B, ms i = A ++ m :: B → m.kind = .connectCancel → Cancelled t i m B

section Lists

variable {t : Task}

theorem asks_append (h : ∀ m ∈ ms, m.kind ≠ .connect) : asks { t with inbox := t.inbox ++ ms } = asks t := by
  have hnone : ms.filter (fun m => m.kind = .connect) = [] := by
    rw [filter_eq_nil_iff]
    intro m hm
    simpa using h m hm
  rw [asks, asks, taskMsgs, taskMsgs, append_assoc, filter_append, filter_append, hnone, nil_append,
    filter_append]

theorem append_cases {l : List Msg} (h : l ++ ms = A ++ m :: B) :
    (∃ as, ms = as ++ m :: B) ∨ ∃ B', l = A ++ m :: B' ∧ B = B' ++ ms := by
  obtain ⟨as, rfl, has⟩ | ⟨bs, rfl, hbs⟩ := append_eq_append_iff.mp h
  · exact .inl ⟨as, has⟩
  · cases bs with
    | nil => exact .inl ⟨[], hbs.symm⟩
    | cons b bs =>
      cases hbs
      exact .inr ⟨bs, rfl, rfl⟩

theorem mem_asks : m ∈ asks t ↔ m ∈ taskMsgs t ∧ m.kind = .connect := by
  rw [asks, mem_filter, decide_eq_true_iff]

theorem mem_asks_frame (h : t.frame = some f) (hk : f.msg.kind = .connect) : f.msg ∈ asks t := by
  refine mem_asks.mpr ⟨mem_append_right _ ?_, hk⟩
  rw [h]
  exact mem_singleton_self _

end Lists

section Logs

variable {log : List Event}

theorem told_nil : Told [] := fun A _ _ _ h => absurd h (by simp)

theorem told_snoc (h : Told log)
    (he : ∀ k r, e = .returned k r → (∀ r', .acked k r' ∈ log → r = r') ∧ ∀ x, r = some x → .acked k (some x) ∈ log) :
    Told (log ++ [e]) := by
  intro A B k r heq
  rcases eq_nil_or_concat B with rfl | ⟨B, e', rfl⟩
  · obtain ⟨rfl, hlast⟩ := append_inj' heq rfl
    exact he k r (singleton_inj.mp hlast)
  · have hsplit : log ++ [e] = (A ++ .returned k r :: B) ++ [e'] := by
      rw [heq, concat_eq_append, append_assoc, cons_append]
    exact h A B k r (append_inj' hsplit rfl).1

theorem told_append {es : List Event} (h : Told log) (hes : ∀ e ∈ es, ∀ k r, e ≠ .returned k r) : Told (log ++ es) := by
  induction es generalizing log with
  | nil => rwa [append_nil]
  | cons e es ih =>
    rw [← singleton_append, ← append_assoc]
    refine ih (told_snoc h fun k r heq => ?_) fun e' he' => hes e' (mem_cons_of_mem _ he')
    exact absurd heq (hes e mem_cons_self k r)

end Logs

section Frames

variable {u : Sys} {M : TaskId → List Msg}

theorem Quiet.refl (s : Sys) : Quiet s s :=
  ⟨fun _ => ⟨[], by simp, by simp⟩, fun _ c hc => ⟨c, hc, rfl, rfl, rfl⟩, rfl, [], by simp, by simp⟩

theorem Quiet.trans (h : Quiet s t) (h' : Quiet t u) : Quiet s u := by
  refine ⟨fun i => ?_, fun x c'' hc => ?_, h'.calls.trans h.calls, ?_⟩
  · obtain ⟨ms, heq, hms⟩ := h.tasks i
    obtain ⟨ms', heq', hms'⟩ := h'.tasks i
    refine ⟨ms ++ ms', ?_, fun m hm => (mem_append.mp hm).elim (hms m) (hms' m)⟩
    rw [heq', heq, append_assoc]
  · obtain ⟨c', hc', hid', hcl', hn'⟩ := h'.conns x c'' hc
    obtain ⟨c, hc, hid, hcl, hn⟩ := h.conns x c' hc'
    exact ⟨c, hc, hid'.trans hid, hcl'.trans hcl, hn'.trans hn⟩
  · obtain ⟨es, heq, hes⟩ := h.log
    obtain ⟨es', heq', hes'⟩ := h'.log
    refine ⟨es ++ es', ?_, fun e he => (mem_append.mp he).elim (hes e) (hes' e)⟩
    rw [heq', heq, append_assoc]

theorem Quiet.asks (h : Quiet s t) (i : TaskId) : asks (t.tasks i) = Handshake.asks (s.tasks i) := by
  obtain ⟨ms, heq, hms⟩ := h.tasks i
  rw [heq, asks_append fun m hm => (hms m hm).1]

theorem Quiet.acked (h : Quiet s t) : .acked k r ∈ t.log ↔ .acked k r ∈ s.log := by
  obtain ⟨es, heq, hes⟩ := h.log
  rw [heq, mem_append, or_iff_left fun he => (hes _ he k r).1 rfl]

theorem Quiet.returned (h : Quiet s t) : .returned k r ∈ t.log ↔ .returned k r ∈ s.log := by
  obtain ⟨es, heq, hes⟩ := h.log
  rw [heq, mem_append, or_iff_left fun he => (hes _ he k r).2 rfl]

theorem Quiet.call (h : Quiet s t) (i : TaskId) : (t.tasks i).call = (s.tasks i).call := by
  obtain ⟨ms, heq, -⟩ := h.tasks i
  rw [heq]

theorem Quiet.frame (h : Quiet s t) (i : TaskId) : (t.tasks i).frame = (s.tasks i).frame := by
  obtain ⟨ms, heq, -⟩ := h.tasks i
  rw [heq]

theorem Settled.quiet (hk : Settled s k) (h : Quiet s t) : Settled t k := by
  refine ⟨fun i m hm => hk.asked i m (h.asks i ▸ hm), fun x c' hc' => ?_⟩
  obtain ⟨c, hc, hid, -⟩ := h.conns x c' hc'
  rw [hid]
  exact hk.conns x c hc

/-- An entry of call `k` is an older one, or made from an unanswered connect. -/
def Derived (s : Sys) (k : Nat) (h : Nat) (c : Conn) : Prop :=
  (∃ c₀, s.conns h = some c₀ ∧ c₀.id = k ∧ c.client = c₀.client ∧ c.connectNonce = c₀.connectNonce) ∨
    ∃ i, ∃ m ∈ asks (s.tasks i), m.about = k ∧ c.client = m.sender ∧ c.connectNonce = m.nonce

theorem Doomed.step {j : Nat} (hk : Doomed s k j m A B) {A' : List Msg}
    (hinbox : (t.tasks j).inbox = A' ++ m :: (B ++ ms)) (hms : ∀ m' ∈ ms, m'.kind = .connect → m'.about ≠ k)
    (hasks : ∀ i, ∀ m' ∈ asks (t.tasks i), m'.about = k → m' ∈ asks (s.tasks i))
    (hconns : ∀ x c, t.conns x = some c → c.id = k → Derived s k x c) : Doomed t k j m A' (B ++ ms) := by
  refine ⟨hk.kind, hk.about, hk.nonce, hinbox, forall_mem_append.mpr ⟨hk.behind, hms⟩,
    fun i m' hm' hid => hk.asked i m' (hasks i m' hm' hid) hid, ?_⟩
  intro x c hc hid
  rcases hconns x c hc hid with ⟨c₀, hc₀, hid₀, hcl, hn⟩ | ⟨i, m', hm', hid', hcl, hn⟩
  · rw [hcl, hn]
    exact hk.conns x c₀ hc₀ hid₀
  · rw [hcl, hn]
    exact (hk.asked i m' hm' hid').2

theorem Unheard.quiet (hk : Unheard s k) (h : Quiet s t) : Unheard t k :=
  ⟨hk.toSettled.quiet h, h.calls ▸ hk.fresh, fun r => ⟨fun hr => (hk.log r).1 (h.acked.mp hr), fun hr => (hk.log r).2 (h.returned.mp hr)⟩,
    fun i c hc => hk.calls i c (h.call i ▸ hc)⟩

theorem Unheard.ne (hnew : Unheard s k) {k' : Nat} (hr : .returned k' r ∈ s.log) : k ≠ k' := by
  rintro rfl
  exact (hnew.log r).2 hr

theorem Extends.asked (h : Extends s t M) (hm : m ∈ asks (t.tasks i)) :
    m ∈ asks (s.tasks i) ∨ m ∈ M i ∧ Unheard s m.about := by
  obtain ⟨hin, hkind⟩ := mem_asks.mp hm
  rw [h.tasks, taskMsgs, append_assoc] at hin
  rcases mem_append.mp hin with hin | hin
  · exact .inl (mem_asks.mpr ⟨mem_append_left _ hin, hkind⟩)
  rcases mem_append.mp hin with hin | hin
  · exact .inr ⟨hin, h.fresh i m hin hkind⟩
  · exact .inl (mem_asks.mpr ⟨mem_append_right _ hin, hkind⟩)

theorem Extends.lt (h : Extends s t M) {a : Nat} (ha : a < s.calls) : a < t.calls :=
  Nat.lt_of_lt_of_le ha h.calls

theorem Waiting.extend {k : Call} (hk : Waiting w s i k) (hcall : (s.tasks i).call = some k)
    (h : Extends s t M) : Waiting w t i k := by
  refine ⟨hk.task, hk.server, hk.nonce, h.lt hk.fresh, ?_, ?_, ?_, ?_, ?_, ?_⟩
  · intro r hr
    rcases h.returned _ r hr with hr | hend
    · exact hk.silent r hr
    · exact hend.calls i k hcall rfl
  · intro j m hm habout
    rcases h.asked hm with hm | ⟨-, hnew⟩
    · exact hk.asked j m hm habout
    · exact absurd habout.symm (hnew.calls i k hcall)
  · intro x c' hc' hid'
    rcases h.conns x c' hc' with ⟨c, hc, hid, hcl, hn⟩ | ⟨-, j, f, hf, hkind, -, hid, hcl, hn⟩
    · rw [hcl, hn]
      exact hk.conns x c hc (hid.symm.trans hid')
    · rw [hcl, hn]
      exact (hk.asked j f.msg (mem_asks_frame hf hkind) (hid.symm.trans hid')).2
  · rw [h.acked, h.tasks]
    exact hk.matched
  · rw [h.acked, h.tasks]
    exact hk.rung
  · intro r
    rw [h.acked, h.tasks]
    exact hk.heard r

theorem Inv.extend (hs : Inv w s) (h : Extends s t M) (honce : ∀ i, ((asks (t.tasks i)).map Msg.about).Nodup)
    (hapart : ∀ i j, ∀ m ∈ asks (t.tasks i), ∀ m' ∈ asks (t.tasks j), m.about = m'.about → i = j)
    (htold : Told t.log) : Inv w t := by
  refine ⟨?_, honce, hapart, ?_, ?_, ?_, ?_, ?_, ?_, ?_, htold, ?_⟩
  · intro i m hm
    rcases h.asked hm with hm | ⟨-, hnew⟩
    · exact (hs.asked i m hm).imp h.lt fun hnot r hr => hnot r ((h.acked _ _).mp hr)
    · exact ⟨h.lt hnew.fresh, fun r hr => (hnew.log r).1 ((h.acked _ _).mp hr)⟩
  · rintro k r (hr | hr)
    · exact h.lt (hs.bound k r (.inl ((h.acked _ _).mp hr)))
    · rcases h.returned k r hr with hr | hend
      · exact h.lt (hs.bound k r (.inr hr))
      · exact h.lt hend.fresh
  · intro x c' hc'
    rw [Placed, h.acked]
    simp only [h.tasks]
    rcases h.conns x c' hc' with ⟨c, hc, hid, -⟩ | ⟨hx, i, f, hf, hkind, hh, hid, -⟩
    · obtain ⟨hx, hfresh, hplaced⟩ := hs.conns x c hc
      rw [hid]
      exact ⟨hx, h.lt hfresh, hplaced⟩
    · exact ⟨hx, hid ▸ h.lt (hs.asked i f.msg (mem_asks_frame hf hkind)).1, .inl ⟨i, f, hf, hkind, hid.symm, hh⟩⟩
  · intro k r r'
    rw [h.acked, h.acked]
    exact hs.answer k r r'
  · intro k r r' hr hr'
    rcases h.returned k r hr with hold | hend
    · rcases h.returned k r' hr' with hold' | hend'
      · exact hs.returns k r r' hold hold'
      · exact hend'.only r hr
    · exact (hend.only r' hr').symm
  · intro i k hk
    rw [h.tasks] at hk
    exact (hs.waiting i k hk).extend hk h
  · intro i j k k' hk hk'
    rw [h.tasks] at hk hk'
    exact hs.callers i j k k' hk hk'
  · intro i A m B hsplit hkind
    rw [h.tasks] at hsplit
    rcases append_cases hsplit with ⟨as, has⟩ | ⟨B', hold, rfl⟩
    · exact h.cancels i as m B has hkind
    · obtain ⟨hreturned, hbehind, hasked⟩ := hs.cancels i A m B' hold hkind
      refine ⟨h.kept _ _ hreturned, fun m' hm' hconnect => ?_, fun j m' hm' habout => ?_⟩
      · rcases mem_append.mp hm' with hm' | hm'
        · exact hbehind m' hm' hconnect
        · exact (h.fresh i m' hm' hconnect).ne hreturned
      · rcases h.asked hm' with hm' | ⟨-, hnew⟩
        · exact hasked j m' hm' habout
        · exact absurd habout (hnew.ne hreturned)
  · intro k hk
    rcases h.returned k none hk with hk | hend
    · have hold : ∀ i, ∀ m ∈ asks (t.tasks i), m.about = k → m ∈ asks (s.tasks i) := fun i m hm habout =>
        (h.asked hm).resolve_right fun hnew => hnew.2.ne hk habout
      rcases hs.gone k hk with hsettled | ⟨j, m, A, B, hdoomed⟩
      · refine .inl ⟨fun i m hm habout => hsettled.asked i m (hold i m hm habout) habout, fun x c' hc' => ?_⟩
        rcases h.conns x c' hc' with ⟨c, hc, hid, -⟩ | ⟨-, i, f, hf, hkind, -, hid, -⟩
        · exact hid ▸ hsettled.conns x c hc
        · exact hid ▸ hsettled.asked i f.msg (mem_asks_frame hf hkind)
      · refine .inr ⟨j, m, A, B ++ M j, hdoomed.step ?_ (fun m' hm' hkind => (h.fresh j m' hm' hkind).ne hk) hold ?_⟩
        · rw [h.tasks, hdoomed.inbox, append_assoc, cons_append]
        · intro x c' hc' hk
          rcases h.conns x c' hc' with ⟨c, hc, hid, hcl, hn⟩ | ⟨-, i, f, hf, hkind, -, hid, hcl, hn⟩
          · exact .inl ⟨c, hc, hid.symm.trans hk, hcl, hn⟩
          · exact .inr ⟨i, f.msg, mem_asks_frame hf hkind, hid.symm.trans hk, hcl, hn⟩
    · exact hend.gone rfl

theorem Inv.quiet (hs : Inv w s) (h : Quiet s t) : Inv w t := by
  choose ms htasks hkinds using h.tasks
  refine hs.extend ⟨htasks, fun i m hm hkind => absurd hkind (hkinds i m hm).1, fun x c hc => .inl (h.conns x c hc), Nat.le_of_eq h.calls.symm, fun _ _ => h.acked,
    fun _ _ => h.returned.mpr, fun _ _ hr => .inl (h.returned.mp hr), fun i A m B hsplit hkind => ?_⟩ (fun i => ?_) (fun i j => ?_) ?_
  · exact absurd hkind (hkinds i m (hsplit ▸ by simp)).2
  · rw [h.asks]
    exact hs.once i
  · rw [h.asks, h.asks]
    exact hs.apart i j
  · obtain ⟨es, heq, hes⟩ := h.log
    rw [heq]
    exact told_append hs.told fun e he k r => (hes e he k r).2

end Frames

section Tasks

variable {g : Task → Task}

theorem asks_withTask (hasks : (asks (g (s.tasks me))).Perm (asks (s.tasks me))) (i : TaskId) :
    (asks ((s.withTask me g).tasks i)).Perm (asks (s.tasks i)) := Sys.withTask_rec hasks (fun _ _ => .refl _) i

theorem Waiting.withTask {k : Call} (hk : Waiting w s i k) (hasks : (asks (g (s.tasks me))).Perm (asks (s.tasks me)))
    (hacks : i = me → (g (s.tasks me)).ackSem = (s.tasks me).ackSem ∧
      (g (s.tasks me)).ackNonce = (s.tasks me).ackNonce ∧ (g (s.tasks me)).ackHandle = (s.tasks me).ackHandle) :
    Waiting w (s.withTask me g) i k := by
  have hsame : ((s.withTask me g).tasks i).ackSem = (s.tasks i).ackSem ∧
      ((s.withTask me g).tasks i).ackNonce = (s.tasks i).ackNonce ∧
      ((s.withTask me g).tasks i).ackHandle = (s.tasks i).ackHandle := by
    rcases eq_or_ne i me with rfl | hi
    · rw [Sys.tasks_withTask_self]
      exact hacks rfl
    · rw [Sys.tasks_withTask_ne hi]
      exact ⟨rfl, rfl, rfl⟩
  obtain ⟨hsem, hnonce, hhandle⟩ := hsame
  refine { hk with asked := ?_, matched := ?_, rung := ?_, heard := ?_ }
  · exact fun j m hm => hk.asked j m ((asks_withTask hasks j).mem_iff.mp hm)
  · rw [hhandle]
    exact hk.matched
  · rw [hsem, hnonce, hhandle]
    exact hk.rung
  · rw [hsem, hnonce]
    exact hk.heard

section

variable (hs : Inv w s) (hasks : (asks (g (s.tasks me))).Perm (asks (s.tasks me)))
  (hframe : ∀ f h, (s.tasks me).frame = some f → f.msg.kind = .connect → f.handle = some h →
    ∃ f', (g (s.tasks me)).frame = some f' ∧ f'.msg = f.msg ∧ f'.handle = some h)
  (hid : ∀ k, (g (s.tasks me)).call = some k → ∀ i k', i ≠ me → (s.tasks i).call = some k' → k.id ≠ k'.id)
  (hcall : ∀ k, (g (s.tasks me)).call = some k → Waiting w (s.withTask me g) me k)
include hs hasks hframe hid hcall

theorem Inv.withTask (hinbox : (g (s.tasks me)).inbox <:+ (s.tasks me).inbox)
    (hcancel : ∀ k m A B, Doomed s k me m A B → (∃ A', (g (s.tasks me)).inbox = A' ++ m :: B) ∨ Settled s k) :
    Inv w (s.withTask me g) := by
  have hperm := asks_withTask hasks
  refine ⟨?_, ?_, ?_, hs.bound, ?_, hs.answer, hs.returns, ?_, ?_, ?_, hs.told, ?_⟩
  · exact fun i m hm => hs.asked i m ((hperm i).mem_iff.mp hm)
  · exact fun i => ((hperm i).map Msg.about).nodup_iff.mpr (hs.once i)
  · exact fun i j m hm m' hm' => hs.apart i j m ((hperm i).mem_iff.mp hm) m' ((hperm j).mem_iff.mp hm')
  · intro x c hc
    obtain ⟨hx, hfresh, hplaced⟩ := hs.conns x c hc
    refine ⟨hx, hfresh, hplaced.imp_left ?_⟩
    rintro ⟨i, f, hf, hkind, habout, hhandle⟩
    rcases eq_or_ne i me with rfl | hi
    · obtain ⟨f', hf', hmsg, hhandle'⟩ := hframe f x hf hkind hhandle
      refine ⟨i, f', ?_, hmsg ▸ hkind, hmsg ▸ habout, hhandle'⟩
      rwa [Sys.tasks_withTask_self]
    · refine ⟨i, f, ?_, hkind, habout, hhandle⟩
      rwa [Sys.tasks_withTask_ne hi]
  · exact Sys.withTask_rec hcall fun i hi k hk => (hs.waiting i k hk).withTask hasks fun h => absurd h hi
  · refine Sys.withTask_rec (Sys.withTask_rec (fun _ _ _ _ _ => rfl) fun j hj k k' hk hk' heq => ?_) fun i hi =>
      Sys.withTask_rec (fun k k' hk hk' heq => ?_) fun j _ => hs.callers i j
    · exact absurd heq (hid k hk j k' hj hk')
    · exact absurd heq.symm (hid k' hk' i k hi hk)
  · intro i A m B hsplit hkind
    have hold : Cancelled s i m B := by
      revert hsplit
      refine Sys.withTask_rec (fun hsplit => ?_) (fun j _ hsplit => hs.cancels j A m B hsplit hkind) i
      obtain ⟨P, hP⟩ := hinbox
      rw [hsplit, ← append_assoc] at hP
      exact hs.cancels me (P ++ A) m B hP.symm hkind
    exact { hold with asked := fun j m' hm' => hold.asked j m' ((hperm j).mem_iff.mp hm') }
  · intro k hk
    have hsettled : Settled s k → Settled (s.withTask me g) k := fun h =>
      ⟨fun i m hm => h.asked i m ((hperm i).mem_iff.mp hm), h.conns⟩
    have hold : ∀ x c, (s.withTask me g).conns x = some c → c.id = k → Derived s k x c :=
      fun x c hc hid => .inl ⟨c, hc, hid, rfl, rfl⟩
    rcases hs.gone k hk with h | ⟨j, m, A, B, hdoomed⟩
    · exact .inl (hsettled h)
    rcases eq_or_ne j me with rfl | hj
    · rcases hcancel k m A B hdoomed with ⟨A', hinbox⟩ | h
      · refine .inr ⟨j, m, A', B ++ [], hdoomed.step ?_ (by simp) (fun i m' hm' _ => (hperm i).mem_iff.mp hm') hold⟩
        rwa [Sys.tasks_withTask_self, append_nil]
      · exact .inl (hsettled h)
    · refine .inr ⟨j, m, A, B ++ [], hdoomed.step ?_ (by simp) (fun i m' hm' _ => (hperm i).mem_iff.mp hm') hold⟩
      rw [Sys.tasks_withTask_ne hj, append_nil]
      exact hdoomed.inbox

theorem Inv.keepInbox (hinbox : (g (s.tasks me)).inbox = (s.tasks me).inbox) : Inv w (s.withTask me g) :=
  hs.withTask hasks hframe hid hcall (hinbox ▸ suffix_refl _) fun _ _ A _ hd => .inl ⟨A, hinbox.trans hd.inbox⟩

end

theorem Inv.other_call (hs : Inv w s) {k : Call} (hk : (s.tasks me).call = some k) (i : TaskId) (k' : Call) (hi : i ≠ me)
    (hk' : (s.tasks i).call = some k') : k.id ≠ k'.id :=
  fun heq => hi (hs.callers i me k' k hk' hk heq.symm)

end Tasks

section QuietCalls

variable {luck : Luck}

theorem quiet_same (htasks : t.tasks = s.tasks) (hconns : t.conns = s.conns) (hcalls : t.calls = s.calls)
    (hlog : t.log = s.log) : Quiet s t := by
  refine ⟨fun i => ⟨[], ?_, by simp⟩, fun x c hc => ⟨c, hconns ▸ hc, rfl, rfl, rfl⟩, hcalls, [], ?_, by simp⟩
  · rw [htasks, append_nil]
  · rw [hlog, append_nil]

theorem quiet_withMem (f : Memory → Memory) : Quiet s (s.withMem f) := quiet_same rfl rfl rfl rfl

theorem quiet_note (he : ∀ k r, e ≠ .acked k r ∧ e ≠ .returned k r) : Quiet s (s.note e) := by
  refine ⟨fun i => ⟨[], ?_, by simp⟩, fun _ c hc => ⟨c, hc, rfl, rfl, rfl⟩, rfl, [e], rfl, ?_⟩
  · rw [Sys.tasks_note, append_nil]
  · intro e' he'
    rw [mem_singleton.mp he']
    exact he

theorem quiet_noteIf (p : Prop) [Decidable p] (he : ∀ k r, e ≠ .acked k r ∧ e ≠ .returned k r) :
    Quiet s (if p then s.note e else s) := by
  split
  · exact quiet_note he
  · exact .refl s

theorem quiet_withConn (x : Nat) {f : Conn → Conn}
    (hf : ∀ c, (f c).id = c.id ∧ (f c).client = c.client ∧ (f c).connectNonce = c.connectNonce) : Quiet s (s.withConn x f) := by
  refine ⟨fun i => ⟨[], ?_, by simp⟩, fun y c' hc => ?_, rfl, [], (append_nil _).symm, by simp⟩
  · rw [Sys.tasks_withConn, append_nil]
  · obtain ⟨c, hold, ⟨-, rfl⟩ | ⟨-, rfl⟩⟩ := Sys.conns_withConn_some hc
    · exact ⟨c, hold, hf c⟩
    · exact ⟨c', hold, rfl, rfl, rfl⟩

theorem quiet_drop (x : Nat) (htasks : t.tasks = s.tasks) (hconns : t.conns = update s.conns x none)
    (hcalls : t.calls = s.calls) (hlog : t.log = s.log) : Quiet s t := by
  refine ⟨fun i => ⟨[], ?_, by simp⟩, fun y c hc => ?_, hcalls, [], ?_, by simp⟩
  · rw [htasks, append_nil]
  · rw [hconns, update_apply, ite_none_left_eq_some] at hc
    exact ⟨c, hc.2, rfl, rfl, rfl⟩
  · rw [hlog, append_nil]

theorem quiet_connFree (x : Nat) : Quiet s (connFree s x) :=
  quiet_drop x (tasks_connFree ..) (conns_connFree ..) (calls_connFree ..) (log_connFree ..)

theorem quiet_post (hm : m.kind ≠ .connect ∧ m.kind ≠ .connectCancel) (target : TaskId) :
    Quiet s (s.post target m) := by
  refine ⟨fun i => ?_, fun _ c hc => ⟨c, hc, rfl, rfl, rfl⟩, rfl, [], (append_nil _).symm, by simp⟩
  exact Sys.withTask_rec ⟨[m], rfl, by simpa using hm⟩ (fun _ _ => ⟨[], by simp⟩) i

theorem quiet_inboxEnqueue (hm : m.kind ≠ .connect ∧ m.kind ≠ .connectCancel) (target : TaskId) (ok : Bool) :
    Quiet s (inboxEnqueue s target m ok) := by
  cases ok with
  | true => exact quiet_post hm target
  | false => exact quiet_withMem _

theorem quiet_buildCopyMsg (target : TaskId) (m : Msg) (data : Bool) (len : Nat) :
    Quiet s (buildCopyMsg w luck s target m data len).1 := by
  obtain ⟨⟨f, heq⟩, -⟩ := buildCopyMsg_spec w luck s target m data len
  rw [heq]
  exact quiet_withMem f

theorem quiet_copy (hm : m.kind ≠ .connect ∧ m.kind ≠ .connectCancel) (target : TaskId) (data : Bool) (len : Nat) {m' : Msg}
    (hm' : (buildCopyMsg w luck s target m data len).2 = some m') :
    Quiet s (inboxEnqueue (buildCopyMsg w luck s target m data len).1 target m' luck.enq) := by
  obtain ⟨p, heq⟩ := (buildCopyMsg_spec w luck s target m data len).2 m' hm'
  have hkind : m'.kind ≠ .connect ∧ m'.kind ≠ .connectCancel := by rwa [heq]
  exact (quiet_buildCopyMsg target m data len).trans (quiet_inboxEnqueue hkind target luck.enq)

theorem quiet_itsDisconnect (x : Nat) : Quiet s (itsDisconnect w luck s me x) := by
  rcases itsDisconnect_cases w luck s me x with heq | ⟨c, side, sent, -, -, -, -, htasks, hconns, hlog, hcalls⟩
  · rw [heq]
    exact .refl s
  refine ⟨fun i => ?_, fun y c' hc => ?_, hcalls, [.closed side c.id], hlog, fun e he k r => ?_⟩
  · rw [htasks]
    split
    · have hkind : (closeMsg c x side).kind ≠ .connect ∧ (closeMsg c x side).kind ≠ .connectCancel := by
        cases side <;> simp [closeMsg, blankMsg]
      exact (quiet_post hkind (endpoint c side.other)).tasks i
    · exact (Quiet.refl s).tasks i
  · rw [hconns] at hc
    split at hc
    · exact ⟨c', hc, rfl, rfl, rfl⟩
    · rw [update_apply, ite_none_left_eq_some] at hc
      exact ⟨c', hc.2, rfl, rfl, rfl⟩
  · rw [mem_singleton.mp he]
    exact ⟨by simp, by simp⟩

theorem quiet_serverCall (port about : Nat) (ref : Int) : Quiet s (serverCall w s me port about ref) :=
  quiet_noteIf _ fun _ _ => ⟨by simp, by simp⟩

theorem quiet_clientCall (cb : Option Nat) (about : Nat) (ref : Int) : Quiet s (clientCall s cb about ref) :=
  quiet_noteIf _ fun _ _ => ⟨by simp, by simp⟩

theorem quiet_listen (port about : Nat) (sRef : Int) : Quiet s (listen w s me port about sRef) :=
  quiet_noteIf _ fun _ _ => ⟨by simp, by simp⟩

theorem quiet_itsServerForward (x : Nat) (target : TaskId) (port : Nat) (data : Bool) (len : Nat) :
    Quiet s (itsServerForward w luck s me x target port data len) := by
  unfold itsServerForward
  split
  · exact .refl s
  next c _ =>
    split
    · exact .refl s
    next sp _ =>
    split
    · exact .refl s
    · have hmoved := (quiet_withConn (s := s) x (f := fun c => { c with server := target, port := port, kind := sp.kind })
        fun _ => ⟨rfl, rfl, rfl⟩).trans (quiet_note (e := .moved c.id) fun _ _ => ⟨by simp, by simp⟩)
      dsimp only
      split
      · exact hmoved.trans (quiet_buildCopyMsg ..)
      next hm' => exact hmoved.trans (quiet_copy (by simp [blankMsg]) target data len hm')

theorem quiet_aside (h : Aside s t) : Quiet s t := by
  rcases h.tasks with heq | ⟨target, m, hm, heq⟩
  · exact quiet_same heq h.conns h.calls h.log
  · exact (quiet_post (by simp [hm]) target).trans (quiet_same heq h.conns h.calls h.log)

theorem quiet_beginCancel (m : Msg) : Quiet s (beginCancel w s me m) := by
  unfold beginCancel
  split
  · exact .refl s
  · exact ((quiet_connFree _).trans (quiet_note fun _ _ => ⟨by simp, by simp⟩)).trans (quiet_serverCall ..)

theorem quiet_beginMsg (hconnect : m.kind ≠ .connect) (hcancel : m.kind ≠ .connectCancel) :
    Quiet s (beginMsg w luck s me m).1 := by
  unfold beginMsg
  split
  next h => exact absurd h hconnect
  next h => exact absurd h hcancel
  · unfold beginDiscFromClient
    split
    · exact quiet_serverCall ..
    · exact ((quiet_connFree _).trans (quiet_note fun _ _ => ⟨by simp, by simp⟩)).trans (quiet_serverCall ..)
  · unfold beginDiscFromServer
    split
    · exact quiet_clientCall ..
    · exact ((quiet_connFree _).trans (quiet_note fun _ _ => ⟨by simp, by simp⟩)).trans (quiet_clientCall ..)
  · unfold beginForward
    split
    · exact .refl s
    split
    · exact quiet_itsDisconnect _
    · exact quiet_withConn _ fun _ => ⟨rfl, rfl, rfl⟩
  · exact .refl s

theorem quiet_finishMsg (hkind : f.msg.kind ≠ .connect) (sRef : Int) : Quiet s (finishMsg w luck s me f sRef) := by
  unfold finishMsg
  split
  next h => exact absurd h hkind
  · split
    · split
      · exact quiet_itsDisconnect _
      split
      · exact quiet_listen ..
      · exact .refl s
    · exact .refl s
  · exact .refl s

end QuietCalls

end Spangap.Handshake
