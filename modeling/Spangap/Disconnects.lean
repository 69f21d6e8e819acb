import Spangap.HandshakeRuns

namespace Spangap.Disconnects

open List Option Its Handshake

variable {m : Msg} {k : Nat} {i me : TaskId} {g : Task → Task} {side : Side} {w : World} {e : Event}

def tells : Side → MsgKind
  | .client => .discFromServer
  | .server => .discFromClient

def isNotice (m : Msg) : Bool := m.kind = .discFromServer ∨ m.kind = .discFromClient

def notices (t : Task) : List Msg := t.inbox.filter isNotice

def listens (w : World) (i : TaskId) (port : Nat) (cb : Option Nat) : Side → Bool
  | .client => cb.isSome
  | .server => (portFind w i port).any Port.onDisconnect

def sideRef (c : Conn) : Side → Int
  | .client => c.clientRef
  | .server => c.serverRef

def isCalled (side : Side) (k : Nat) : Event → Bool
  | .called side' k' _ => side' = side ∧ k' = k
  | _ => false

/-- A side is called with this reference if it has registered, and under the
reference that it has registered. -/
structure Agrees (log : List Event) (side : Side) (k : Nat) (ref : Int) (there : Bool) : Prop where
  same : ∀ r, .registered side k r ∈ log → ref = r
  iff : (∃ r, .registered side k r ∈ log) ↔ 0 ≤ ref ∧ there = true

/-- An entry, with what its sides have registered. Of a connection that was forwarded
nothing is known on the side of the server. -/
structure Entry (w : World) (log : List Event) (c : Conn) : Prop where
  client : c.client < w.count
  server : c.server < w.count
  toClient : Agrees log .client c.id c.clientRef c.cliDisconnectCb.isSome
  toServer : .moved c.id ∉ log → Agrees log .server c.id c.serverRef ((portFind w c.server c.port).any Port.onDisconnect)
  blank : (∀ h, .returned c.id (some h) ∉ log) → c.clientRef < 0 ∧ c.cliDisconnectCb = none

/-- An entry is the one that a message is about, and says the same as the message. -/
structure Fits (w : World) (i : TaskId) (m : Msg) (side : Side) (c : Conn) : Prop where
  id : c.id = m.about
  mine : endpoint c side = i
  other : endpoint c side.other = m.sender
  ref : sideRef c side = m.ref
  there : listens w i c.port c.cliDisconnectCb side = listens w i m.port m.cb side

/-- A message that tells a side, and that no other connection can get in the way of. -/
structure Notice (w : World) (s : Sys) (i : TaskId) (m : Msg) (side : Side) : Prop where
  task : i < w.count
  closed : .closed side.other m.about ∈ s.log
  uncalled : ∀ r, .called side m.about r ∉ s.log
  agrees : Agrees s.log side m.about m.ref (listens w i m.port m.cb side)
  entry : ∀ h c, m.handle = some h → s.conns h = some c → Fits w i m side c

def Opened (s : Sys) (i : TaskId) (m : Msg) (h : Nat) : Prop :=
  ∃ c, s.conns h = some c ∧ c.id = m.about ∧ (.moved c.id ∉ s.log → c.server = i ∧ c.port = m.port)

/-- The events in their order: nobody registers for, closes or calls about a connection
that is not there yet, and a call is made once, for a close or an abandoned connect. -/
structure Chronicle (log : List Event) : Prop where
  toClient : ∀ k r, .registered .client k r ∈ log → ∃ h, .returned k (some h) ∈ log
  toServer : ∀ k r, .registered .server k r ∈ log → (∃ h, .acked k (some h) ∈ log) ∨ .moved k ∈ log
  closed : ∀ side k, .closed side k ∈ log → ∃ h, .returned k (some h) ∈ log
  unmoved : ∀ k, .closed .client k ∈ log → .moved k ∉ log
  called : ∀ side k r, .called side k r ∈ log →
    .registered side k r ∈ log ∧ (.closed side.other k ∈ log ∨ side = .server ∧ .reaped k k ∈ log)
  once : ∀ side k, log.countP (isCalled side k) ≤ 1
  freed : ∀ k k', .freed k k' ∈ log → k = k'
  reaped : ∀ k k', .reaped k k' ∈ log → k = k' ∧ .returned k none ∈ log

def Proper (log : List Event) : Event → Prop
  | .registered .client k _ => ∃ h, .returned k (some h) ∈ log
  | .registered .server k _ => (∃ h, .acked k (some h) ∈ log) ∨ .moved k ∈ log
  | .closed side k => (∃ h, .returned k (some h) ∈ log) ∧ (side = .client → .moved k ∉ log)
  | .moved k => .closed .client k ∉ log
  | .called side k r => .registered side k r ∈ log ∧ (.closed side.other k ∈ log ∨ side = .server ∧ .reaped k k ∈ log) ∧
      ∀ r', .called side k r' ∉ log
  | .freed k k' => k = k'
  | .reaped k k' => k = k' ∧ .returned k none ∈ log
  | _ => True

/-- The messages and entries fit the log. -/
structure Book (w : World) (s : Sys) : Prop where
  chronicle : Chronicle s.log
  keys : ∀ i, ((notices (s.tasks i)).map fun m => (m.kind, m.about)).Nodup
  apart : ∀ i j, ∀ m ∈ notices (s.tasks i), ∀ m' ∈ notices (s.tasks j), m.kind = m'.kind → m.about = m'.about → i = j
  notice : ∀ i side, ∀ m ∈ (s.tasks i).inbox, m.kind = tells side → Notice w s i m side
  entry : ∀ h c, s.conns h = some c → Entry w s.log c
  opened : ∀ i f h, (s.tasks i).frame = some f → f.msg.kind = .connect → f.handle = some h →
    Opened s i f.msg h
  answered : ∀ i k h, (s.tasks i).call = some k → .acked k.id (some h) ∈ s.log → ∃ c, s.conns h = some c ∧ c.id = k.id
  senders : ∀ i, ∀ m ∈ asks (s.tasks i), m.sender < w.count
  forwards : ∀ i, ∀ m ∈ taskMsgs (s.tasks i), m.kind = .forward → .moved m.about ∈ s.log
  told : ∀ side k, .closed side.other k ∈ s.log →
    (∃ i, ∃ m ∈ (s.tasks i).inbox, m.kind = tells side ∧ m.about = k) ∨
      ∀ r, .registered side k r ∈ s.log → .called side k r ∈ s.log
  reaped : ∀ k k', .reaped k k' ∈ s.log → Settled s k

/-- The parts of an entry that closes look at. -/
structure Like (c c' : Conn) : Prop where
  id : c'.id = c.id
  client : c'.client = c.client
  server : c'.server = c.server
  port : c'.port = c.port
  clientRef : c'.clientRef = c.clientRef
  serverRef : c'.serverRef = c.serverRef
  callback : c'.cliDisconnectCb = c.cliDisconnectCb

def isShake : Event → Bool
  | .acked _ _ => true
  | .returned _ _ => true
  | _ => false

def isCalm : Event → Bool
  | .closed _ _ => false
  | .called _ _ _ => false
  | .reaped _ _ => false
  | _ => true

section Logs

variable {log es : List Event}

theorem calm_of_shake (he : isShake e = true) : isCalm e = true := by
  cases e <;> first | rfl | simp [isShake] at he

theorem proper_of_shake (he : isShake e = true) : Proper log e := by
  cases e <;> trivial

theorem mem_append_calm (hes : ∀ e ∈ es, isCalm e = true) (he : isCalm e = false) : e ∈ log ++ es ↔ e ∈ log := by
  rw [mem_append, or_iff_left]
  intro hmem
  exact absurd (hes e hmem) (by simp [he])

theorem chronicle_nil : Chronicle [] := by
  constructor <;> simp

theorem Chronicle.snoc (h : Chronicle log) (he : Proper log e) : Chronicle (log ++ [e]) := by
  have hgrow : ∀ {e'}, e' ∈ log → e' ∈ log ++ [e] := fun he' => mem_append_left _ he'
  have hmem : ∀ {e'}, e' ∈ log ++ [e] → e' ∈ log ∨ e = e' := by
    intro e' he'
    rcases mem_append.mp he' with he' | he'
    · exact .inl he'
    · exact .inr (mem_singleton.mp he').symm
  refine ⟨?_, ?_, ?_, ?_, ?_, ?_, ?_, ?_⟩
  · intro k r hr
    rcases hmem hr with hr | rfl
    · exact (h.toClient k r hr).imp fun _ => hgrow
    · exact he.imp fun _ => hgrow
  · intro k r hr
    rcases hmem hr with hr | rfl
    · exact (h.toServer k r hr).imp (.imp fun _ => hgrow) hgrow
    · exact he.imp (.imp fun _ => hgrow) hgrow
  · intro side k hk
    rcases hmem hk with hk | rfl
    · exact (h.closed side k hk).imp fun _ => hgrow
    · exact he.1.imp fun _ => hgrow
  · intro k hk hmoved
    rcases hmem hk with hk' | rfl
    · rcases hmem hmoved with hmoved | rfl
      · exact h.unmoved k hk' hmoved
      · exact he hk'
    · exact he.2 rfl (hmoved |> hmem |>.resolve_right (by simp))
  · intro side k r hr
    rcases hmem hr with hr | rfl
    · exact (h.called side k r hr).imp hgrow (.imp hgrow (.imp_right hgrow))
    · exact ⟨hgrow he.1, he.2.1.imp hgrow (.imp_right hgrow)⟩
  · intro side k
    rw [countP_append, countP_singleton]
    split
    next hcalled =>
      -- The first call of this side.
      have hnone : log.countP (isCalled side k) = 0 := by
        rw [countP_eq_zero]
        intro e' he' hcalled'
        cases e <;> simp only [isCalled, Bool.false_eq_true, decide_eq_true_eq] at hcalled
        cases e' <;> simp only [isCalled, Bool.false_eq_true, decide_eq_true_eq] at hcalled'
        obtain ⟨rfl, rfl⟩ := hcalled
        obtain ⟨rfl, rfl⟩ := hcalled'
        exact he.2.2 _ he'
      omega
    · exact h.once side k
  · intro k k' hk
    rcases hmem hk with hk | rfl
    · exact h.freed k k' hk
    · exact he
  · intro k k' hk
    rcases hmem hk with hk | rfl
    · exact (h.reaped k k' hk).imp_right hgrow
    · exact he.imp_right hgrow

theorem Chronicle.perm {log' : List Event} (h : Chronicle log) (hperm : log.Perm log') : Chronicle log' := by
  have hmem : ∀ {e}, e ∈ log' ↔ e ∈ log := hperm.mem_iff.symm
  refine ⟨?_, ?_, ?_, ?_, ?_, fun side k => ?_, ?_, ?_⟩
  · simpa only [hmem] using h.toClient
  · simpa only [hmem] using h.toServer
  · simpa only [hmem] using h.closed
  · simpa only [hmem] using h.unmoved
  · simpa only [hmem] using h.called
  · rw [← hperm.countP_eq]
    exact h.once side k
  · simpa only [hmem] using h.freed
  · simpa only [hmem] using h.reaped

theorem Chronicle.append (h : Chronicle log) (hes : ∀ e ∈ es, ∀ log', log <+: log' → Proper log' e) : Chronicle (log ++ es) := by
  induction es generalizing log with
  | nil => rwa [append_nil]
  | cons e es ih =>
    rw [← singleton_append, ← append_assoc]
    refine ih (h.snoc (hes e mem_cons_self log (prefix_refl _))) fun e' he' log' hpre => ?_
    exact hes e' (mem_cons_of_mem _ he') log' ((prefix_append ..).trans hpre)

end Logs

section Frames

variable {log log' es : List Event} {c c' : Conn}

theorem Like.refl (c : Conn) : Like c c := ⟨rfl, rfl, rfl, rfl, rfl, rfl, rfl⟩

theorem Agrees.congr {ref : Int} {there : Bool} (h : Agrees log side k ref there)
    (hmem : ∀ r, .registered side k r ∈ log' ↔ .registered side k r ∈ log) : Agrees log' side k ref there := by
  refine ⟨fun r hr => h.same r ((hmem r).mp hr), ?_⟩
  rw [← h.iff]
  exact exists_congr hmem

theorem Entry.like (h : Entry w log c) (hlike : Like c c') : Entry w log c' := by
  obtain ⟨hid, hclient, hserver, hport, hcref, hsref, hcb⟩ := hlike
  exact ⟨hclient ▸ h.client, hserver ▸ h.server, hid ▸ hcref ▸ hcb ▸ h.toClient,
    hid ▸ hsref ▸ hserver ▸ hport ▸ h.toServer, hid ▸ hcref ▸ hcb ▸ h.blank⟩

theorem Entry.grow (h : Entry w log c) (hreg : ∀ side r, .registered side c.id r ∉ es) : Entry w (log ++ es) c := by
  have hmem : ∀ {side r}, .registered side c.id r ∈ log ++ es ↔ .registered side c.id r ∈ log := by
    intro side r
    rw [mem_append, or_iff_left (hreg side r)]
  refine ⟨h.client, h.server, h.toClient.congr fun _ => hmem, fun hmoved => ?_, fun hnot => ?_⟩
  · exact (h.toServer fun hin => hmoved (mem_append_left _ hin)).congr fun _ => hmem
  · exact h.blank fun x hx => hnot x (mem_append_left _ hx)

theorem Fits.like (h : Fits w i m side c) (hlike : Like c c') : Fits w i m side c' := by
  obtain ⟨hid, hclient, hserver, hport, hcref, hsref, hcb⟩ := hlike
  have hend : ∀ side, endpoint c' side = endpoint c side := by
    rintro (_ | _)
    · exact hclient
    · exact hserver
  refine ⟨hid.trans h.id, (hend side).trans h.mine, (hend side.other).trans h.other, ?_, ?_⟩
  · rw [← h.ref]
    cases side
    · exact hcref
    · exact hsref
  · rw [hport, hcb]
    exact h.there

end Frames

section Keep

variable {s t : Sys}

theorem mem_notices {t : Task} : m ∈ notices t ↔ m ∈ t.inbox ∧ ∃ side, m.kind = tells side := by
  rw [notices, mem_filter, isNotice, decide_eq_true_iff]
  refine and_congr_right fun _ => ⟨?_, ?_⟩
  · rintro (h | h)
    · exact ⟨.client, h⟩
    · exact ⟨.server, h⟩
  · rintro ⟨_ | _, h⟩
    · exact .inl h
    · exact .inr h

section

variable (hb : Book w s) (hnotices : ∀ i, notices (t.tasks i) = notices (s.tasks i))
  (hopened : ∀ i f h, (t.tasks i).frame = some f → f.msg.kind = .connect → f.handle = some h → Opened t i f.msg h)
  (hanswered : ∀ i k h, (t.tasks i).call = some k → .acked k.id (some h) ∈ t.log → ∃ c, t.conns h = some c ∧ c.id = k.id)
  (hasks : ∀ i, ∀ m ∈ asks (t.tasks i), (∃ j, m ∈ asks (s.tasks j)) ∨ m.sender < w.count ∧ ∀ r, .returned m.about r ∉ s.log)
  {E : List Event} (hlog : t.log = s.log ++ E)
include hb hnotices hopened hanswered hasks hlog

/-- A step without a close or a call. No side registers late, and what comes into the
place of an entry takes nothing from a message. -/
theorem Book.calm (hentry : ∀ x c, t.conns x = some c → Entry w t.log c)
    (hfits : ∀ i m side x c, m ∈ (s.tasks i).inbox → m.kind = tells side → m.handle = some x → t.conns x = some c → Fits w i m side c)
    (hids : ∀ x c, t.conns x = some c → (∃ y c₀, s.conns y = some c₀ ∧ c₀.id = c.id) ∨ ∃ i, ∃ m ∈ asks (s.tasks i), m.about = c.id)
    (hforwards : ∀ i, ∀ m ∈ taskMsgs (t.tasks i), m.kind = .forward → .moved m.about ∈ t.log)
    (hes : ∀ e ∈ E, isCalm e = true) (hchronicle : Chronicle t.log)
    (hlate : ∀ side k r, .closed side.other k ∈ s.log → .registered side k r ∉ E) : Book w t := by
  have hold : ∀ {e}, isCalm e = false → (e ∈ t.log ↔ e ∈ s.log) := fun he => by rw [hlog, mem_append_calm hes he]
  have hgrow : ∀ {e}, e ∈ s.log → e ∈ t.log := fun he => hlog ▸ mem_append_left _ he
  have hreg : ∀ {side k r}, .closed side.other k ∈ s.log → (.registered side k r ∈ t.log ↔ .registered side k r ∈ s.log) := by
    intro side k r hk
    rw [hlog, mem_append, or_iff_left (hlate side k r hk)]
  have hinbox : ∀ {i m side}, m.kind = tells side → (m ∈ (t.tasks i).inbox ↔ m ∈ (s.tasks i).inbox) := by
    intro i m side hkind
    have ht : m ∈ notices (t.tasks i) ↔ m ∈ (t.tasks i).inbox := mem_notices.trans (and_iff_left ⟨side, hkind⟩)
    have hs : m ∈ notices (s.tasks i) ↔ m ∈ (s.tasks i).inbox := mem_notices.trans (and_iff_left ⟨side, hkind⟩)
    rw [← ht, ← hs, hnotices]
  refine ⟨hchronicle, ?_, ?_, ?_, hentry, hopened, hanswered, ?_, hforwards, ?_, ?_⟩
  · intro i
    rw [hnotices]
    exact hb.keys i
  · intro i j
    rw [hnotices, hnotices]
    exact hb.apart i j
  · intro i side m hm hkind
    have hm := (hinbox hkind).mp hm
    obtain ⟨htask, hclosed, huncalled, hagrees, -⟩ := hb.notice i side m hm hkind
    refine ⟨htask, hgrow hclosed, fun r hr => huncalled r ((hold rfl).mp hr), ?_, fun x c => hfits i m side x c hm hkind⟩
    exact hagrees.congr fun r => hreg hclosed
  · intro i m hm
    rcases hasks i m hm with ⟨j, hm⟩ | ⟨hsender, -⟩
    · exact hb.senders j m hm
    · exact hsender
  · intro side k hk
    have hk := (hold rfl).mp hk
    rcases hb.told side k hk with ⟨i, m, hm, hkind, habout⟩ | hcalled
    · exact .inl ⟨i, m, (hinbox hkind).mpr hm, hkind, habout⟩
    · exact .inr fun r hr => hgrow (hcalled r ((hreg hk).mp hr))
  · intro k k' h
    have h := (hold rfl).mp h
    have hsettled := hb.reaped k k' h
    obtain ⟨-, hnone⟩ := hb.chronicle.reaped k k' h
    refine ⟨fun i m hm habout => ?_, fun x c hc hid => ?_⟩
    · rcases hasks i m hm with ⟨j, hm⟩ | ⟨-, hnot⟩
      · exact hsettled.asked j m hm habout
      · exact hnot none (habout ▸ hnone)
    · rcases hids x c hc with ⟨y, c₀, hc₀, heq⟩ | ⟨i, m, hm, heq⟩
      · exact hsettled.conns y c₀ hc₀ (heq.trans hid)
      · exact hsettled.asked i m hm (heq.trans hid)

/-- A step without a part in closes: notices stay, entries stay or go, and the
events are those of handshakes. -/
theorem Book.keep (hconns : ∀ x c, t.conns x = some c → ∃ c₀, s.conns x = some c₀ ∧ Like c₀ c)
    (hforwards : ∀ i, ∀ m ∈ taskMsgs (t.tasks i), m.kind = .forward → .moved m.about ∈ s.log)
    (hes : ∀ e ∈ E, isShake e = true) : Book w t := by
  have hshakes : ∀ side k r, .registered side k r ∉ E := fun side k r h => absurd (hes _ h) (by simp [isShake])
  refine hb.calm hnotices hopened hanswered hasks hlog ?_ ?_ ?_ ?_ (fun e he => calm_of_shake (hes e he)) ?_
    fun side k r _ => hshakes side k r
  · intro x c hc
    obtain ⟨c₀, hc₀, hlike⟩ := hconns x c hc
    rw [hlog]
    exact ((hb.entry x c₀ hc₀).like hlike).grow fun side r => hshakes side c.id r
  · intro i m side x c hm hkind hx hc
    obtain ⟨c₀, hc₀, hlike⟩ := hconns x c hc
    exact ((hb.notice i side m hm hkind).entry x c₀ hx hc₀).like hlike
  · intro x c hc
    obtain ⟨c₀, hc₀, hlike⟩ := hconns x c hc
    exact .inl ⟨x, c₀, hc₀, hlike.id.symm⟩
  · intro i m hm hkind
    rw [hlog]
    exact mem_append_left _ (hforwards i m hm hkind)
  · rw [hlog]
    exact hb.chronicle.append fun e he _ _ => proper_of_shake (hes e he)

end

theorem Opened.mono {x : Nat} (h : Opened s i m x)
    (hconns : ∀ c, s.conns x = some c → ∃ c', t.conns x = some c' ∧ c'.id = c.id ∧ (.moved c.id ∉ t.log → c'.server = c.server ∧ c'.port = c.port))
    (hlog : ∀ e ∈ s.log, e ∈ t.log) : Opened t i m x := by
  obtain ⟨c, hc, hid, hplace⟩ := h
  obtain ⟨c', hc', hid', hplace'⟩ := hconns c hc
  refine ⟨c', hc', hid'.trans hid, fun hmoved => ?_⟩
  rw [hid'] at hmoved
  obtain ⟨hserver, hport⟩ := hplace' hmoved
  obtain ⟨hserver₀, hport₀⟩ := hplace fun hin => hmoved (hlog _ hin)
  exact ⟨hserver.trans hserver₀, hport.trans hport₀⟩

theorem Book.opened_drop (hb : Book w s) (hto : ∀ y c, s.conns y = some c → t.conns y = some c ∨ c.id = k)
    (hunasked : ∀ i, ∀ m ∈ asks (t.tasks i), m.about ≠ k)
    (hframe : ∀ i f, (t.tasks i).frame = some f → f.msg.kind = .connect → (s.tasks i).frame = some f)
    (hlog : ∀ e ∈ s.log, e ∈ t.log) (i : TaskId) (f : Frame) (h : Nat) (hf : (t.tasks i).frame = some f)
    (hkind : f.msg.kind = .connect) (hh : f.handle = some h) : Opened t i f.msg h := by
  have hopened := hb.opened i f h (hframe i f hf hkind) hkind hh
  obtain ⟨c, hc, hid, -⟩ := id hopened
  refine hopened.mono (fun c' hc' => ?_) hlog
  rcases hto h c' hc' with ht | hk
  · exact ⟨c', ht, rfl, fun _ => ⟨rfl, rfl⟩⟩
  · cases hc'.symm.trans hc
    exact absurd (hid.symm.trans hk) (hunasked i f.msg (mem_asks_frame hf hkind))

theorem Book.answered_drop (hb : Book w s) (hto : ∀ y c, s.conns y = some c → t.conns y = some c ∨ c.id = k)
    (huncalled : ∀ i call, (s.tasks i).call = some call → call.id ≠ k) (hcall : ∀ i, (t.tasks i).call = (s.tasks i).call)
    (hlog : ∀ j r, .acked j r ∈ t.log → .acked j r ∈ s.log) (i : TaskId) (call : Call) (h : Nat) (hi : (t.tasks i).call = some call)
    (hacked : .acked call.id (some h) ∈ t.log) : ∃ c, t.conns h = some c ∧ c.id = call.id := by
  rw [hcall] at hi
  obtain ⟨c, hc, hid⟩ := hb.answered i call h hi (hlog _ _ hacked)
  rcases hto h c hc with ht | hk
  · exact ⟨c, ht, hid⟩
  · exact absurd (hid.symm.trans hk) (huncalled i call hi)

/-- Nobody gets, takes or waits for anything new. -/
def Same (s t : Sys) : Prop :=
  ∀ i, (t.tasks i).inbox = (s.tasks i).inbox ∧ (t.tasks i).frame = (s.tasks i).frame ∧ (t.tasks i).call = (s.tasks i).call

theorem Same.msgs (h : Same s t) (i : TaskId) : taskMsgs (t.tasks i) = taskMsgs (s.tasks i) := by
  rw [taskMsgs, taskMsgs, (h i).1, (h i).2.1]

theorem Book.reshape (hb : Book w s) (x : Nat) (f : Conn → Conn) (hid : ∀ c, (f c).id = c.id) (hsame : Same s t)
    (hconns : t.conns = (s.withConn x f).conns) {es : List Event} (hlog : t.log = s.log ++ es)
    (hes : ∀ e ∈ es, isCalm e = true) (hchronicle : Chronicle t.log)
    (hlate : ∀ side k r, .closed side.other k ∈ s.log → .registered side k r ∉ es)
    (hacked : ∀ k h, .acked k (some h) ∈ es → ∃ c, s.conns h = some c ∧ c.id = k)
    (hentry : ∀ c, s.conns x = some c → Entry w t.log (f c))
    (hothers : ∀ y c, y ≠ x → s.conns y = some c → Entry w t.log c)
    (hplace : ∀ c, s.conns x = some c → .moved c.id ∉ t.log → (f c).server = c.server ∧ (f c).port = c.port)
    (hfits : ∀ i m side c, m ∈ (s.tasks i).inbox → m.kind = tells side → s.conns x = some c → Fits w i m side c →
      Fits w i m side (f c)) : Book w t := by
  have hgrow : ∀ e ∈ s.log, e ∈ t.log := fun e he => hlog ▸ mem_append_left _ he
  have hto : ∀ y c, s.conns y = some c → ∃ c', t.conns y = some c' ∧ c'.id = c.id ∧
      (.moved c.id ∉ t.log → c'.server = c.server ∧ c'.port = c.port) := by
    intro y c hc
    rw [hconns]
    rcases eq_or_ne y x with rfl | hy
    · refine ⟨f c, ?_, hid c, hplace c hc⟩
      rw [Sys.conns_withConn_self, hc, map_some]
    · rw [Sys.conns_withConn_ne hy]
      exact ⟨c, hc, rfl, fun _ => ⟨rfl, rfl⟩⟩
  have hfrom : ∀ y c, t.conns y = some c → ∃ c₀, s.conns y = some c₀ ∧ (y = x ∧ c = f c₀ ∨ y ≠ x ∧ c = c₀) :=
    fun y c hc => Sys.conns_withConn_some (hconns ▸ hc)
  refine hb.calm ?_ ?_ ?_ ?_ hlog ?_ ?_ ?_ ?_ hes hchronicle hlate
  · intro i
    rw [notices, notices, (hsame i).1]
  · intro i g h hg hkind hh
    rw [(hsame i).2.1] at hg
    exact (hb.opened i g h hg hkind hh).mono (hto h) hgrow
  · intro i k h hk hin
    have hthere : ∃ c, s.conns h = some c ∧ c.id = k.id := by
      rw [(hsame i).2.2] at hk
      rw [hlog] at hin
      rcases mem_append.mp hin with hin | hin
      · exact hb.answered i k h hk hin
      · exact hacked k.id h hin
    obtain ⟨c, hc, hid⟩ := hthere
    obtain ⟨c', hc', hid', -⟩ := hto h c hc
    exact ⟨c', hc', hid'.trans hid⟩
  · intro i m hm
    refine .inl ⟨i, ?_⟩
    rwa [asks, hsame.msgs] at hm
  · intro y c hc
    obtain ⟨c₀, hc₀, ⟨rfl, rfl⟩ | ⟨hy, rfl⟩⟩ := hfrom y c hc
    · exact hentry c₀ hc₀
    · exact hothers y c hy hc₀
  · intro i m side y c hm hkind hy hc
    obtain ⟨c₀, hc₀, ⟨rfl, rfl⟩ | ⟨-, rfl⟩⟩ := hfrom y c hc
    · exact hfits i m side c₀ hm hkind hc₀ ((hb.notice i side m hm hkind).entry y c₀ hy hc₀)
    · exact (hb.notice i side m hm hkind).entry y c hy hc₀
  · intro y c hc
    obtain ⟨c₀, hc₀, ⟨-, rfl⟩ | ⟨-, rfl⟩⟩ := hfrom y c hc
    · exact .inl ⟨y, c₀, hc₀, (hid c₀).symm⟩
    · exact .inl ⟨y, c, hc₀, rfl⟩
  · intro i m hm hkind
    rw [hsame.msgs] at hm
    exact hgrow _ (hb.forwards i m hm hkind)

theorem Book.congr (hb : Book w s) (htasks : t.tasks = s.tasks) (hconns : t.conns = s.conns) (hlog : t.log = s.log) : Book w t := by
  refine hb.keep (E := []) (fun i => by rw [htasks]) ?_ ?_ (fun i m hm => .inl ⟨i, htasks ▸ hm⟩) (by rw [hlog, append_nil])
    (fun x c hc => ⟨c, hconns ▸ hc, .refl c⟩) (fun i m hm => hb.forwards i m (htasks ▸ hm)) (by simp)
  · unfold Opened
    rw [htasks, hconns, hlog]
    exact hb.opened
  · rw [htasks, hconns, hlog]
    exact hb.answered

theorem notices_withTask (hg : notices (g (s.tasks me)) = notices (s.tasks me)) (i : TaskId) :
    notices ((s.withTask me g).tasks i) = notices (s.tasks i) := Sys.withTask_rec hg (fun _ _ => rfl) i

theorem msgs_withTask (hg : ∀ m ∈ taskMsgs (g (s.tasks me)), m ∈ taskMsgs (s.tasks me)) :
    ∀ i, ∀ m ∈ taskMsgs ((s.withTask me g).tasks i), m ∈ taskMsgs (s.tasks i) := Sys.withTask_rec hg fun _ _ _ => id

theorem Book.withTask (hb : Book w s) (me : TaskId) (hnotices : notices (g (s.tasks me)) = notices (s.tasks me))
    (hmsgs : ∀ m ∈ taskMsgs (g (s.tasks me)), m ∈ taskMsgs (s.tasks me))
    (hframe : ∀ f h, (g (s.tasks me)).frame = some f → f.msg.kind = .connect → f.handle = some h → Opened s me f.msg h)
    (hcall : ∀ k h, (g (s.tasks me)).call = some k → .acked k.id (some h) ∈ s.log → ∃ c, s.conns h = some c ∧ c.id = k.id) :
    Book w (s.withTask me g) := by
  refine hb.keep (E := []) (notices_withTask hnotices) ?_ ?_ ?_ (append_nil _).symm (fun x c hc => ⟨c, hc, .refl c⟩) ?_ (by simp)
  · exact Sys.withTask_rec hframe fun i _ => hb.opened i
  · exact Sys.withTask_rec hcall fun i _ => hb.answered i
  · intro i m hm
    obtain ⟨hin, hkind⟩ := mem_asks.mp hm
    exact .inl ⟨i, mem_asks.mpr ⟨msgs_withTask hmsgs i m hin, hkind⟩⟩
  · exact fun i m hm => hb.forwards i m (msgs_withTask hmsgs i m hm)

theorem Book.post (hb : Book w s) (hnotice : isNotice m = false) (hforward : m.kind = .forward → .moved m.about ∈ s.log)
    (hconnect : m.kind = .connect → m.sender < w.count ∧ ∀ r, .returned m.about r ∉ s.log) (target : TaskId) :
    Book w (s.post target m) := by
  have hmem : ∀ {i m'}, m' ∈ taskMsgs ((s.post target m).tasks i) →
      m' ∈ taskMsgs (s.tasks i) ∨ m' = m := by
    intro i m' hm'
    rw [HandshakeCalls.task_post, taskMsgs, append_assoc] at hm'
    rcases mem_append.mp hm' with h | h
    · exact .inl (mem_append_left _ h)
    rcases mem_append.mp h with h | h
    · exact .inr (HandshakeCalls.mem_post h).2
    · exact .inl (mem_append_right _ h)
  refine hb.keep (E := []) (notices_withTask ?_) ?_ ?_ ?_ (append_nil _).symm (fun x c hc => ⟨c, hc, .refl c⟩) ?_ (by simp)
  · rw [notices, notices, filter_append, filter_cons_of_neg (by simp [hnotice]), filter_nil, append_nil]
  · exact Sys.withTask_rec (hb.opened target) fun i _ => hb.opened i
  · exact Sys.withTask_rec (hb.answered target) fun i _ => hb.answered i
  · intro i m' hm'
    obtain ⟨hin, hkind⟩ := mem_asks.mp hm'
    rcases hmem hin with hin | rfl
    · exact .inl ⟨i, mem_asks.mpr ⟨hin, hkind⟩⟩
    · exact .inr (hconnect hkind)
  · intro i m' hm' hkind
    rcases hmem hm' with hin | rfl
    · exact hb.forwards i m' hin hkind
    · exact hforward hkind

theorem Book.noteShake (hb : Book w s) (he : isShake e = true)
    (hanswered : ∀ i k h, (s.tasks i).call = some k → e = .acked k.id (some h) → ∃ c, s.conns h = some c ∧ c.id = k.id) :
    Book w (s.note e) := by
  refine hb.keep (fun _ => rfl) ?_ ?_ (fun i m hm => .inl ⟨i, hm⟩) rfl (fun x c hc => ⟨c, hc, .refl c⟩) hb.forwards ?_
  · intro i f h hf hkind hh
    obtain ⟨c, hc, hid, hserver⟩ := hb.opened i f h hf hkind hh
    exact ⟨c, hc, hid, fun hnot => hserver fun hin => hnot (mem_append_left _ hin)⟩
  · intro i k h hk hacked
    rcases mem_append.mp hacked with hacked | hacked
    · exact hb.answered i k h hk hacked
    · exact hanswered i k h hk (mem_singleton.mp hacked).symm
  · intro e' he'
    rw [mem_singleton.mp he']
    exact he

end Keep

end Spangap.Disconnects
