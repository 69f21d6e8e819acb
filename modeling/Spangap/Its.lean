import Spangap.PacketLink

namespace Spangap.Its

open Option Function PacketLink

abbrev TaskId := Nat

/-- A payload that the transport took over, by a number of its own. `null` marks
an owned send of a NULL pointer. -/
structure Payload where
  serial : Nat
  null : Bool
  deriving DecidableEq, Repr

inductive Kind
  | stream
  | packetLegacy
  | packet
  deriving DecidableEq, Repr

/-- A server port, with the callbacks that are registered for it. -/
structure Port where
  port : Nat
  kind : Kind
  maxHandles : Nat
  toSize : Nat
  fromSize : Nat
  depth : Nat
  maxMsg : Nat
  onConnect : Bool
  onBusy : Bool
  onDisconnect : Bool
  deriving DecidableEq, Repr

structure Config where
  isServer : Bool
  isClient : Bool
  noPool : Bool
  maxConns : Nat
  inboxMsgMax : Nat
  ports : List Port
  auxPorts : List Nat

structure World where
  count : Nat
  task : TaskId → Config

inductive MsgKind
  | connect
  | discFromClient
  | discFromServer
  | forward
  | aux
  | connectCancel
  deriving DecidableEq, Repr

/-- A message header. `about` is the connect call that made the connection the
message is about; no code reads it. -/
structure Msg where
  kind : MsgKind
  port : Nat
  handle : Option Nat
  ref : Int
  nonce : UInt32
  sender : TaskId
  cb : Option Nat
  len : Nat
  payload : Option Payload
  about : Nat
  deriving DecidableEq, Repr

/-- An active entry of the connection table, made by the connect call `id`. -/
structure Conn where
  client : TaskId
  server : TaskId
  kind : Kind
  noPool : Bool
  toLink : Option Nat
  fromLink : Option Nat
  port : Nat
  clientRef : Int
  serverRef : Int
  connectNonce : UInt32
  cliDisconnectCb : Option Nat
  id : Nat
  deriving DecidableEq, Repr

/-- A message under dispatch whose callback runs: the entry made for it, whether
the callback is to accept it, and whether its buffers are there. -/
structure Frame where
  msg : Msg
  handle : Option Nat
  asks : Bool
  ok : Bool
  deriving DecidableEq, Repr

/-- A connect call that waits for its ack; `matched` once the nonce has been
found right and the handle is still to be read. -/
structure Call where
  id : Nat
  server : TaskId
  port : Nat
  nonce : UInt32
  ref : Int
  cb : Option Nat
  matched : Bool
  deriving DecidableEq, Repr

structure Task where
  inbox : List Msg
  ackSem : Bool
  ackHandle : Option Nat
  ackNonce : UInt32
  connectGen : UInt32
  call : Option Call
  frame : Option Frame
  deriving DecidableEq, Repr

def taskMsgs (t : Task) : List Msg := t.inbox ++ t.frame.toList.map Frame.msg

/-- The counters are 32 bits wide. -/
structure Counter where
  blocks : BitVec 32
  bytes : BitVec 32
  deriving DecidableEq, Repr

def ctrAdd (c : Counter) (n : Nat) : Counter := ⟨c.blocks + 1, c.bytes + BitVec.ofNat 32 n⟩

def ctrSub (c : Counter) (n : Nat) : Counter := ⟨c.blocks - 1, c.bytes - BitVec.ofNat 32 n⟩

/-- The two counters, and a book of the payloads taken over so far: those that
were freed, handed to a receiver, or given back to the caller of a failed send. -/
structure Memory where
  pay : Counter
  hdr : Counter
  taken : Nat
  freed : List Nat
  handed : List Nat
  returned : List Nat
  deriving DecidableEq, Repr

inductive Side
  | client
  | server
  deriving DecidableEq, Repr

/-- What happens to connections. `registered` is what a side has asked for: a call
of its callback, with a reference. `freed` and `called` name the connection the
message was about, and `freed` also the one that was found at the handle. -/
inductive Event
  | acked (call : Nat) (handle : Option Nat)
  | returned (call : Nat) (handle : Option Nat)
  | registered (side : Side) (conn : Nat) (ref : Int)
  | moved (conn : Nat)
  | closed (side : Side) (conn : Nat)
  | freed (about conn : Nat)
  | called (side : Side) (about : Nat) (ref : Int)
  | reaped (about conn : Nat)
  deriving DecidableEq, Repr

structure Sys where
  tasks : TaskId → Task
  conns : Nat → Option Conn
  connCounter : Nat
  links : List (Link Payload)
  calls : Nat
  mem : Memory
  log : List Event

/-- What may fail in one call: a header, a payload, the place in an inbox, the
buffers of a stream, and ring and semaphore of each link. -/
structure Luck where
  hdr : Bool
  pay : Bool
  enq : Bool
  toBuf : Bool
  fromBuf : Bool
  toRing : Bool
  toSem : Bool
  fromRing : Bool
  fromSem : Bool
  deriving DecidableEq, Repr

def lucky : Luck := ⟨true, true, true, true, true, true, true, true, true⟩

def maxConns : Nat := 128

def sizeofMsg : Nat := 28

/-- References are kept in a signed byte. -/
def toInt8 (ref : Int) : Int := ref.bmod 256

def payTake (mem : Memory) (len : Nat) : Memory :=
  { mem with pay := ctrAdd mem.pay len, taken := mem.taken + 1 }

def payDrop (p : Payload) (len : Nat) (mem : Memory) : Memory :=
  if p.null then mem else { mem with pay := ctrSub mem.pay len, freed := mem.freed ++ [p.serial] }

def payHandoff (p : Payload) (len : Nat) (mem : Memory) : Memory :=
  { mem with pay := ctrSub mem.pay len, handed := mem.handed ++ [p.serial] }

def hdrAlloc (mem : Memory) : Memory := { mem with hdr := ctrAdd mem.hdr sizeofMsg }

def hdrFree (mem : Memory) : Memory := { mem with hdr := ctrSub mem.hdr sizeofMsg }

def msgFree (m : Msg) (mem : Memory) : Memory :=
  hdrFree (match m.payload with
    | some p => payDrop p m.len mem
    | none => mem)

def dropAll (ds : List (Desc Payload)) (mem : Memory) : Memory := ds.foldl (fun mem d => payDrop d.ptr d.len mem) mem

namespace Sys

def withTask (s : Sys) (t : TaskId) (f : Task → Task) : Sys :=
  { s with tasks := update s.tasks t (f (s.tasks t)) }

def withMem (s : Sys) (f : Memory → Memory) : Sys := { s with mem := f s.mem }

def note (s : Sys) (e : Event) : Sys := { s with log := s.log ++ [e] }

def withConn (s : Sys) (h : Nat) (f : Conn → Conn) : Sys :=
  { s with conns := update s.conns h ((s.conns h).map f) }

abbrev post (s : Sys) (target : TaskId) (m : Msg) : Sys := s.withTask target fun t => { t with inbox := t.inbox ++ [m] }

abbrev withFrame (s : Sys) (t : TaskId) (f : Option Frame) : Sys := s.withTask t fun t => { t with frame := f }

abbrev withCall (s : Sys) (t : TaskId) (k : Option Call) : Sys := s.withTask t fun t => { t with call := k }

section Projections

variable (s : Sys) (t : TaskId) (f : Task → Task) (g : Memory → Memory) (e : Event) (h : Nat) (u : Conn → Conn)

@[simp] theorem tasks_withTask_self : (s.withTask t f).tasks t = f (s.tasks t) := update_self ..

theorem tasks_withTask_ne {s : Sys} {t : TaskId} {f : Task → Task} {i : TaskId} (hi : i ≠ t) :
    (s.withTask t f).tasks i = s.tasks i := update_of_ne hi ..

@[elab_as_elim] theorem withTask_rec {s : Sys} {t : TaskId} {f : Task → Task} {P : TaskId → Task → Prop}
    (hself : P t (f (s.tasks t))) (hother : ∀ i ≠ t, P i (s.tasks i)) (i : TaskId) : P i ((s.withTask t f).tasks i) := by
  rcases eq_or_ne i t with rfl | hi
  · rwa [tasks_withTask_self]
  · rw [tasks_withTask_ne hi]
    exact hother i hi

theorem withTask_comm {s : Sys} {i j : TaskId} {f g : Task → Task} (hfg : ∀ t, f (g t) = g (f t)) :
    (s.withTask i f).withTask j g = (s.withTask j g).withTask i f := by
  have htasks : ((s.withTask i f).withTask j g).tasks = ((s.withTask j g).withTask i f).tasks := by
    funext x
    rcases eq_or_ne x i with rfl | hi <;> rcases eq_or_ne x j with rfl | hj
    · rw [tasks_withTask_self, tasks_withTask_self, tasks_withTask_self, tasks_withTask_self, hfg]
    · rw [tasks_withTask_ne hj, tasks_withTask_self, tasks_withTask_self, tasks_withTask_ne hj]
    · rw [tasks_withTask_self, tasks_withTask_ne hi, tasks_withTask_ne hi, tasks_withTask_self]
    · rw [tasks_withTask_ne hj, tasks_withTask_ne hi, tasks_withTask_ne hi, tasks_withTask_ne hj]
  exact congrArg (fun tasks => { s with tasks := tasks }) htasks

@[simp] theorem conns_withTask : (s.withTask t f).conns = s.conns := rfl

@[simp] theorem log_withTask : (s.withTask t f).log = s.log := rfl

@[simp] theorem conns_withMem : (s.withMem g).conns = s.conns := rfl

@[simp] theorem log_withMem : (s.withMem g).log = s.log := rfl

@[simp] theorem calls_withMem : (s.withMem g).calls = s.calls := rfl

@[simp] theorem tasks_note : (s.note e).tasks = s.tasks := rfl

@[simp] theorem conns_note : (s.note e).conns = s.conns := rfl

@[simp] theorem log_note : (s.note e).log = s.log ++ [e] := rfl

@[simp] theorem calls_note : (s.note e).calls = s.calls := rfl

@[simp] theorem tasks_withConn : (s.withConn h u).tasks = s.tasks := rfl

@[simp] theorem conns_withConn_self : (s.withConn h u).conns h = (s.conns h).map u := update_self ..

theorem conns_withConn_ne {s : Sys} {h : Nat} {u : Conn → Conn} {i : Nat} (hi : i ≠ h) :
    (s.withConn h u).conns i = s.conns i := update_of_ne hi ..

theorem conns_withConn_some {s : Sys} {h : Nat} {u : Conn → Conn} {i : Nat} {c : Conn} (hc : (s.withConn h u).conns i = some c) :
    ∃ c₀, s.conns i = some c₀ ∧ (i = h ∧ c = u c₀ ∨ i ≠ h ∧ c = c₀) := by
  rcases eq_or_ne i h with rfl | hi
  · rw [conns_withConn_self, map_eq_some_iff] at hc
    obtain ⟨c₀, hc₀, rfl⟩ := hc
    exact ⟨c₀, hc₀, .inl ⟨rfl, rfl⟩⟩
  · rw [conns_withConn_ne hi] at hc
    exact ⟨c, hc, .inr ⟨hi, rfl⟩⟩

@[simp] theorem log_withConn : (s.withConn h u).log = s.log := rfl

end Projections

end Sys

def portFind (w : World) (t : TaskId) (port : Nat) : Option Port := (w.task t).ports.find? fun p => p.port = port

def serverPortActiveCount (s : Sys) (t : TaskId) (port : Nat) : Nat :=
  (List.range maxConns).countP fun h => (s.conns h).any fun c => c.server = t ∧ c.port = port

def clientActive (s : Sys) (t : TaskId) : Nat :=
  (List.range maxConns).countP fun h => (s.conns h).any fun c => c.client = t

/-- The first free entry from the counter on, round the table. -/
def connAlloc (s : Sys) : Option Nat :=
  ((List.range maxConns).map fun i => (s.connCounter + i) % maxConns).find? fun h => (s.conns h).isNone

def linkFreeAt (i : Option Nat) (s : Sys) : Sys :=
  match i.bind fun i => s.links[i]?.map fun L => (i, L) with
  | none => s
  | some (i, L) => { s with links := s.links.set i (linkFree L).1, mem := dropAll (linkFree L).2 s.mem }

def connFree (s : Sys) (h : Nat) : Sys :=
  match s.conns h with
  | none => s
  | some c => linkFreeAt c.fromLink (linkFreeAt c.toLink { s with conns := update s.conns h none })

section ConnFree

variable (r : Option Nat) (s : Sys) (h : Nat)

@[simp] theorem tasks_linkFreeAt : (linkFreeAt r s).tasks = s.tasks := by
  unfold linkFreeAt
  split <;> rfl

@[simp] theorem conns_linkFreeAt : (linkFreeAt r s).conns = s.conns := by
  unfold linkFreeAt
  split <;> rfl

@[simp] theorem log_linkFreeAt : (linkFreeAt r s).log = s.log := by
  unfold linkFreeAt
  split <;> rfl

@[simp] theorem calls_linkFreeAt : (linkFreeAt r s).calls = s.calls := by
  unfold linkFreeAt
  split <;> rfl

@[simp] theorem tasks_connFree : (connFree s h).tasks = s.tasks := by
  unfold connFree
  split <;> simp

@[simp] theorem conns_connFree : (connFree s h).conns = update s.conns h none := by
  unfold connFree
  split
  next hnone => rw [← hnone, update_eq_self]
  · simp

@[simp] theorem log_connFree : (connFree s h).log = s.log := by
  unfold connFree
  split <;> simp

@[simp] theorem calls_connFree : (connFree s h).calls = s.calls := by
  unfold connFree
  split <;> simp

end ConnFree

/-- A message that has its header goes to an inbox, or back. -/
def inboxEnqueue (s : Sys) (target : TaskId) (m : Msg) (ok : Bool) : Sys :=
  if ok then s.withTask target fun t => { t with inbox := t.inbox ++ [m] } else s.withMem (msgFree m)

def notify (w : World) (luck : Luck) (s : Sys) (target : TaskId) (m : Msg) : Sys × Bool :=
  if target < w.count && luck.hdr then (inboxEnqueue (s.withMem hdrAlloc) target m luck.enq, luck.enq) else (s, false)

/-- A message with a copy of `len` bytes, if `data` is there to be copied. -/
def buildCopyMsg (w : World) (luck : Luck) (s : Sys) (target : TaskId) (m : Msg) (data : Bool) (len : Nat) :
    Sys × Option Msg :=
  if (w.task target).inboxMsgMax < len then (s, none)
  else if luck.hdr then
    let s := s.withMem hdrAlloc
    if data && 0 < len then
      if luck.pay then (s.withMem fun mem => payTake mem len, some { m with len := len, payload := some ⟨s.mem.taken, false⟩ })
      else (s.withMem hdrFree, none)
    else (s, some { m with len := len, payload := none })
  else (s, none)

section Enqueue

variable (w : World) (luck : Luck) (s : Sys) (target : TaskId) (m : Msg) (ok data : Bool) (len : Nat)

@[simp] theorem conns_inboxEnqueue : (inboxEnqueue s target m ok).conns = s.conns := by
  cases ok <;> rfl

@[simp] theorem log_inboxEnqueue : (inboxEnqueue s target m ok).log = s.log := by
  cases ok <;> rfl

@[simp] theorem calls_inboxEnqueue : (inboxEnqueue s target m ok).calls = s.calls := by
  cases ok <;> rfl

@[simp] theorem conns_notify : (notify w luck s target m).1.conns = s.conns := by
  unfold notify
  split <;> simp

@[simp] theorem log_notify : (notify w luck s target m).1.log = s.log := by
  unfold notify
  split <;> simp

@[simp] theorem calls_notify : (notify w luck s target m).1.calls = s.calls := by
  unfold notify
  split <;> simp

theorem sent_notify : (notify w luck s target m).2 = (decide (target < w.count) && luck.hdr && luck.enq) := by
  unfold notify
  split
  next hgo => rw [hgo, Bool.true_and]
  next hgo => rw [Bool.not_eq_true _ |>.mp hgo, Bool.false_and]

theorem tasks_notify : (notify w luck s target m).1.tasks =
    if (notify w luck s target m).2 then update s.tasks target
      { s.tasks target with inbox := (s.tasks target).inbox ++ [m] } else s.tasks := by
  unfold notify
  split
  · cases hok : luck.enq <;> rfl
  · rfl

theorem buildCopyMsg_spec : (∃ f, (buildCopyMsg w luck s target m data len).1 = s.withMem f) ∧
    ∀ m', (buildCopyMsg w luck s target m data len).2 = some m' → ∃ p, m' = { m with len := len, payload := p } := by
  have hnone : (∃ f, s = s.withMem f) ∧ ∀ m', none = some m' → ∃ p, m' = { m with len := len, payload := p } :=
    ⟨⟨id, rfl⟩, by simp⟩
  unfold buildCopyMsg
  split
  · exact hnone
  split
  · split
    · split
      · exact ⟨⟨fun mem => payTake (hdrAlloc mem) len, rfl⟩, fun m' h => ⟨_, (some.inj h).symm⟩⟩
      · exact ⟨⟨fun mem => hdrFree (hdrAlloc mem), rfl⟩, by simp⟩
    · exact ⟨⟨_, rfl⟩, fun m' h => ⟨_, (some.inj h).symm⟩⟩
  · exact hnone

end Enqueue

def blankMsg (kind : MsgKind) (sender : TaskId) (about : Nat) : Msg := ⟨kind, 0, none, -1, 0, sender, none, 0, none, about⟩

def itsDisconnect (w : World) (luck : Luck) (s : Sys) (me : TaskId) (h : Nat) : Sys :=
  match s.conns h with
  | none => s
  | some c =>
    let noPool := c.noPool && c.kind ≠ .packet
    let close (side : Side) (target : TaskId) (m : Msg) : Sys :=
      let s := s.note (.closed side c.id)
      let s := if noPool then s else connFree s h
      let r := notify w luck s target m
      if noPool && !r.2 then connFree r.1 h else r.1
    if c.server = me then
      close .server c.client { blankMsg .discFromServer me c.id with
        handle := some h, port := c.port, ref := c.clientRef, cb := c.cliDisconnectCb }
    else if c.client = me then
      close .client c.server { blankMsg .discFromClient me c.id with
        handle := some h, port := c.port, ref := c.serverRef }
    else s

def endpoint (c : Conn) : Side → TaskId
  | .client => c.client
  | .server => c.server

def Side.other : Side → Side
  | .client => .server
  | .server => .client

def closeMsg (c : Conn) (h : Nat) : Side → Msg
  | .server => { blankMsg .discFromServer c.server c.id with
      handle := some h, port := c.port, ref := c.clientRef, cb := c.cliDisconnectCb }
  | .client => { blankMsg .discFromClient c.client c.id with handle := some h, port := c.port, ref := c.serverRef }

def stays (c : Conn) : Bool := c.noPool && c.kind ≠ .packet

theorem close_spec (w : World) (luck : Luck) (s : Sys) (h : Nat) (noPool : Bool) (e : Event) (target : TaskId) (m : Msg) {u : Sys}
    (hu : u = if noPool then s.note e else connFree (s.note e) h) {t : Sys}
    (ht : t = if noPool && !(notify w luck u target m).2 then connFree (notify w luck u target m).1 h
      else (notify w luck u target m).1) :
    t.tasks = (if (notify w luck u target m).2 then update s.tasks target
        { s.tasks target with inbox := (s.tasks target).inbox ++ [m] } else s.tasks) ∧
      t.conns = (if noPool && (notify w luck u target m).2 then s.conns else update s.conns h none) ∧
      t.log = s.log ++ [e] ∧ t.calls = s.calls := by
  have htasks : u.tasks = s.tasks := by
    rw [hu]
    split <;> simp
  have hconns : u.conns = if noPool then s.conns else update s.conns h none := by
    rw [hu]
    split <;> simp
  have hlog : u.log = s.log ++ [e] := by
    rw [hu]
    split <;> simp
  have hcalls : u.calls = s.calls := by
    rw [hu]
    split <;> simp
  rw [ht, ← htasks, ← tasks_notify, ← hlog, ← hcalls]
  refine ⟨?_, ?_, ?_, ?_⟩
  · split <;> simp
  · cases noPool <;> cases (notify w luck u target m).2 <;> simp [hconns]
  · split <;> simp
  · split <;> simp

theorem itsDisconnect_cases (w : World) (luck : Luck) (s : Sys) (me : TaskId) (h : Nat) :
    itsDisconnect w luck s me h = s ∨
      ∃ c side sent, s.conns h = some c ∧ endpoint c side = me ∧ (side = .client → c.server ≠ me) ∧
        sent = (decide (endpoint c side.other < w.count) && luck.hdr && luck.enq) ∧
        (itsDisconnect w luck s me h).tasks = (if sent then update s.tasks (endpoint c side.other)
          { s.tasks (endpoint c side.other) with inbox := (s.tasks (endpoint c side.other)).inbox ++ [closeMsg c h side] }
          else s.tasks) ∧
        (itsDisconnect w luck s me h).conns = (if stays c && sent then s.conns else update s.conns h none) ∧
        (itsDisconnect w luck s me h).log = s.log ++ [.closed side c.id] ∧
        (itsDisconnect w luck s me h).calls = s.calls := by
  unfold itsDisconnect
  split
  · exact .inl rfl
  next c hc =>
    split
    next hme =>
      obtain ⟨htasks, hconns, hlog, hcalls⟩ := close_spec w luck s h (stays c) (.closed .server c.id) c.client
        (closeMsg c h .server) rfl rfl
      subst hme
      exact .inr ⟨c, .server, _, hc, rfl, by simp, sent_notify .., htasks, hconns, hlog, hcalls⟩
    next hserver =>
      split
      next hme =>
        obtain ⟨htasks, hconns, hlog, hcalls⟩ := close_spec w luck s h (stays c) (.closed .client c.id) c.server
          (closeMsg c h .client) rfl rfl
        subst hme
        exact .inr ⟨c, .client, _, hc, rfl, fun _ => hserver, sent_notify .., htasks, hconns, hlog, hcalls⟩
      · exact .inl rfl

def ack (s : Sys) (m : Msg) (handle : Option Nat) : Sys :=
  (s.withTask m.sender fun t => { t with ackHandle := handle, ackNonce := m.nonce, ackSem := true }).note
    (.acked m.about handle)

section Ack

variable {s : Sys} {m : Msg} {handle : Option Nat}

theorem tasks_ack_self : (ack s m handle).tasks m.sender =
    { s.tasks m.sender with ackHandle := handle, ackNonce := m.nonce, ackSem := true } := by
  rw [ack, Sys.tasks_note, Sys.tasks_withTask_self]

theorem tasks_ack_ne {i : TaskId} (hi : i ≠ m.sender) : (ack s m handle).tasks i = s.tasks i := by
  rw [ack, Sys.tasks_note, Sys.tasks_withTask_ne hi]

@[simp] theorem conns_ack : (ack s m handle).conns = s.conns := rfl

@[simp] theorem log_ack : (ack s m handle).log = s.log ++ [.acked m.about handle] := rfl

end Ack

/-- The rings of a packet connection, or the buffers of another one. The last
component says whether all of them are there. -/
def buffers (luck : Luck) (sp : Port) (links : List (Link Payload)) :
    List (Link Payload) × Option Nat × Option Nat × Bool :=
  if sp.kind = .packet then
    let there := if 0 < sp.toSize then linkAcquire luck.toRing luck.toSem sp.depth sp.toSize sp.maxMsg links
      else (links, none)
    let toOk : Bool := sp.toSize = 0 ∨ there.2.isSome
    let back := if toOk ∧ 0 < sp.fromSize then
        linkAcquire luck.fromRing luck.fromSem sp.depth sp.fromSize sp.maxMsg there.1
      else (there.1, none)
    (back.1, there.2, back.2, toOk ∧ (sp.fromSize = 0 ∨ back.2.isSome))
  else (links, none, none, (sp.toSize = 0 ∨ luck.toBuf) ∧ (sp.fromSize = 0 ∨ luck.fromBuf))

def beginConnect (w : World) (luck : Luck) (s : Sys) (me : TaskId) (m : Msg) : Sys × Frame :=
  match portFind w me m.port with
  | none => (s, ⟨m, none, false, false⟩)
  | some sp =>
    match if serverPortActiveCount s me m.port < sp.maxHandles then connAlloc s else none with
    | none => (s, ⟨m, none, false, false⟩)
    | some h =>
      let b := buffers luck sp s.links
      let c : Conn := ⟨m.sender, me, sp.kind, (w.task me).noPool, b.2.1, b.2.2.1, m.port, -1, -1, m.nonce, none, m.about⟩
      ({ s with links := b.1, conns := update s.conns h (some c), connCounter := (h + 1) % maxConns },
        ⟨m, some h, sp.onConnect && b.2.2.2, b.2.2.2⟩)

def cancelTarget (s : Sys) (me : TaskId) (m : Msg) : Option Nat :=
  (List.range maxConns).find? fun h =>
    (s.conns h).any fun c => c.server = me ∧ c.client = m.sender ∧ c.connectNonce = m.nonce ∧ m.nonce ≠ 0

def serverCall (w : World) (s : Sys) (me : TaskId) (port : Nat) (about : Nat) (ref : Int) : Sys :=
  if (portFind w me port).any Port.onDisconnect ∧ 0 ≤ ref then s.note (.called .server about ref) else s

def clientCall (s : Sys) (cb : Option Nat) (about : Nat) (ref : Int) : Sys :=
  if 0 ≤ ref ∧ cb.isSome then s.note (.called .client about ref) else s

section Callbacks

variable (w : World) (s : Sys) (me : TaskId) (cb : Option Nat) (port about : Nat) (ref : Int)

@[simp] theorem tasks_serverCall : (serverCall w s me port about ref).tasks = s.tasks := by
  unfold serverCall
  split <;> rfl

@[simp] theorem conns_serverCall : (serverCall w s me port about ref).conns = s.conns := by
  unfold serverCall
  split <;> rfl

@[simp] theorem tasks_clientCall : (clientCall s cb about ref).tasks = s.tasks := by
  unfold clientCall
  split <;> rfl

@[simp] theorem conns_clientCall : (clientCall s cb about ref).conns = s.conns := by
  unfold clientCall
  split <;> rfl

end Callbacks

def beginCancel (w : World) (s : Sys) (me : TaskId) (m : Msg) : Sys :=
  match (cancelTarget s me m).bind fun h => (s.conns h).map fun c => (h, c) with
  | none => s
  | some (h, c) => serverCall w ((connFree s h).note (.reaped m.about c.id)) me c.port m.about c.serverRef

section OtherTasks

variable (w : World) (s : Sys) (t : TaskId) (f : Task → Task)

theorem linkFreeAt_withTask (r : Option Nat) : linkFreeAt r (s.withTask t f) = (linkFreeAt r s).withTask t f := by
  unfold linkFreeAt
  show (match r.bind fun i => s.links[i]?.map fun L => (i, L) with | none => _ | some (i, L) => _) = _
  split <;> rfl

theorem connFree_withTask (h : Nat) : connFree (s.withTask t f) h = (connFree s h).withTask t f := by
  unfold connFree
  rw [Sys.conns_withTask]
  split
  · rfl
  · rw [← linkFreeAt_withTask, ← linkFreeAt_withTask]
    rfl

theorem beginCancel_withTask (me : TaskId) (m : Msg) :
    beginCancel w (s.withTask t f) me m = (beginCancel w s me m).withTask t f := by
  unfold beginCancel
  show (match (cancelTarget s me m).bind fun h => (s.conns h).map fun c => (h, c) with | none => _ | some (h, c) => _) = _
  split
  · rfl
  · rw [connFree_withTask]
    unfold serverCall
    split <;> rfl

end OtherTasks

def beginDiscFromClient (w : World) (s : Sys) (me : TaskId) (m : Msg) : Sys :=
  match (m.handle.bind fun h => (s.conns h).map fun c => (h, c)).filter fun p => p.2.server = me ∧ p.2.client = m.sender with
  | none => serverCall w s me m.port m.about m.ref
  | some (h, c) => serverCall w ((connFree s h).note (.freed m.about c.id)) me c.port m.about c.serverRef

def beginDiscFromServer (s : Sys) (me : TaskId) (m : Msg) : Sys :=
  match (m.handle.bind fun h => (s.conns h).map fun c => (h, c)).filter fun p => p.2.client = me ∧ p.2.server = m.sender with
  | none => clientCall s m.cb m.about m.ref
  | some (h, c) => clientCall ((connFree s h).note (.freed m.about c.id)) c.cliDisconnectCb m.about c.clientRef

def beginForward (w : World) (luck : Luck) (s : Sys) (me : TaskId) (m : Msg) : Sys × Frame :=
  match (m.handle.bind fun h => (s.conns h).map fun c => (h, c)).filter fun p => p.2.server = me with
  | none => (s, ⟨m, none, false, false⟩)
  | some (h, _) =>
    match portFind w me m.port with
    | none => (itsDisconnect w luck s me h, ⟨m, none, false, false⟩)
    | some sp => (s.withConn h fun c => { c with kind := sp.kind }, ⟨m, some h, sp.onConnect, true⟩)

/-- A message leaves the inbox and is handled up to the end of its callback. The
kinds that only a server gets are sent to servers only. -/
def beginMsg (w : World) (luck : Luck) (s : Sys) (me : TaskId) (m : Msg) : Sys × Frame :=
  match m.kind with
  | .connect => beginConnect w luck s me m
  | .connectCancel => (beginCancel w s me m, ⟨m, none, false, false⟩)
  | .discFromClient => (beginDiscFromClient w s me m, ⟨m, none, false, false⟩)
  | .discFromServer => (beginDiscFromServer s me m, ⟨m, none, false, false⟩)
  | .forward => beginForward w luck s me m
  | .aux => (s, ⟨m, none, false, false⟩)

theorem msg_beginMsg (w : World) (luck : Luck) (s : Sys) (me : TaskId) (m : Msg) : (beginMsg w luck s me m).2.msg = m := by
  unfold beginMsg
  split
  · unfold beginConnect
    split
    · rfl
    split <;> rfl
  · rfl
  · rfl
  · rfl
  · unfold beginForward
    split
    · rfl
    split <;> rfl
  · rfl

def listen (w : World) (s : Sys) (me : TaskId) (port about : Nat) (sRef : Int) : Sys :=
  if (portFind w me port).any Port.onDisconnect then s.note (.registered .server about sRef) else s

@[simp] theorem tasks_listen (w : World) (s : Sys) (me : TaskId) (port about : Nat) (sRef : Int) :
    (listen w s me port about sRef).tasks = s.tasks := by
  unfold listen
  split <;> rfl

@[simp] theorem conns_listen (w : World) (s : Sys) (me : TaskId) (port about : Nat) (sRef : Int) :
    (listen w s me port about sRef).conns = s.conns := by
  unfold listen
  split <;> rfl

/-- The callback has returned `sRef`, which is kept for a connect only. -/
def finishMsg (w : World) (luck : Luck) (s : Sys) (me : TaskId) (f : Frame) (sRef : Int) : Sys :=
  match f.msg.kind with
  | .connect =>
    match f.handle with
    | none => ack s f.msg none
    | some h =>
      if f.ok && (!f.asks || 0 ≤ sRef) then
        ack (if f.asks then
            listen w (s.withConn h fun c => { c with serverRef := toInt8 sRef }) me f.msg.port f.msg.about sRef
          else s) f.msg (some h)
      else ack (connFree s h) f.msg none
  | .forward =>
    match f.handle with
    | some h =>
      if f.asks && sRef < 0 then itsDisconnect w luck s me h
      else if f.asks then listen w s me f.msg.port f.msg.about sRef else s
    | none => s
  | _ => s

/-- The handshake of a connect up to its wait. -/
def itsConnect (w : World) (luck : Luck) (s : Sys) (me srv : TaskId) (port : Nat) (data : Bool) (len : Nat) (ref : Int)
    (cb : Option Nat) : Sys :=
  let id := s.calls
  let s := { s with calls := s.calls + 1 }
  if clientActive s me < (w.task me).maxConns ∧ srv < w.count ∧ (w.task srv).isServer ∧ (portFind w srv port).isSome then
    let gen := (s.tasks me).connectGen + 1
    let nonce := if gen = 0 then gen + 1 else gen
    let s := s.withTask me fun t => { t with ackSem := false, ackHandle := none, connectGen := nonce }
    let r := buildCopyMsg w luck s srv { blankMsg .connect me id with port := port, nonce := nonce } data len
    match r.2 with
    | none => r.1.note (.returned id none)
    | some m =>
      let s := inboxEnqueue r.1 srv m luck.enq
      if luck.enq then s.withTask me fun t => { t with call := some ⟨id, srv, port, nonce, ref, cb, false⟩ }
      else s.note (.returned id none)
  else s.note (.returned id none)

/-- The wait takes the semaphore and looks at the nonce. -/
def connectWake (s : Sys) (me : TaskId) (k : Call) : Sys :=
  s.withTask me fun t => { t with ackSem := false, call := some { k with matched := t.ackNonce = k.nonce } }

/-- The handle is read, and the reference and callback are put into its entry. -/
def connectRead (s : Sys) (me : TaskId) (k : Call) : Sys :=
  let handle := (s.tasks me).ackHandle
  let s := (s.withTask me fun t => { t with call := none }).note (.returned k.id handle)
  match handle with
  | none => s
  | some h =>
    let s := s.withConn h fun c =>
      { c with
        clientRef := if 0 ≤ k.ref then toInt8 k.ref else c.clientRef
        cliDisconnectCb := if k.cb.isSome then k.cb else c.cliDisconnectCb }
    if 0 ≤ k.ref ∧ k.cb.isSome then s.note (.registered .client k.id k.ref) else s

def connectTimeout (w : World) (luck : Luck) (s : Sys) (me : TaskId) (k : Call) : Sys :=
  let s := (s.withTask me fun t => { t with call := none }).note (.returned k.id none)
  (notify w luck s k.server { blankMsg .connectCancel me k.id with port := k.port, nonce := k.nonce }).1

def itsServerForward (w : World) (luck : Luck) (s : Sys) (me : TaskId) (h : Nat) (target : TaskId) (port : Nat) (data : Bool)
    (len : Nat) : Sys :=
  match (s.conns h).filter fun c => c.server = me with
  | none => s
  | some c =>
    match if target < w.count ∧ (w.task target).isServer then portFind w target port else none with
    | none => s
    | some sp =>
      if sp.maxHandles ≤ serverPortActiveCount s target port ∧ sp.onBusy then s
      else
        let s := (s.withConn h fun c => { c with server := target, port := port, kind := sp.kind }).note (.moved c.id)
        let r := buildCopyMsg w luck s target { blankMsg .forward me c.id with port := port, handle := some h } data len
        match r.2 with
        | none => r.1
        | some m => inboxEnqueue r.1 target m luck.enq

def auxRegistered (w : World) (target : TaskId) (port : Nat) : Bool :=
  target < w.count && (w.task target).auxPorts.contains port

/-- The wait for the pickup of a message comes after it is in the inbox and
touches no memory. -/
def itsSendAux (w : World) (luck : Luck) (s : Sys) (me target : TaskId) (port : Nat) (data : Bool) (len : Nat) : Sys × Bool :=
  if auxRegistered w target port then
    let r := buildCopyMsg w luck s target { blankMsg .aux me 0 with port := port } data len
    match r.2 with
    | none => (r.1, false)
    | some m => (inboxEnqueue r.1 target m luck.enq, luck.enq)
  else (s, false)

/-- The caller's block goes into the message as it is. When there is no place
in the inbox it is taken out of the header again before that is freed. -/
def itsSendAuxOwned (w : World) (luck : Luck) (s : Sys) (me target : TaskId) (port : Nat) (null : Bool) (len : Nat) :
    Sys × Bool :=
  if auxRegistered w target port && len ≤ (w.task target).inboxMsgMax && luck.hdr then
    let s := s.withMem hdrAlloc
    let p : Payload := ⟨s.mem.taken, null⟩
    let m : Msg := { blankMsg .aux me 0 with port := port, len := len, payload := if null then none else some p }
    let s := s.withMem fun mem => payTake mem len
    if luck.enq then (inboxEnqueue s target m true, true)
    else
      let s := s.withMem fun mem => { mem with pay := ctrSub mem.pay len, returned := mem.returned ++ [p.serial] }
      (inboxEnqueue s target { m with payload := none } false, false)
  else (s, false)

def sendLink (s : Sys) (me : TaskId) (h : Nat) : Option Nat :=
  (s.conns h).bind fun c =>
    if c.kind = .packet then if me = c.client then c.toLink else if me = c.server then c.fromLink else none else none

def recvLink (s : Sys) (me : TaskId) (h : Nat) : Option Nat :=
  (s.conns h).bind fun c =>
    if c.kind = .packet then if me = c.client then c.fromLink else if me = c.server then c.toLink else none else none

/-- A message over a packet connection, copied or owned. -/
def itsSend (luck : Luck) (late owned null : Bool) (s : Sys) (me : TaskId) (h len : Nat) : Sys × Bool :=
  match (sendLink s me h).bind fun i => s.links[i]?.map fun L => (i, L) with
  | none => (s, false)
  | some (i, L) =>
    let r := itsSendPacket late luck.pay owned (⟨s.mem.taken, owned && null⟩ : Payload) len L
    if r.2 = 0 then (s, false)
    else ({ s with links := s.links.set i r.1, mem := payTake s.mem len }, true)

def itsRecv (s : Sys) (me : TaskId) (h : Nat) : Sys :=
  match (recvLink s me h).bind fun i => s.links[i]?.bind fun L => (linkDequeue L).map fun r => (i, r) with
  | none => s
  | some (i, d, L) => { s with links := s.links.set i L, mem := payDrop d.ptr d.len s.mem }

def itsRecvRef (s : Sys) (me : TaskId) (h : Nat) : Sys :=
  match (recvLink s me h).bind fun i => s.links[i]?.bind fun L => (linkDequeue L).map fun r => (i, r) with
  | none => s
  | some (i, d, L) => { s with links := s.links.set i L, mem := payHandoff d.ptr d.len s.mem }

def linkPurgeAt (i : Option Nat) (s : Sys) : Sys :=
  match i.bind fun i => s.links[i]?.map fun L => (i, L) with
  | none => s
  | some (i, L) => { s with links := s.links.set i (linkPurge L).1, mem := dropAll (linkPurge L).2 s.mem }

def itsReset (s : Sys) (h : Nat) : Sys :=
  match (s.conns h).filter fun c => c.kind = .packet with
  | none => s
  | some c => linkPurgeAt c.fromLink (linkPurgeAt c.toLink s)

/-- One step of one task. A connect waits between its steps, and a message is
under dispatch while its callback runs, which may take steps of its own but does
not poll. Closing all connections is closing one after the other. -/
inductive Action
  | connect (srv : TaskId) (port : Nat) (data : Bool) (len : Nat) (ref : Int) (cb : Option Nat) (luck : Luck)
  | wake
  | read
  | timeout (luck : Luck)
  | begin (luck : Luck)
  | finish (sRef : Int) (luck : Luck)
  | disconnect (h : Nat) (luck : Luck)
  | forward (h : Nat) (target : TaskId) (port : Nat) (data : Bool) (len : Nat) (luck : Luck)
  | aux (target : TaskId) (port : Nat) (data : Bool) (len : Nat) (luck : Luck)
  | auxOwned (target : TaskId) (port : Nat) (null : Bool) (len : Nat) (luck : Luck)
  | send (h len : Nat) (late owned null : Bool) (luck : Luck)
  | recv (h : Nat)
  | recvRef (h : Nat)
  | reset (h : Nat)
  deriving DecidableEq, Repr

def act (w : World) (s : Sys) (me : TaskId) : Action → Option Sys
  | .connect srv port data len ref cb luck =>
    if (w.task me).isClient then some (itsConnect w luck s me srv port data len ref cb) else none
  | .begin luck =>
    match (s.tasks me).frame, (s.tasks me).inbox with
    | none, m :: inbox =>
      let r := beginMsg w luck (s.withTask me fun t => { t with inbox := inbox, frame := some ⟨m, none, false, false⟩ }) me m
      some (r.1.withTask me fun t => { t with frame := some r.2 })
    | _, _ => none
  | .finish sRef luck =>
    match (s.tasks me).frame with
    | some f =>
      some (((finishMsg w luck s me f sRef).withTask me fun t => { t with frame := none }).withMem (msgFree f.msg))
    | none => none
  | .disconnect h luck => some (itsDisconnect w luck s me h)
  | .forward h target port data len luck => some (itsServerForward w luck s me h target port data len)
  | .aux target port data len luck => some (itsSendAux w luck s me target port data len).1
  | .auxOwned target port null len luck => some (itsSendAuxOwned w luck s me target port null len).1
  | .send h len late owned null luck => some (itsSend luck late owned null s me h len).1
  | .recv h => some (itsRecv s me h)
  | .recvRef h => some (itsRecvRef s me h)
  | .reset h => some (itsReset s h)
  | .wake | .read | .timeout _ => none

def step (w : World) (s : Sys) (a : TaskId × Action) : Option Sys :=
  if a.1 < w.count then
    match (s.tasks a.1).call, a.2 with
    | some k, .wake => if !k.matched && (s.tasks a.1).ackSem then some (connectWake s a.1 k) else none
    | some k, .read => if k.matched then some (connectRead s a.1 k) else none
    | some k, .timeout luck => if !k.matched && !(s.tasks a.1).ackSem then some (connectTimeout w luck s a.1 k) else none
    | some _, _ => none
    | none, x => act w s a.1 x
  else none

def start : Sys :=
  { tasks := fun _ => ⟨[], false, none, 0, 0, none, none⟩
    conns := fun _ => none
    connCounter := 0
    links := []
    calls := 0
    mem := ⟨⟨0, 0⟩, ⟨0, 0⟩, 0, [], [], []⟩
    log := [] }

def takeOut (s : Sys) (me : TaskId) (m : Msg) (inbox : List Msg) : Sys :=
  s.withTask me fun t => { t with inbox := inbox, frame := some ⟨m, none, false, false⟩ }

theorem act_begin {w : World} {s t : Sys} {me : TaskId} {luck : Luck} (h : act w s me (.begin luck) = some t) :
    ∃ m inbox, (s.tasks me).frame = none ∧ (s.tasks me).inbox = m :: inbox ∧
      t = (beginMsg w luck (takeOut s me m inbox) me m).1.withTask me fun t =>
        { t with frame := some (beginMsg w luck (takeOut s me m inbox) me m).2 } := by
  simp only [act] at h
  split at h
  next m inbox hframe hinbox => exact ⟨m, inbox, hframe, hinbox, (some.inj h).symm⟩
  · simp at h

theorem act_finish {w : World} {s t : Sys} {me : TaskId} {sRef : Int} {luck : Luck} (h : act w s me (.finish sRef luck) = some t) :
    ∃ f, (s.tasks me).frame = some f ∧
      t = ((finishMsg w luck s me f sRef).withTask me fun t => { t with frame := none }).withMem (msgFree f.msg) := by
  simp only [act] at h
  split at h
  next f hframe => exact ⟨f, hframe, (some.inj h).symm⟩
  · simp at h

theorem step_cases {w : World} {s t : Sys} {me : TaskId} {x : Action} (h : step w s (me, x) = some t) :
    me < w.count ∧
      ((∃ k, (s.tasks me).call = some k ∧
        ((x = .wake ∧ k.matched = false ∧ (s.tasks me).ackSem = true ∧ t = connectWake s me k) ∨
          (x = .read ∧ k.matched = true ∧ t = connectRead s me k) ∨
          ∃ luck, x = .timeout luck ∧ k.matched = false ∧ (s.tasks me).ackSem = false ∧
            t = connectTimeout w luck s me k)) ∨
        ((s.tasks me).call = none ∧ act w s me x = some t)) := by
  unfold step at h
  split at h
  next hme =>
    refine ⟨hme, ?_⟩
    split at h
    next k hk hx =>
      obtain ⟨hgo, rfl⟩ := ite_none_right_eq_some.mp h |>.imp_right some.inj
      exact .inl ⟨k, hk, .inl ⟨hx, by simpa using hgo⟩⟩
    next k hk hx =>
      obtain ⟨hgo, rfl⟩ := ite_none_right_eq_some.mp h |>.imp_right some.inj
      exact .inl ⟨k, hk, .inr (.inl ⟨hx, hgo, rfl⟩)⟩
    next k luck hk hx =>
      obtain ⟨hgo, rfl⟩ := ite_none_right_eq_some.mp h |>.imp_right some.inj
      exact .inl ⟨k, hk, .inr (.inr ⟨luck, hx, by simpa using hgo⟩)⟩
    · simp at h
    next hk => exact .inr ⟨hk, h⟩
  · simp at h

/-- What a step that only carries data does: at most a message that is not about a
connection is posted. -/
structure Aside (s t : Sys) : Prop where
  conns : t.conns = s.conns
  calls : t.calls = s.calls
  log : t.log = s.log
  tasks : t.tasks = s.tasks ∨
    ∃ target m, m.kind = .aux ∧ t.tasks = (s.withTask target fun t => { t with inbox := t.inbox ++ [m] }).tasks

def Action.isData : Action → Bool
  | .aux .. | .auxOwned .. | .send .. | .recv _ | .recvRef _ | .reset _ => true
  | _ => false

section Data

variable {w : World} {s t : Sys} {me : TaskId} {x : Action} {m : Msg}

theorem aside_mem (s : Sys) (links : List (Link Payload)) (mem : Memory) : Aside s { s with links := links, mem := mem } :=
  ⟨rfl, rfl, rfl, .inl rfl⟩

theorem Aside.withMem {f : Memory → Memory} (h : Aside (s.withMem f) t) : Aside s t := { h with }

theorem aside_inboxEnqueue (s : Sys) (hm : m.kind = .aux) (target : TaskId) (ok : Bool) : Aside s (inboxEnqueue s target m ok) := by
  cases ok with
  | true => exact ⟨rfl, rfl, rfl, .inr ⟨target, m, hm, rfl⟩⟩
  | false => exact aside_mem s _ _

theorem linkPurgeAt_eq (i : Option Nat) (s : Sys) : ∃ links mem, linkPurgeAt i s = { s with links := links, mem := mem } := by
  unfold linkPurgeAt
  split <;> exact ⟨_, _, rfl⟩

theorem aside_act (h : act w s me x = some t) (hx : x.isData = true) : Aside s t := by
  cases x with
  | aux target port data len luck =>
    rw [← some.inj h, itsSendAux]
    split
    · obtain ⟨⟨f, hf⟩, hspec⟩ := buildCopyMsg_spec w luck s target { blankMsg .aux me 0 with port := port } data len
      dsimp only
      rw [hf]
      split
      · exact aside_mem s _ _
      next m hm =>
        obtain ⟨p, rfl⟩ := hspec m hm
        exact (aside_inboxEnqueue _ rfl target luck.enq).withMem
    · exact aside_mem s _ _
  | auxOwned target port null len luck =>
    rw [← some.inj h, itsSendAuxOwned]
    split
    · dsimp only
      split
      · exact (aside_inboxEnqueue _ rfl target true).withMem.withMem
      · exact (aside_inboxEnqueue _ rfl target false).withMem.withMem.withMem
    · exact aside_mem s _ _
  | send y len late owned null luck =>
    rw [← some.inj h, itsSend]
    split
    · exact aside_mem s _ _
    · dsimp only
      split <;> exact aside_mem s _ _
  | recv y =>
    rw [← some.inj h, itsRecv]
    split <;> exact aside_mem s _ _
  | recvRef y =>
    rw [← some.inj h, itsRecvRef]
    split <;> exact aside_mem s _ _
  | reset y =>
    rw [← some.inj h, itsReset]
    split
    · exact aside_mem s _ _
    next c _ =>
      obtain ⟨links, mem, hto⟩ := linkPurgeAt_eq c.toLink s
      rw [hto]
      obtain ⟨links, mem, hfrom⟩ := linkPurgeAt_eq c.fromLink { s with links := links, mem := mem }
      rw [hfrom]
      exact aside_mem s links mem
  | _ => simp [Action.isData] at hx

end Data

end Spangap.Its
