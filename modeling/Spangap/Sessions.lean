import Spangap.CliSlot
import Spangap.Runs

namespace Spangap.Sessions

open Function CJson CliSlot

abbrev SlotId := Fin cliMaxClients

/-- How a client comes in: over the stream port, with the bytes of its connect, or
over the packet port. -/
inductive Opening
  | tcp (data : List UInt8)
  | dc
  deriving DecidableEq, Repr

def Opening.session (how : Opening) (handle : Nat) (cl : Slot) : Slot :=
  match how with
  | .tcp data => cliTcpConnect handle data cl
  | .dc => cliDcConnect handle cl

def prompts (cl : Slot) : Bool :=
  (cl.loginRequired && !cl.authed) || (cl.mode = .ansi && !cl.usbSerial) || (cl.mode = .line && !cl.usbSerial && !cl.noPrompt)

/-- A command that runs: whether its line asks for the end of the session, and the
handle that a read inside it takes its input from. -/
structure Job where
  hangup : Bool
  read : Option Nat
  deriving DecidableEq, Repr

inductive Branch
  | ansi
  | line
  deriving DecidableEq, Repr

/-- The bytes of one receive on their way through a slot. `conn` is the connection
they came from; no code reads it. -/
structure Pass where
  slot : SlotId
  conn : Nat
  branch : Branch
  rest : List UInt8
  job : Option Job
  deriving DecidableEq, Repr

inductive Phase
  | poll
  | slots (i : Nat)
  | sweep (i : Nat)
  deriving DecidableEq, Repr

/-- What connections do to sessions. `session` is the connection that the slot
concerned was made for. -/
inductive Note
  | opened (conn handle : Nat) (how : Opening) (cl : Slot)
  | input (conn : Nat) (session : Option Nat)
  | output (conn : Nat) (peer : Option Nat)
  | closing (conn : Nat) (session : Option Nat)
  | stray (conn : Nat)
  deriving DecidableEq, Repr

/-- The session table and the task at work on it. `live` says which connection the
transport has at a handle for this task; `owner` and `next` only number the
connections. -/
structure State where
  slots : SlotId → Slot
  owner : SlotId → Option Nat
  live : Nat → Option Nat
  cliActiveSlot : Option SlotId
  hist : List Name
  phase : Phase
  pass : Option Pass
  next : Nat
  log : List Note

namespace State

def note (s : State) (e : Note) : State := { s with log := s.log ++ [e] }

def withSlot (s : State) (i : SlotId) (f : Slot → Slot) : State := { s with slots := update s.slots i (f (s.slots i)) }

def clearSlot (s : State) (i : SlotId) : State :=
  { s with slots := update s.slots i .blank, owner := update s.owner i none }

section Projections

variable (s : State) {i j : SlotId} (f : Slot → Slot)

@[simp] theorem slots_withSlot_self : (s.withSlot i f).slots i = f (s.slots i) := update_self ..

theorem slots_withSlot_ne (hj : j ≠ i) : (s.withSlot i f).slots j = s.slots j := update_of_ne hj ..

@[simp] theorem slots_clearSlot_self : (s.clearSlot i).slots i = .blank := update_self ..

theorem slots_clearSlot_ne (hj : j ≠ i) : (s.clearSlot i).slots j = s.slots j := update_of_ne hj ..

@[simp] theorem owner_clearSlot_self : (s.clearSlot i).owner i = none := update_self ..

theorem owner_clearSlot_ne (hj : j ≠ i) : (s.clearSlot i).owner j = s.owner j := update_of_ne hj ..

end Projections

end State

/-- A message of the inbox: a connect for a handle, or the callback for a slot. -/
inductive Dispatch
  | connect (handle : Nat) (how : Opening)
  | disconnect (ref : SlotId)
  deriving DecidableEq, Repr

def cliAllocSlot (s : State) : Option SlotId := (List.finRange cliMaxClients).find? fun i => (s.slots i).itsHandle = none

/-- `cliTcpConnect` or `cliDcConnect`, with `cliInitSlot`. -/
def onConnect (s : State) (handle : Nat) (how : Opening) : State :=
  match cliAllocSlot s with
  | none => s
  | some i =>
    let cl := how.session handle (s.slots i)
    { s with
      slots := update s.slots i cl
      owner := update s.owner i (some s.next)
      live := update s.live handle (some s.next)
      cliActiveSlot := if prompts cl then none else s.cliActiveSlot
      next := s.next + 1
      log := s.log ++ [.opened s.next handle how cl] }

def cliOnDisconnect (s : State) (ref : SlotId) : State := s.clearSlot ref

def dispatch (s : State) : Dispatch → State
  | .connect handle how => onConnect s handle how
  | .disconnect ref => cliOnDisconnect s ref

def setPendingClose (s : State) (conn : Nat) (i : SlotId) : State :=
  (s.withSlot i fun cl => { cl with pendingClose := true }).note (.closing conn (s.owner i))

def cliRequestSessionEnd (s : State) (conn : Nat) : State :=
  match s.cliActiveSlot with
  | none => s
  | some i => setPendingClose s conn i

def target (s : State) : Option Nat := s.cliActiveSlot.bind fun i => (s.slots i).itsHandle.bind s.live

def itsCliWrite (s : State) (conn : Nat) : State := s.note (.output conn (target s))

/-- One byte of an interactive session. `suffix` is what the completion of files
would insert. -/
def editByte (s : State) (p : Pass) (c : UInt8) (rest : List UInt8) (suffix : Name) : State :=
  let r := cliEditChar (fun _ _ => suffix) s.hist (s.slots p.slot).edit c
  let s := (s.withSlot p.slot fun cl => { cl with edit := r.1 }).note (.input p.conn (s.owner p.slot))
  let s := { s with pass := some { p with rest := rest } }
  match r.2 with
  | .edited => s
  | .eof => cliRequestSessionEnd s p.conn
  | .blank => if (s.cliActiveSlot.map s.slots).any Slot.usbSerial then cliRequestSessionEnd s p.conn else s
  | .enter line =>
    let hangup := cliLineEndsWithSemicolon line && (s.cliActiveSlot.map s.slots).any fun cl => !cl.usbSerial
    { s with hist := histAdd line s.hist, pass := some { p with rest := rest, job := some ⟨hangup, none⟩ } }

/-- One byte of a session that sends whole lines. A ^D ends the receive. -/
def lineByte (s : State) (p : Pass) (c : UInt8) (rest : List UInt8) : State :=
  let lineBuf := (s.slots p.slot).lineBuf
  let s := s.note (.input p.conn (s.owner p.slot))
  let s := { s with pass := some { p with rest := rest } }
  if c = 4 then setPendingClose { s with pass := some { p with rest := [] } } p.conn p.slot
  else if c = 10 ∨ c = 13 then
    if lineBuf = [] then s
    else { s with pass := some { p with rest := rest, job := some ⟨cliLineEndsWithSemicolon (cStr lineBuf), none⟩ } }
  else if lineBuf.length < cliLineMax + 1 then s.withSlot p.slot fun cl => { cl with lineBuf := cl.lineBuf ++ [c] }
  else s

/-- `cliProcess` has returned. -/
def commandDone (s : State) (p : Pass) (job : Job) : State :=
  match p.branch with
  | .ansi =>
    let s := { s with pass := some { p with job := none } }
    if job.hangup then
      match s.cliActiveSlot with
      | some i => setPendingClose s p.conn i
      | none => s.note (.stray p.conn)
    else s
  | .line =>
    let s := (s.withSlot p.slot fun cl => { cl with lineBuf := [] }).note (.input p.conn (s.owner p.slot))
    if job.hangup then setPendingClose { s with pass := some { p with rest := [], job := none } } p.conn p.slot
    else { s with pass := some { p with job := none } }

def Phase.afterSlot (i : Nat) : Phase := if i + 1 < cliMaxClients then .slots (i + 1) else .sweep 0

def Phase.afterSweep (i : Nat) : Phase := if i + 1 < cliMaxClients then .sweep (i + 1) else .poll

def login (s : State) (i : SlotId) (conn : Nat) (auth : Nat → Name → Bool) (buf : List UInt8) : State :=
  let cl := (cliHandleLoginInput auth 0 (s.slots i) buf).1
  let s := (s.withSlot i fun _ => cl).note (.input conn (s.owner i))
  if cl.pendingClose then s.note (.closing conn (s.owner i)) else s

/-- The turn of slot `i` with what `itsRecv` has returned. -/
def visit (s : State) (i : SlotId) (conn : Nat) (auth : Nat → Name → Bool) (buf : List UInt8) : State :=
  let cl := s.slots i
  if cl.loginRequired && !cl.authed then
    { login s i conn auth buf with cliActiveSlot := none, phase := .afterSlot i }
  else
    { s with
      cliActiveSlot := some i
      pass := some ⟨i, conn, if cl.mode = .ansi then .ansi else .line, buf, none⟩ }

def sweep (s : State) (i : SlotId) (drained : Bool) : State :=
  let cl := s.slots i
  let s := { s with phase := .afterSweep i }
  if cl.pendingClose then
    match cl.itsHandle with
    | none => s.withSlot i fun cl => { cl with pendingClose := false }
    | some h => if drained then { s with live := update s.live h none }.clearSlot i else s
  else s

/-- One step. The transport drops a connection whenever its peer closes it; a
command writes, reads, asks for the end of its session and opens connections of its
own as it likes, and the inbox is polled at the top of the loop and inside reads. -/
inductive Action
  | poll (d : Dispatch)
  | scan
  | visit (auth : Nat → Name → Bool) (buf : List UInt8)
  | skip
  | byte (suffix : Name)
  | leave
  | sweep (drained : Bool)
  | write
  | exit
  | dial (handle : Nat)
  | read
  | readPoll (d : Dispatch)
  | readRecv
  | readDone
  | done
  | gone (handle : Nat)

def Dispatch.comes (s : State) : Dispatch → Bool
  | .connect handle _ => s.live handle = none
  | .disconnect _ => true

def commandStep (s : State) (p : Pass) (job : Job) : Action → Option State
  | .exit => if job.read = none then some (cliRequestSessionEnd s p.conn) else none
  | .dial handle =>
    if job.read = none ∧ s.live handle = none then
      some { s with live := update s.live handle (some s.next), next := s.next + 1 }
    else none
  | .read =>
    if job.read = none then
      some { s with pass := some { p with job := some { job with read := s.cliActiveSlot.bind fun i => (s.slots i).itsHandle } } }
    else none
  | .readPoll d => if job.read ≠ none ∧ d.comes s then some (dispatch s d) else none
  | .readRecv => (job.read.bind s.live).map fun conn => s.note (.input conn (some p.conn))
  | .readDone => some { s with pass := some { p with job := some { job with read := none } } }
  | .done => if job.read = none then some (commandDone s p job) else none
  | _ => none

def passStep (s : State) (p : Pass) (a : Action) : Option State :=
  match a with
  | .write => some (itsCliWrite s p.conn)
  | a =>
    match p.job with
    | some job => commandStep s p job a
    | none =>
      match p.rest, a with
      | c :: rest, .byte suffix => some (if p.branch = .ansi then editByte s p c rest suffix else lineByte s p c rest)
      | [], .leave => some { s with cliActiveSlot := none, pass := none, phase := .afterSlot p.slot }
      | _, _ => none

def loopStep (s : State) : Action → Option State
  | .poll d => if s.phase = .poll ∧ d.comes s then some (dispatch s d) else none
  | .scan => if s.phase = .poll then some { s with phase := .slots 0 } else none
  | .visit auth buf =>
    match s.phase with
    | .slots i =>
      if hi : i < cliMaxClients then
        if buf = [] ∨ 128 < buf.length then none
        else ((s.slots ⟨i, hi⟩).itsHandle.bind s.live).map fun conn => visit s ⟨i, hi⟩ conn auth buf
      else none
    | _ => none
  | .skip =>
    match s.phase with
    | .slots i => some { s with phase := .afterSlot i }
    | _ => none
  | .sweep drained =>
    match s.phase with
    | .sweep i => if hi : i < cliMaxClients then some (sweep s ⟨i, hi⟩ drained) else none
    | _ => none
  | _ => none

def step (s : State) (a : Action) : Option State :=
  match a with
  | .gone handle => some { s with live := update s.live handle none }
  | a =>
    match s.pass with
    | some p => passStep s p a
    | none => loopStep s a

def start : State := ⟨fun _ => .blank, fun _ => none, fun _ => none, none, [], .poll, none, 0, []⟩

end Spangap.Sessions
