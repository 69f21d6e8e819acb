import Spangap.Runs

namespace Spangap.Pickup

open Runs

abbrev TaskHandle := Nat

inductive Kind
  | connect
  | discFromClient
  | discFromServer
  | forward
  | aux
  | connectCancel
  deriving DecidableEq, Repr

inductive Wait
  | delivery
  | pickup
  deriving DecidableEq, Repr

/-- A mailbox message. The identifier is not in the header the code sends; it
only lets a statement name the message a call has enqueued. -/
structure Msg where
  id : Nat
  kind : Kind
  pickup : Bool
  port : Nat
  sender : TaskHandle
  len : Nat
  deriving DecidableEq, Repr

/-- One slot of the task table. The activations of the dispatcher on the
task's stack are listed innermost first, since a callback may poll again. A
failed allocation leaves the semaphore or the queue out. -/
structure Entry where
  task : Option TaskHandle
  pickupSem : Option Bool
  inbox : Option (List Msg)
  inboxDepth : Nat
  inboxMsgMax : Nat
  auxCallbacks : List Nat
  dispatching : List Msg
  deriving DecidableEq, Repr

def unused : Entry := ⟨none, none, none, 0, 0, [], []⟩

/-- Where a task stands in an aux send, with the table slots it has cached.
Between the arm and the enqueue the semaphore is drained and nothing is queued. -/
inductive Call
  | idle
  | armed (me : Option Nat) (te port len : Nat)
  | waiting (me id : Nat)
  deriving DecidableEq, Repr

structure State where
  slots : Nat → Entry
  taskCount : Nat
  call : TaskHandle → Call
  next : Nat
  served : List Nat

def init : State := ⟨fun _ => unused, 0, fun _ => .idle, 0, []⟩

def maxTasks : Nat := 48

def maxPorts : Nat := 8

def setSlot (s : State) (i : Nat) (e : Entry) : State :=
  { s with slots := Function.update s.slots i e }

def setCall (s : State) (t : TaskHandle) (c : Call) : State :=
  { s with call := Function.update s.call t c }

def taskFind (s : State) (t : TaskHandle) : Option Nat :=
  (List.range s.taskCount).find? fun i => (s.slots i).task = some t

/-- A fresh slot. The flags are the outcomes of the semaphore and queue
allocations; a zero size or depth asks for the configured default. -/
def newEntry (t : TaskHandle) (sem queue : Bool) (inboxMaxMsgLen inboxDepth : Nat) : Entry where
  task := some t
  pickupSem := if sem then some false else none
  inbox := if queue then some [] else none
  inboxDepth := if 0 < inboxDepth then inboxDepth else 32
  inboxMsgMax := max 320 (if 0 < inboxMaxMsgLen then inboxMaxMsgLen else 4096)
  auxCallbacks := []
  dispatching := []

def taskFindOrCreate (s : State) (t : TaskHandle) (sem queue : Bool)
    (inboxMaxMsgLen inboxDepth : Nat) : State × Option Nat :=
  match taskFind s t with
  | some i => (s, some i)
  | none =>
    if maxTasks ≤ s.taskCount then (s, none)
    else
      (setSlot { s with taskCount := s.taskCount + 1 } s.taskCount
        (newEntry t sem queue inboxMaxMsgLen inboxDepth), some s.taskCount)

def auxRegistered (e : Entry) (port : Nat) : Bool := e.auxCallbacks.contains port

/-- Port registration, idempotent and bounded by the table of ports. -/
def addPort (e : Entry) (port : Nat) : Entry :=
  if auxRegistered e port || maxPorts ≤ e.auxCallbacks.length then e
  else { e with auxCallbacks := e.auxCallbacks ++ [port] }

/-- For a pickup wait the caller gets a slot, and its semaphore is drained
once. Without a slot or a semaphore the send is refused. -/
def pickupArm (s : State) (t : TaskHandle) (sem queue : Bool) :
    Wait → State × Option (Option Nat)
  | .delivery => (s, some none)
  | .pickup =>
    match taskFindOrCreate s t sem queue 0 0 with
    | (s, none) => (s, none)
    | (s, some i) =>
      match (s.slots i).pickupSem with
      | none => (s, none)
      | some _ => (setSlot s i { s.slots i with pickupSem := some false }, some (some i))

def inboxEnqueue (s : State) (te : Nat) (m : Msg) : Option State :=
  match (s.slots te).inbox with
  | none => none
  | some q =>
    if q.length < (s.slots te).inboxDepth then
      some (setSlot { s with next := s.next + 1 } te { s.slots te with inbox := some (q ++ [m]) })
    else none

/-- The give that ends a dispatch. A sender without a slot, or whose slot has
no semaphore, gets nothing. -/
def givePickup (s : State) (m : Msg) : State :=
  if m.pickup then
    match taskFind s m.sender with
    | none => s
    | some i =>
      if (s.slots i).pickupSem.isSome then
        setSlot s i { s.slots i with pickupSem := some true }
      else s
  else s

inductive Action
  | register (t : TaskHandle) (sem queue : Bool) (inboxMaxMsgLen inboxDepth : Nat)
  | onAux (t : TaskHandle) (sem queue : Bool) (port : Nat)
  | die (t : TaskHandle)
  | send (t target : TaskHandle) (port len : Nat) (wait : Wait) (owned sem queue : Bool)
  | enqueue (t : TaskHandle)
  | sendFail (t : TaskHandle)
  | post (t target : TaskHandle) (kind : Kind) (port len : Nat)
  | take (t : TaskHandle)
  | timeout (t : TaskHandle)
  | receive (t : TaskHandle)
  | finish (t : TaskHandle)
  deriving DecidableEq, Repr

/-- Both aux sends up to and including the arm. The owned variant checks the
mailbox guard here, the copying one only when it builds the message. -/
def sendAux (s : State) (t target : TaskHandle) (port len : Nat) (wait : Wait)
    (owned sem queue : Bool) : State :=
  match taskFind s target with
  | none => s
  | some te =>
    if !auxRegistered (s.slots te) port then s
    else if owned && decide ((s.slots te).inboxMsgMax < len) then s
    else
      match pickupArm s t sem queue wait with
      | (s, none) => s
      | (s, some me) => setCall s t (.armed me te port len)

def enqueueAux (s : State) (t : TaskHandle) (me : Option Nat) (te port len : Nat) : Option State :=
  if (s.slots te).inboxMsgMax < len then none
  else
    (inboxEnqueue s te ⟨s.next, .aux, me.isSome, port, t, len⟩).map fun u =>
      setCall u t (me.elim .idle fun i => .waiting i s.next)

/-- One step of one task. A task inside an aux send takes only the steps of
that send. A callback's own behaviour is whatever its task does between a
receive and the matching finish. -/
def step (s : State) : Action → Option State
  | .register t sem queue len depth =>
    if s.call t = .idle then some (taskFindOrCreate s t sem queue len depth).1 else none
  | .onAux t sem queue port =>
    if s.call t = .idle then
      match taskFindOrCreate s t sem queue 0 0 with
      | (s, none) => some s
      | (s, some i) => some (setSlot s i (addPort (s.slots i) port))
    else none
  | .die t =>
    match taskFind s t with
    | none => some (setCall s t .idle)
    | some i => some (setCall (setSlot s i { s.slots i with task := none }) t .idle)
  | .send t target port len wait owned sem queue =>
    if s.call t = .idle then some (sendAux s t target port len wait owned sem queue) else none
  | .enqueue t =>
    match s.call t with
    | .armed me te port len => enqueueAux s t me te port len
    | _ => none
  | .sendFail t =>
    match s.call t with
    | .armed _ _ _ _ => some (setCall s t .idle)
    | _ => none
  | .post t target kind port len =>
    if s.call t = .idle then
      (taskFind s target).bind fun te => inboxEnqueue s te ⟨s.next, kind, false, port, t, len⟩
    else none
  | .take t =>
    match s.call t with
    | .waiting me _ =>
      if (s.slots me).pickupSem = some true then
        some (setCall (setSlot s me { s.slots me with pickupSem := some false }) t .idle)
      else none
    | _ => none
  | .timeout t =>
    match s.call t with
    | .waiting me _ =>
      if (s.slots me).pickupSem = some true then none else some (setCall s t .idle)
    | _ => none
  | .receive t =>
    if s.call t = .idle then
      (taskFind s t).bind fun i => match (s.slots i).inbox with
        | some (m :: q) =>
          some (setSlot s i { s.slots i with
            inbox := some q, dispatching := m :: (s.slots i).dispatching })
        | _ => none
    else none
  | .finish t =>
    if s.call t = .idle then
      (taskFind s t).bind fun i => match (s.slots i).dispatching with
        | m :: ms =>
          let u := givePickup (setSlot s i { s.slots i with dispatching := ms }) m
          some { u with served := m.id :: u.served }
        | [] => none
    else none

end Spangap.Pickup
