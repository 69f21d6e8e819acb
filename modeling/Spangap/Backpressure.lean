import Spangap.PacketLink

namespace Spangap.Backpressure

open PacketLink Runs

/-- The pool entry of a direction of a legacy packet connection. Its stream
buffer holds one byte short of its size. -/
structure Entry where
  size : Nat
  used : Nat
  deriving DecidableEq, Repr

def Entry.spaces (e : Entry) : Nat := e.size - 1 - e.used

inductive Direction
  | link (L : Link Msg)
  | legacy (e : Entry)
  deriving DecidableEq, Repr

def itsSpacesAvailable : Direction → Nat
  | .link L => linkSendSpace L
  | .legacy e => if 4 < e.spaces then e.spaces - 4 else 0

/-- A send that does not wait and finds memory for its copy. -/
def itsSend (data : Msg) : Direction → Direction × Nat
  | .link L =>
    let r := itsSendPacket false true false data data.length L
    (.link r.1, r.2)
  | .legacy e =>
    let total := 4 + data.length
    if data.length = 0 ∨ 0xFFFFFF < data.length then (.legacy e, 0)
    else if e.size < total then (.legacy e, 0)
    else if total ≤ e.spaces then (.legacy { e with used := e.used + total }, data.length)
    else (.legacy e, 0)

/-- No length passes the one test and fails the other: on a link that is not
idle the window leaves out the guard, in legacy mode the room leaves out the
three bytes that the header has for the length. -/
def Honest (n : Nat) : Direction → Prop
  | .link L => n ≤ L.maxMsg ∨ L.depth ≤ L.queue.length ∨ L.outstanding = 0 ∨ L.byteCap < L.outstanding + n
  | .legacy e => n ≤ 0xFFFFFF ∨ e.spaces < 4 + n

instance (n : Nat) (d : Direction) : Decidable (Honest n d) :=
  match d with
  | .link _ => inferInstanceAs (Decidable (_ ∨ _))
  | .legacy _ => inferInstanceAs (Decidable (_ ∨ _))

section Query

variable {data : Msg} {L : Link Msg} {e : Entry}

theorem linkSendSpace_eq (L : Link Msg) : linkSendSpace L =
    if L.depth ≤ L.queue.length then 0 else if L.outstanding = 0 then L.maxMsg else L.byteCap - L.outstanding := by
  have hslot : L.spacesAvailable < sizeofDesc ↔ L.depth ≤ L.queue.length := by
    rw [Link.spacesAvailable, Link.bytesAvailable, sizeofDesc]
    omega
  rw [linkSendSpace]
  split_ifs <;> omega

theorem link_accepts (hn : 1 ≤ data.length) : (itsSend data (.link L)).2 = data.length ↔
    data.length ≤ L.maxMsg ∧ L.queue.length < L.depth ∧ (L.outstanding = 0 ∨ L.outstanding + data.length ≤ L.byteCap) := by
  rw [← linkCanSend_iff, itsSend, itsSendPacket, linkWaitForSpace]
  split_ifs <;> grind

theorem legacy_accepts (hn : 1 ≤ data.length) : (itsSend data (.legacy e)).2 = data.length ↔
    data.length ≤ 0xFFFFFF ∧ 4 + data.length ≤ e.spaces := by
  have hspaces : e.spaces ≤ e.size := Nat.le_trans (Nat.sub_le _ _) (Nat.sub_le _ _)
  rw [itsSend]
  split_ifs <;> grind

/-- The space that is reported is the largest message that is taken. -/
theorem spaces_tell (d : Direction) (hn : 1 ≤ data.length) :
    ((itsSend data d).2 = data.length ↔ data.length ≤ itsSpacesAvailable d) ↔ Honest data.length d := by
  cases d with
  | link L =>
    rw [link_accepts hn, itsSpacesAvailable, linkSendSpace_eq, Honest]
    split_ifs <;> omega
  | legacy e =>
    rw [legacy_accepts hn, itsSpacesAvailable, Honest]
    split_ifs <;> omega

end Query

/-- A link with a window of 100 bytes and messages of 50, after a message of ten. -/
def busy : Option (Link Msg) :=
  ([.acquire true true 4 100 50, .send 0 false true false (List.replicate 10 0)].foldl PacketLink.step start).links[0]?

theorem spaces_tell_hello :
    (itsSend (List.replicate 5 0) (.legacy ⟨16, 6⟩)).2 = 5 ↔ 5 ≤ itsSpacesAvailable (.legacy ⟨16, 6⟩) :=
  (@spaces_tell (List.replicate 5 0) (.legacy ⟨16, 6⟩) (by decide)).mpr (by decide)

/-- There are 90 bytes of space, and a message of 60 is not taken. -/
theorem spaces_mislead : busy.map (fun L => itsSpacesAvailable (.link L)) = some 90 ∧
    busy.map (fun L => (itsSend (List.replicate 60 0) (.link L)).2) = some 0 := by
  decide +kernel

/-- Where the sender stands in its wait for some room. -/
inductive Sender
  | out
  | loop (n : Nat)
  | cleared (n : Nat)
  | armed (n : Nat)
  | blocked (n : Nat)
  | woken (n : Nat)
  deriving DecidableEq, Repr

/-- Where the receiver stands in a call. A record of a link that is popped is
still charged; in legacy mode the sender's threshold is looked at twice. -/
inductive Receiver
  | idle
  | popped (len : Nat)
  | reading
  | testing
  | passed
  | giving
  deriving DecidableEq, Repr

/-- A direction of a live connection, with its threshold and its semaphore. -/
structure State where
  dir : Direction
  sender : Sender
  receiver : Receiver
  freeNotify : Nat
  token : Bool
  deriving DecidableEq, Repr

def Direction.admits (n : Nat) : Direction → Bool
  | .link L => linkCanSend L n
  | .legacy e => n ≤ e.spaces

def leave (s : State) : State := { s with sender := .out, freeNotify := 0 }

/-- The steps of `itsWaitForSpace` and `linkWaitForSpace`, and the send after it. -/
inductive SendAct
  | wait (n : Nat)
  | send (data : Msg)
  | clear
  | arm
  | look
  | wake
  | timeout
  deriving DecidableEq, Repr

def senderStep (s : State) : Sender → SendAct → Option State
  | .out, .wait n => some (if n = 0 ∨ s.dir.admits n then s else { s with sender := .loop n })
  | .out, .send data => some { s with dir := (itsSend data s.dir).1 }
  | .loop n, .clear => some { s with sender := .cleared n, token := false }
  | .cleared n, .arm => some { s with sender := .armed n, freeNotify := n }
  | .armed n, .look => some (if s.dir.admits n then leave s else { s with sender := .blocked n })
  | .blocked n, .wake => if s.token then some { s with sender := .woken n, token := false } else none
  | .blocked _, .timeout => some (leave s)
  | .woken n, .look => some (if s.dir.admits n then leave s else { s with sender := .loop n })
  | .woken _, .timeout => some (leave s)
  | _, _ => none

/-- The steps of `itsRecv`, `itsRecvRef` and `itsReset`. -/
inductive RecvAct
  | pop
  | uncharge
  | read (k : Nat)
  | test
  | disarm
  | give
  | reset
  deriving DecidableEq, Repr

def receiverStep (s : State) : Receiver → RecvAct → Direction → Option State
  | .idle, .pop, .link L =>
    match L.queue with
    | [] => none
    | d :: ds => some { s with dir := .link { L with queue := ds }, receiver := .popped d.len }
  | .popped n, .uncharge, .link L =>
    some { s with dir := .link { L with outstanding := L.outstanding - n }, receiver := .giving }
  | .idle, .reset, .link L =>
    some { s with dir := .link (linkPurge L).1, receiver := if L.made then .giving else .idle }
  | .idle, .reset, .legacy e => some { s with dir := .legacy { e with used := 0 } }
  | .idle, .read k, .legacy e => some { s with dir := .legacy { e with used := e.used - k }, receiver := .reading }
  | .reading, .read k, .legacy e => some { s with dir := .legacy { e with used := e.used - k } }
  | .reading, .test, .legacy _ => some { s with receiver := if s.freeNotify = 0 then .idle else .testing }
  | .testing, .test, .legacy e => some { s with receiver := if e.spaces < s.freeNotify then .idle else .passed }
  | .passed, .disarm, .legacy _ => some { s with freeNotify := 0, receiver := .giving }
  | .giving, .give, _ => some { s with token := true, receiver := .idle }
  | _, _, _ => none

def step (s : State) : SendAct ⊕ RecvAct → Option State
  | .inl a => senderStep s s.sender a
  | .inr a => receiverStep s s.receiver a s.dir

/-- A sender that finds its threshold gone, or room, is about to be woken. -/
structure Inv (s : State) : Prop where
  pos : ∀ n, s.sender = .loop n ∨ s.sender = .cleared n ∨ s.sender = .armed n ∨ s.sender = .blocked n ∨ s.sender = .woken n →
    0 < n
  armed : ∀ n, s.sender = .armed n ∨ s.sender = .blocked n → s.freeNotify = n ∨ s.receiver = .giving ∨ s.token = true
  awake : ∀ n, s.sender = .blocked n → s.dir.admits n = true → s.receiver ≠ .idle ∨ s.token = true

/-- A legacy connection is not reset while its sender is blocked. -/
def gentle (s : State) : SendAct ⊕ RecvAct → Bool
  | .inr .reset =>
    match s.dir, s.sender with
    | .legacy _, .blocked _ => false
    | _, _ => true
  | _ => true

section Waits

variable {s t : State}

-- Only a look that finds no room leads into the take, and the threshold is set by then.
theorem inv_sender (hs : Inv s) {a : SendAct} (h : senderStep s s.sender a = some t) : Inv t := by
  obtain ⟨hpos, harmed, hawake⟩ := hs
  generalize hp : s.sender = p at h hpos harmed hawake
  fun_cases senderStep s p a
  all_goals
    simp only [senderStep] at h
    refine ⟨?_, ?_, ?_⟩ <;> grind [leave]

theorem inv_receiver (hs : Inv s) {a : RecvAct} (hok : gentle s (.inr a) = true) (h : receiverStep s s.receiver a s.dir = some t) :
    Inv t := by
  obtain ⟨hpos, harmed, hawake⟩ := hs
  unfold receiverStep at h
  split at h
  all_goals refine ⟨?_, ?_, ?_⟩ <;> grind [gentle, Direction.admits, linkPurge]

theorem inv_step (s : State) (x : SendAct ⊕ RecvAct) (t : State) (hs : Inv s) (hok : gentle s x = true)
    (h : step s x = some t) : Inv t := by
  cases x with
  | inl a => exact inv_sender hs h
  | inr a => exact inv_receiver hs hok h

theorem inv_start (d : Direction) : Inv ⟨d, .out, .idle, 0, false⟩ := by
  constructor <;> simp

/-- A blocked sender that nobody is about to wake lacks the room. -/
theorem blocked_lacks_room (d : Direction) {xs : List (SendAct ⊕ RecvAct)} {n : Nat}
    (hok : Meets step (fun s x => gentle s x = true) ⟨d, .out, .idle, 0, false⟩ xs)
    (hrun : run step ⟨d, .out, .idle, 0, false⟩ xs = some s)
    (hblocked : s.sender = .blocked n) (hidle : s.receiver = .idle) (htoken : s.token = false) : s.dir.admits n = false := by
  have hs : Inv s := run_invariant inv_step (inv_start d) hok hrun
  by_contra hroom
  rcases hs.awake n hblocked (by simpa using hroom) with h | h
  · exact h hidle
  · exact absurd (htoken.symm.trans h) (by simp)

end Waits

/-- A sender waits for ten bytes in a full buffer of sixteen. -/
def filled : List (SendAct ⊕ RecvAct) := [.inl (.wait 10), .inl .clear, .inl .arm, .inl .look]

theorem blocked_lacks_room_full :
    run step ⟨.legacy ⟨16, 15⟩, .out, .idle, 0, false⟩ filled = some ⟨.legacy ⟨16, 15⟩, .blocked 10, .idle, 10, false⟩ ∧
      Direction.admits 10 (.legacy ⟨16, 15⟩) = false :=
  ⟨by decide, @blocked_lacks_room ⟨.legacy ⟨16, 15⟩, .blocked 10, .idle, 10, false⟩ (.legacy ⟨16, 15⟩) filled 10 (by decide)
    (by decide) rfl rfl rfl⟩

/-- The reset of a legacy connection makes room and wakes nobody. -/
theorem reset_strands : run step ⟨.legacy ⟨16, 15⟩, .out, .idle, 0, false⟩ (filled ++ [.inr .reset]) =
    some ⟨.legacy ⟨16, 0⟩, .blocked 10, .idle, 10, false⟩ ∧ Direction.admits 10 (.legacy ⟨16, 0⟩) = true := by
  decide

end Spangap.Backpressure
