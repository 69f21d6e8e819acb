import Mathlib.Algebra.GroupWithZero.Nat
import Mathlib.Data.List.Basic
import Spangap.Runs

namespace Spangap.PacketLink

open List Option Function Bool

variable {β : Type}

/-- A queued message: its length and the block that holds it. -/
structure Desc (β : Type) where
  len : Nat
  ptr : β
  deriving DecidableEq, Repr

/-- A descriptor ring. `made` tells whether the ring exists; its records stand
in `queue`, oldest first. -/
structure Link (β : Type) where
  made : Bool
  sem : Bool
  queue : List (Desc β)
  depth : Nat
  byteCap : Nat
  maxMsg : Nat
  outstanding : Nat
  inUse : Bool
  deriving DecidableEq, Repr

def maxLinks : Nat := 256

def sizeofDesc : Nat := 8

namespace Link

def bytesAvailable (L : Link β) : Nat := sizeofDesc * L.queue.length

/-- A stream buffer holds one byte short of its size, and the ring is made one
record larger than its depth. -/
def spacesAvailable (L : Link β) : Nat := (L.depth + 1) * sizeofDesc - 1 - L.bytesAvailable

end Link

def linkSendSpace (L : Link β) : Nat :=
  if L.spacesAvailable < sizeofDesc then 0
  else if L.outstanding = 0 then L.maxMsg
  else if L.outstanding < L.byteCap then L.byteCap - L.outstanding else 0

def linkCanSend (L : Link β) (len : Nat) : Bool :=
  if L.spacesAvailable < sizeofDesc then false
  else decide (L.outstanding = 0 ∨ L.outstanding + len ≤ L.byteCap)

/-- The wait as it ends: with the room there, or `late`, by its timeout or by
the end of the connection. -/
def linkWaitForSpace (late : Bool) (L : Link β) (len : Nat) : Bool := linkCanSend L len && !late

/-- The ring takes a record only where a whole one fits. -/
def linkEnqueue (L : Link β) (ptr : β) (len : Nat) : Link β :=
  { L with
    outstanding := L.outstanding + len
    queue := if sizeofDesc ≤ L.spacesAvailable then L.queue ++ [⟨len, ptr⟩] else L.queue }

def linkDequeue (L : Link β) : Option (Desc β × Link β) :=
  match L.queue with
  | [] => none
  | d :: ds => some (d, { L with queue := ds, outstanding := L.outstanding - d.len })

/-- Empty the ring of a connection that stays, with the records that were in it. -/
def linkPurge (L : Link β) : Link β × List (Desc β) :=
  if L.made then ({ L with queue := [], outstanding := 0 }, L.queue) else (L, [])

def linkFree (L : Link β) : Link β × List (Desc β) :=
  if L.made then ({ L with queue := [], inUse := false, outstanding := 0 }, L.queue)
  else ({ L with inUse := false, outstanding := 0 }, [])

def fresh (made sem : Bool) (depth byteCap maxMsg : Nat) : Link β :=
  ⟨made, sem, [], depth, byteCap, maxMsg, 0, true⟩

/-- A free ring of the depth, else a slot whose ring was never made, else a new
slot. `ringOk` and `semOk` say whether the memory for them is there. -/
def linkAcquire (ringOk semOk : Bool) (depth byteCap maxMsg : Nat) (links : List (Link β)) :
    List (Link β) × Option Nat :=
  let depth := if depth = 0 then 1 else depth
  match links.findIdx? fun L => !L.inUse && L.made && L.depth == depth with
  | some i => (links.modify i fun L => fresh true L.sem depth byteCap maxMsg, some i)
  | none =>
    match links.findIdx? fun L => !L.inUse && !L.made with
    | some i =>
      (links.modify i fun L => fresh ringOk (L.sem || semOk) depth byteCap maxMsg,
        if ringOk && ((links[i]?.map Link.sem).getD false || semOk) then some i else none)
    | none =>
      if maxLinks ≤ links.length then (links, none)
      else (links ++ [fresh ringOk semOk depth byteCap maxMsg], if ringOk && semOk then some links.length else none)

/-- `ok` says whether a copy of the message found memory; an owned message is
taken as it is. -/
def itsSendPacket (late ok owned : Bool) (ptr : β) (len : Nat) (L : Link β) : Link β × Nat :=
  if len = 0 ∨ L.maxMsg < len then (L, 0)
  else if linkWaitForSpace late L len then
    if owned || ok then (linkEnqueue L ptr len, len) else (L, 0)
  else (L, 0)

/-- The bytes of a message. A block that the transport holds is written by
nobody, so that a record can stand for its bytes. -/
abbrev Msg := List UInt8

def itsRecv (maxLen : Nat) (L : Link Msg) : Link Msg × Option Msg :=
  match linkDequeue L with
  | none => (L, none)
  | some (d, L') => (L', if maxLen < d.len then none else some (d.ptr.take d.len))

def itsRecvRef (L : Link Msg) : Link Msg × Option Msg :=
  match linkDequeue L with
  | none => (L, none)
  | some (d, L') => (L', some d.ptr)

/-- A stretch between two resets: the messages sent with success, the messages
received, and those the reset threw away. -/
structure Stretch where
  sent : List Msg
  received : List Msg
  discarded : List Msg
  deriving DecidableEq, Repr

/-- One direction of one connection, as its two ends see it. -/
structure Session where
  depth : Nat
  byteCap : Nat
  sent : List Msg
  received : List Msg
  past : List Stretch
  deriving DecidableEq, Repr

/-- The link table, the directions of the open connections by the index of
their link, and those of the closed ones. -/
structure Sys where
  links : List (Link Msg)
  sessions : Nat → Option Session
  closed : List Session

inductive Action
  | acquire (ringOk semOk : Bool) (depth byteCap maxMsg : Nat)
  | send (i : Nat) (late ok owned : Bool) (data : Msg)
  | recv (i maxLen : Nat)
  | recvRef (i : Nat)
  | reset (i : Nat)
  | teardown (i : Nat)
  deriving DecidableEq, Repr

def Session.end (σ : Session) (dropped : List (Desc Msg)) : Session :=
  { σ with sent := [], received := [], past := σ.past ++ [⟨σ.sent, σ.received, dropped.map Desc.ptr⟩] }

def Session.send (σ : Session) (data : Msg) (n : Nat) : Session :=
  if n = 0 then σ else { σ with sent := σ.sent ++ [data] }

def Session.receive (σ : Session) (m : Option Msg) : Session := { σ with received := σ.received ++ m.toList }

/-- Only a connection reaches its link, so that nothing happens at an index
that no connection holds. -/
def onLink (s : Sys) (i : Nat) (f : Session → Link Msg → Sys) : Sys :=
  match s.sessions i, s.links[i]? with
  | some σ, some L => f σ L
  | _, _ => s

def Sys.put (s : Sys) (i : Nat) (L : Link Msg) (σ : Option Session) : Sys :=
  { s with links := s.links.set i L, sessions := update s.sessions i σ }

theorem Sys.sessions_put (s : Sys) (i : Nat) (L : Link Msg) (σ : Option Session) :
    (s.put i L σ).sessions = update s.sessions i σ := rfl

def step (s : Sys) : Action → Sys
  | .acquire ringOk semOk depth byteCap maxMsg =>
    let r := linkAcquire ringOk semOk depth byteCap maxMsg s.links
    match r.2 with
    | none => { s with links := r.1 }
    | some i =>
      { s with
        links := r.1
        sessions := update s.sessions i (some ⟨if depth = 0 then 1 else depth, byteCap, [], [], []⟩) }
  | .send i late ok owned data =>
    onLink s i fun σ L =>
      let r := itsSendPacket late ok owned data data.length L
      s.put i r.1 (some (σ.send data r.2))
  | .recv i maxLen =>
    onLink s i fun σ L =>
      let r := itsRecv maxLen L
      s.put i r.1 (some (σ.receive r.2))
  | .recvRef i =>
    onLink s i fun σ L =>
      let r := itsRecvRef L
      s.put i r.1 (some (σ.receive r.2))
  | .reset i =>
    onLink s i fun σ L =>
      let r := linkPurge L
      s.put i r.1 (some (σ.end r.2))
  | .teardown i =>
    onLink s i fun σ L =>
      let r := linkFree L
      { s.put i r.1 none with closed := s.closed ++ [σ.end r.2] }

def start : Sys := ⟨[], fun _ => none, []⟩

/-- The receiver's buffer is large enough for the message it gets. -/
def LargeEnough (s : Sys) : Action → Prop
  | .recv i maxLen => ∀ d ∈ s.links[i]?.bind fun L => L.queue.head?, d.len ≤ maxLen
  | _ => True

instance (s : Sys) (a : Action) : Decidable (LargeEnough s a) :=
  match a with
  | .recv i maxLen => inferInstanceAs (Decidable (∀ d ∈ s.links[i]?.bind fun L => L.queue.head?, d.len ≤ maxLen))
  | .acquire .. | .send .. | .recvRef _ | .reset _ | .teardown _ => .isTrue trivial

def Stretch.Whole (p : Stretch) : Prop := p.sent = p.received ++ p.discarded

/-- A link serves its connection: what was sent and neither received nor
discarded is queued, and the two limits hold. -/
structure Serves (σ : Session) (L : Link Msg) : Prop where
  inUse : L.inUse = true
  made : L.made = true
  depth : L.depth = σ.depth
  byteCap : L.byteCap = σ.byteCap
  lens : ∀ d ∈ L.queue, d.len = d.ptr.length ∧ 0 < d.len
  charged : L.outstanding = (L.queue.map Desc.len).sum
  slots : L.queue.length ≤ σ.depth
  window : 1 < L.queue.length → L.outstanding ≤ σ.byteCap
  fifo : σ.sent = σ.received ++ L.queue.map Desc.ptr
  past : ∀ p ∈ σ.past, p.Whole

section Links

variable {σ : Session} {L L' : Link Msg} {d : Desc Msg} {data : Msg} {late ok owned ringOk semOk : Bool}
  {n depth byteCap maxMsg : Nat}

theorem linkCanSend_iff (L : Link β) (n : Nat) :
    linkCanSend L n = true ↔
      L.queue.length < L.depth ∧ (L.outstanding = 0 ∨ L.outstanding + n ≤ L.byteCap) := by
  have hroom : L.spacesAvailable < sizeofDesc ↔ ¬ L.queue.length < L.depth := by
    rw [Link.spacesAvailable, Link.bytesAvailable, sizeofDesc]
    omega
  rw [linkCanSend]
  by_cases h : L.queue.length < L.depth
  · rw [if_neg (by rw [hroom]; exact not_not_intro h), decide_eq_true_iff]
    exact ⟨fun hw => ⟨h, hw⟩, And.right⟩
  · rw [if_pos (hroom.mpr h)]
    exact ⟨fun h => absurd h false_ne_true, fun hw => absurd hw.1 h⟩

theorem queue_linkEnqueue {L : Link β} (h : L.queue.length < L.depth) (ptr : β) (n : Nat) :
    (linkEnqueue L ptr n).queue = L.queue ++ [⟨n, ptr⟩] := by
  refine if_pos ?_
  rw [Link.spacesAvailable, Link.bytesAvailable, sizeofDesc]
  omega

theorem Serves.idle_iff (h : Serves σ L) : L.outstanding = 0 ↔ L.queue = [] := by
  rw [h.charged]
  cases hq : L.queue with
  | nil => exact ⟨fun _ => rfl, fun _ => rfl⟩
  | cons d ds =>
    have hpos := (h.lens d (hq ▸ mem_cons_self)).2
    rw [map_cons, sum_cons]
    exact ⟨fun hsum => absurd hsum (by omega), fun hnil => absurd hnil (cons_ne_nil _ _)⟩

theorem serves_send (h : Serves σ L) :
    Serves (σ.send data (itsSendPacket late ok owned data data.length L).2)
      (itsSendPacket late ok owned data data.length L).1 := by
  unfold itsSendPacket
  split
  · exact h
  split
  next hlen hwait =>
    split
    · have hcan : linkCanSend L data.length = true := (Bool.and_eq_true_iff.mp hwait).1
      obtain ⟨hslot, hwin⟩ := (linkCanSend_iff L data.length).mp hcan
      have hpos : 0 < data.length := by omega
      have hq := queue_linkEnqueue hslot data data.length
      rw [Session.send, if_neg (by omega)]
      exact
        { inUse := h.inUse
          made := h.made
          depth := h.depth
          byteCap := h.byteCap
          past := h.past
          lens := by
            intro d hd
            rw [hq, mem_append, mem_singleton] at hd
            rcases hd with hd | rfl
            · exact h.lens d hd
            · exact ⟨rfl, hpos⟩
          charged := by
            rw [hq, map_append, sum_append, ← h.charged]
            rfl
          slots := by
            rw [hq, length_append, length_singleton, ← h.depth]
            exact hslot
          window := by
            -- with something queued already the link is not idle, so the window was checked
            intro hmany
            rw [hq, length_append, length_singleton] at hmany
            rcases hwin with hidle | hwin
            · have hnil := (h.idle_iff).mp hidle
              rw [hnil] at hmany
              simp at hmany
            · rw [← h.byteCap]
              exact hwin
          fifo := by
            rw [hq, map_append, ← append_assoc, ← h.fifo]
            rfl }
    · exact h
  · exact h

theorem linkDequeue_spec {L L' : Link β} {d : Desc β} (h : linkDequeue L = some (d, L')) :
    L.queue = d :: L'.queue ∧ L' = { L with queue := L'.queue, outstanding := L.outstanding - d.len } := by
  unfold linkDequeue at h
  split at h
  · simp at h
  next e es hq =>
    cases h
    exact ⟨hq, rfl⟩

theorem serves_dequeue (h : Serves σ L) (hd : linkDequeue L = some (d, L')) :
    Serves (σ.receive (some d.ptr)) L' ∧ L.queue.head? = some d ∧ d.ptr.take d.len = d.ptr := by
  obtain ⟨hq, hL'⟩ := linkDequeue_spec hd
  generalize L'.queue = es at hq hL'
  subst hL'
  have hlens : ∀ x ∈ d :: es, x.len = x.ptr.length ∧ 0 < x.len := hq ▸ h.lens
  have hcharged : L.outstanding = d.len + (es.map Desc.len).sum := by
    rw [h.charged, hq]
    exact sum_cons
  have hslots : es.length + 1 ≤ σ.depth := by
    have := h.slots
    rwa [hq, length_cons] at this
  refine ⟨⟨h.inUse, h.made, h.depth, h.byteCap, ?_, ?_, ?_, ?_, ?_, h.past⟩, ?_, ?_⟩
  · exact fun x hx => hlens x (mem_cons_of_mem _ hx)
  · exact (congrArg (· - d.len) hcharged).trans (Nat.add_sub_cancel_left ..)
  · exact Nat.le_of_succ_le hslots
  · intro hmany
    have hwin := h.window (by rw [hq, length_cons]; exact Nat.lt_succ_of_lt hmany)
    exact Nat.le_trans (Nat.sub_le _ _) hwin
  · show σ.sent = σ.received ++ [d.ptr] ++ es.map Desc.ptr
    rw [h.fifo, hq, append_assoc]
    rfl
  · rw [hq]
    rfl
  · rw [(hlens d mem_cons_self).1, take_length]

theorem serves_recv (h : Serves σ L) (hbig : ∀ d ∈ L.queue.head?, d.len ≤ n) :
    Serves (σ.receive (itsRecv n L).2) (itsRecv n L).1 := by
  unfold itsRecv
  split
  · rwa [Session.receive, toList_none, append_nil]
  next d L' hd =>
    obtain ⟨hserves, hhead, htake⟩ := serves_dequeue h hd
    rw [if_neg (Nat.not_lt.mpr (hbig d hhead)), htake]
    exact hserves

theorem serves_recvRef (h : Serves σ L) : Serves (σ.receive (itsRecvRef L).2) (itsRecvRef L).1 := by
  unfold itsRecvRef
  split
  · rwa [Session.receive, toList_none, append_nil]
  next d L' hd => exact (serves_dequeue h hd).1

/-- A receive hands out the message at the head of the queue and takes it off. -/
def Delivers (L : Link Msg) (r : Link Msg × Option Msg) : Prop :=
  r.2 = L.queue.head?.map Desc.ptr ∧ r.1.queue = L.queue.tail

theorem delivers_recv (h : Serves σ L) (hbig : ∀ d ∈ L.queue.head?, d.len ≤ n) : Delivers L (itsRecv n L) := by
  unfold itsRecv linkDequeue
  cases hq : L.queue with
  | nil => simp [Delivers, hq]
  | cons d ds =>
    have hlen : d.len = d.ptr.length := (h.lens d (by simp [hq])).1
    have hfits : ¬ n < d.len := Nat.not_lt.mpr (hbig d (by simp [hq]))
    simp [Delivers, hq, hlen, hlen ▸ hfits]

theorem delivers_recvRef (L : Link Msg) : Delivers L (itsRecvRef L) := by
  unfold itsRecvRef linkDequeue
  cases hq : L.queue <;> simp [Delivers, hq]

theorem whole_end (h : Serves σ L) : ∀ p ∈ (σ.end L.queue).past, p.Whole := by
  intro p hp
  rw [Session.end, mem_append, mem_singleton] at hp
  rcases hp with hp | rfl
  · exact h.past p hp
  · exact h.fifo

theorem serves_purge (h : Serves σ L) : Serves (σ.end (linkPurge L).2) (linkPurge L).1 := by
  rw [linkPurge, if_pos h.made]
  exact ⟨h.inUse, h.made, h.depth, h.byteCap, fun _ hd => absurd hd not_mem_nil, rfl, Nat.zero_le _,
    (by simp), rfl, whole_end h⟩

theorem serves_fresh (sem : Bool) (depth byteCap maxMsg : Nat) :
    Serves ⟨depth, byteCap, [], [], []⟩ (fresh true sem depth byteCap maxMsg) :=
  ⟨rfl, rfl, rfl, rfl, fun _ hd => absurd hd not_mem_nil, rfl, Nat.zero_le _,
    (by simp [fresh]), rfl, fun _ hp => absurd hp not_mem_nil⟩

theorem passed_over {links : List (Link β)} {i j : Nat} {L : Link β} (hlt : i < links.length)
    (hfree : links[i].inUse = false) (hL : links[j]? = some L) (huse : L.inUse = true) (f : Link β → Link β) :
    (links.modify i f)[j]? = some L ∧ some i ≠ some j := by
  have hne : i ≠ j := by
    rintro rfl
    rw [getElem?_eq_getElem hlt, some_inj] at hL
    rw [hL, huse] at hfree
    simp at hfree
  exact ⟨(getElem?_modify_ne _ _ hne).trans hL, fun h => hne (some.inj h)⟩

theorem linkAcquire_spec (ringOk semOk : Bool) (depth byteCap maxMsg : Nat) (links : List (Link β)) :
    (∀ i L, links[i]? = some L → L.inUse = true →
      (linkAcquire ringOk semOk depth byteCap maxMsg links).1[i]? = some L ∧
        (linkAcquire ringOk semOk depth byteCap maxMsg links).2 ≠ some i) ∧
    ∀ i, (linkAcquire ringOk semOk depth byteCap maxMsg links).2 = some i →
      ∃ sem, (linkAcquire ringOk semOk depth byteCap maxMsg links).1[i]? =
        some (fresh true sem (if depth = 0 then 1 else depth) byteCap maxMsg) := by
  unfold linkAcquire
  dsimp only
  generalize (if depth = 0 then 1 else depth) = depth
  split
  next i hi =>
    obtain ⟨hlt, hfree, -⟩ := findIdx?_eq_some_iff_getElem.mp hi
    have hfree : links[i].inUse = false := by
      rw [and_eq_true_iff, and_eq_true_iff] at hfree
      simpa using hfree.1.1
    refine ⟨fun j L hL huse => ?_, fun j hj => ?_⟩
    · exact passed_over hlt hfree hL huse _
    · cases hj
      exact ⟨_, getElem?_modify_eq _ _ _ |>.trans (by rw [getElem?_eq_getElem hlt]; rfl)⟩
  next =>
    split
    next i hi =>
      obtain ⟨hlt, hfree, -⟩ := findIdx?_eq_some_iff_getElem.mp hi
      have hfree : links[i].inUse = false := by
        rw [and_eq_true_iff] at hfree
        simpa using hfree.1
      refine ⟨fun j L hL huse => ?_, fun j hj => ?_⟩
      · obtain ⟨hsame, hne⟩ := passed_over hlt hfree hL huse _
        refine ⟨hsame, fun h => hne ?_⟩
        exact (ite_none_right_eq_some.mp h).2
      · obtain ⟨hok, hij⟩ := ite_none_right_eq_some.mp hj
        cases hij
        obtain ⟨rfl, -⟩ := Bool.and_eq_true_iff.mp hok
        exact ⟨_, getElem?_modify_eq _ _ _ |>.trans (by rw [getElem?_eq_getElem hlt]; rfl)⟩
    next =>
      split
      · exact ⟨fun j L hL _ => ⟨hL, by simp⟩, by simp⟩
      · refine ⟨fun j L hL huse => ?_, fun j hj => ?_⟩
        · obtain ⟨hlt, -⟩ := List.getElem?_eq_some_iff.mp hL
          refine ⟨(getElem?_append_left hlt).trans hL, fun h => ?_⟩
          have := (ite_none_right_eq_some.mp h).2
          cases this
          exact absurd hlt (Nat.lt_irrefl _)
        · obtain ⟨hok, hij⟩ := ite_none_right_eq_some.mp hj
          cases hij
          obtain ⟨rfl, rfl⟩ := Bool.and_eq_true_iff.mp hok
          exact ⟨true, getElem?_concat_length⟩

end Links

/-- Every open connection is served by its link, and every closed one was. -/
structure Inv (s : Sys) : Prop where
  served : ∀ i σ, s.sessions i = some σ → ∃ L, s.links[i]? = some L ∧ Serves σ L
  settled : ∀ σ ∈ s.closed, σ.sent = [] ∧ σ.received = [] ∧ ∀ p ∈ σ.past, p.Whole

section Run

variable {s : Sys}

theorem Inv.put (h : Inv s) {i : Nat} {L L' : Link Msg} {σ' : Option Session} (hL : s.links[i]? = some L)
    (hserves : ∀ τ, σ' = some τ → Serves τ L') : Inv (s.put i L' σ') := by
  refine ⟨fun j τ hj => ?_, h.settled⟩
  by_cases hij : j = i
  · subst hij
    obtain ⟨hlt, -⟩ := List.getElem?_eq_some_iff.mp hL
    rw [Sys.sessions_put, update_self] at hj
    exact ⟨L', getElem?_set_self hlt, hserves τ hj⟩
  · rw [Sys.sessions_put, update_of_ne hij] at hj
    obtain ⟨L₀, hL₀, hτ⟩ := h.served j τ hj
    exact ⟨L₀, (getElem?_set_ne fun h => hij h.symm).trans hL₀, hτ⟩

theorem Inv.onLink (h : Inv s) {i : Nat} {f : Session → Link Msg → Sys}
    (hf : ∀ σ L, s.sessions i = some σ → s.links[i]? = some L → Serves σ L → Inv (f σ L)) :
    Inv (onLink s i f) := by
  unfold PacketLink.onLink
  split
  next σ L hσ hL =>
    obtain ⟨L', hL', hserves⟩ := h.served i σ hσ
    rw [hL, some_inj] at hL'
    exact hf σ L hσ hL (hL' ▸ hserves)
  · exact h

theorem Inv.put_some (h : Inv s) {i : Nat} {L L' : Link Msg} {τ : Session} (hL : s.links[i]? = some L)
    (hserves : Serves τ L') : Inv (s.put i L' (some τ)) :=
  h.put hL fun _ hτ => some.inj hτ ▸ hserves

theorem inv_acquire (h : Inv s) (ringOk semOk : Bool) (depth byteCap maxMsg : Nat) :
    Inv (step s (.acquire ringOk semOk depth byteCap maxMsg)) := by
  obtain ⟨hpassed, hfresh⟩ := linkAcquire_spec ringOk semOk depth byteCap maxMsg s.links
  unfold step
  dsimp only
  generalize linkAcquire ringOk semOk depth byteCap maxMsg s.links = r at hpassed hfresh ⊢
  split
  next hnone =>
    refine ⟨fun j τ hj => ?_, h.settled⟩
    obtain ⟨L, hL, hτ⟩ := h.served j τ hj
    exact ⟨L, (hpassed j L hL hτ.inUse).1, hτ⟩
  next i hi =>
    refine ⟨fun j τ hj => ?_, h.settled⟩
    by_cases hij : j = i
    · subst hij
      obtain ⟨sem, hL⟩ := hfresh j hi
      replace hj := some.inj ((update_self j _ s.sessions).symm.trans hj)
      exact ⟨_, hL, hj ▸ serves_fresh sem _ byteCap maxMsg⟩
    · replace hj := (update_of_ne hij ..).symm.trans hj
      obtain ⟨L, hL, hτ⟩ := h.served j τ hj
      exact ⟨L, (hpassed j L hL hτ.inUse).1, hτ⟩

theorem inv_step (h : Inv s) (a : Action) (ha : LargeEnough s a) : Inv (step s a) := by
  cases a with
  | acquire ringOk semOk depth byteCap maxMsg => exact inv_acquire h ringOk semOk depth byteCap maxMsg
  | send i late ok owned data => exact h.onLink fun σ L _ hL hserves => h.put_some hL (serves_send hserves)
  | recv i maxLen => exact h.onLink fun σ L _ hL hserves => h.put_some hL (serves_recv hserves fun d hd => ha d (by rw [hL]; exact hd))
  | recvRef i => exact h.onLink fun σ L _ hL hserves => h.put_some hL (serves_recvRef hserves)
  | reset i => exact h.onLink fun σ L _ hL hserves => h.put_some hL (serves_purge hserves)
  | teardown i =>
    refine h.onLink fun σ L _ hL hserves => ?_
    have hput : Inv (s.put i (linkFree L).1 none) := h.put hL (by simp)
    refine ⟨hput.served, forall_mem_append.mpr ⟨h.settled, forall_mem_singleton.mpr ?_⟩⟩
    rw [linkFree, if_pos hserves.made]
    exact ⟨rfl, rfl, whole_end hserves⟩

/-- In every run, over every reuse of the links, each direction of a packet
connection is a bounded queue that loses nothing. -/
theorem link_fifo (as : List Action) (hbig : Runs.Meets (fun s a => some (step s a)) LargeEnough start as) :
    (∀ i σ, (as.foldl step start).sessions i = some σ →
      ∃ L, (as.foldl step start).links[i]? = some L ∧ Serves σ L ∧ Delivers L (itsRecvRef L) ∧
        ∀ n, (∀ d ∈ L.queue.head?, d.len ≤ n) → Delivers L (itsRecv n L)) ∧
    ∀ σ ∈ (as.foldl step start).closed, σ.sent = [] ∧ σ.received = [] ∧ ∀ p ∈ σ.past, p.Whole := by
  have hstart : Inv start := ⟨by simp [start], fun _ h => absurd h not_mem_nil⟩
  have hinv : Inv (as.foldl step start) := by
    refine Runs.run_invariant (fun s a t hs ha ht => ?_) hstart hbig (Runs.run_total step start as)
    rw [← some.inj ht]
    exact inv_step hs a ha
  refine ⟨fun i σ hσ => ?_, hinv.settled⟩
  obtain ⟨L, hL, hserves⟩ := hinv.served i σ hσ
  exact ⟨L, hL, hserves, delivers_recvRef L, fun n => delivers_recv hserves⟩

/-- A message above the window into an idle link, one refused behind it, one taken by reference, a reset over two, and the
link again for the next connection. -/
def trial : List Action :=
  [.acquire true true 2 4 8, .send 0 false true false [1, 2, 3, 4, 5], .send 0 false true true [6], .recv 0 8,
    .send 0 false true true [6], .recvRef 0, .send 0 false true false [7, 8], .send 0 false true true [9], .reset 0,
    .teardown 0, .acquire false false 2 4 8, .send 0 false true false [10]]

theorem link_fifo_trial :
    (trial.foldl step start).closed.map Session.past =
      [[⟨[[1, 2, 3, 4, 5], [6], [7, 8], [9]], [[1, 2, 3, 4, 5], [6]], [[7, 8], [9]]⟩, ⟨[], [], []⟩]] ∧
    ∃ σ L, (trial.foldl step start).sessions 0 = some σ ∧ (trial.foldl step start).links[0]? = some L ∧
      σ.sent = [[10]] ∧ (itsRecvRef L).2 = some [10] := by
  obtain ⟨L, hL, hserves, hdelivers, -⟩ := (link_fifo trial (by decide)).1 0 _ rfl
  refine ⟨by decide, _, L, rfl, hL, rfl, ?_⟩
  have hqueue : [[10]] = [] ++ L.queue.map Desc.ptr := hserves.fifo
  rw [hdelivers.1, ← head?_map, ← nil_append (L.queue.map Desc.ptr), ← hqueue]
  rfl

end Run

end Spangap.PacketLink
