import Mathlib.Data.List.Forall2

namespace Spangap.LegacyPackets

open List

abbrev Bytes := List UInt8

def header (body : Bytes) : Bytes :=
  [0, .ofNat (body.length / 65536), .ofNat (body.length / 256), .ofNat body.length]

def bodyLen (hdr : Bytes) : Nat :=
  (hdr.getD 1 0).toNat * 65536 + (hdr.getD 2 0).toNat * 256 + (hdr.getD 3 0).toNat

/-- The writer has put a header into the buffer and still has the body, if any. -/
abbrev Writer := Option Bytes

/-- Where `itsRecv` is: it has seen more than four bytes, has read a header and is to
read the body, or drops what is left of one. -/
inductive Reader
  | idle
  | ready (maxLen : Nat)
  | body (len maxLen : Nat)
  | drain (left maxLen : Nat)

/-- One direction of a connection. `sent` are the packets whose header is written, and
`returned` what the calls for them have returned, with the size of their buffer. -/
structure State where
  size : Nat
  buf : Bytes
  writer : Writer
  reader : Reader
  sent : List Bytes
  returned : List (Nat × Bytes)

def start (size : Nat) : State := ⟨size, [], none, .idle, [], []⟩

/-- As much as there is room for. -/
def xStreamBufferSend (s : State) (data : Bytes) : State := { s with buf := s.buf ++ data.take (s.size - s.buf.length) }

inductive Action
  | send (body : Bytes)
  | sendBody
  | recv (maxLen : Nat)
  | turn

def Action.isTurn : Action → Bool
  | .turn => true
  | _ => false

def finish (s : State) (maxLen : Nat) (out buf : Bytes) : State :=
  { s with buf := buf, reader := .idle, returned := s.returned ++ [(maxLen, out)] }

/-- A turn of the reader: the header, the body, or up to 64 bytes of a body it drops. -/
def readerTurn (s : State) : State :=
  match s.reader with
  | .idle => s
  | .ready maxLen =>
    let len := bodyLen (s.buf.take 4)
    { s with buf := s.buf.drop 4, reader := if maxLen < len then .drain len maxLen else .body len maxLen }
  | .body len maxLen => finish s maxLen (s.buf.take len) (s.buf.drop len)
  | .drain left maxLen =>
    let n := (s.buf.take (min left 64)).length
    if left = 0 ∨ n = 0 then finish s maxLen [] s.buf
    else { s with buf := s.buf.drop n, reader := .drain (left - n) maxLen }

/-- An action that is not possible, or a call that returns 0 at once, changes nothing. -/
def step (s : State) : Action → State
  | .send body =>
    if s.writer = none ∧ 0 < body.length ∧ body.length ≤ 0xffffff ∧ 4 + body.length ≤ s.size - s.buf.length then
      { xStreamBufferSend s (header body) with writer := some body, sent := s.sent ++ [body] }
    else s
  | .sendBody =>
    match s.writer with
    | none => s
    | some body => { xStreamBufferSend s body with writer := none }
  | .recv maxLen =>
    match s.reader with
    | .idle => if 4 < s.buf.length then { s with reader := .ready maxLen } else s
    | _ => s
  | .turn => readerTurn s

def packet (body : Bytes) : Bytes := header body ++ body

/-- What a receive into a buffer of this size is to return for a packet. -/
def due (maxLen : Nat) (body : Bytes) : Bytes := if body.length ≤ maxLen then body else []

/-- The packet that the reader has in hand, and the bytes of it that are still in the
buffer. -/
def Head : Reader → Option Bytes → Bytes → Prop
  | .idle, cur, rest => cur = none ∧ rest = []
  | .ready _, cur, rest => cur = none ∧ rest = []
  | .body len maxLen, cur, rest => cur = some rest ∧ len = rest.length ∧ len ≤ maxLen
  | .drain left maxLen, cur, rest => left = rest.length ∧ ∃ b, cur = some b ∧ maxLen < b.length

/-- The buffer holds the rest of the packet in hand, whole packets, and a header whose
body is still to come. -/
structure Framed (s : State) (did : List Bytes) (cur : Option Bytes) (rest : Bytes) (whole : List Bytes) : Prop where
  sent : s.sent = did ++ cur.toList ++ whole ++ s.writer.toList
  small : ∀ b ∈ s.sent, 0 < b.length ∧ b.length ≤ 0xffffff
  room : ∀ b ∈ s.writer, s.buf.length + b.length ≤ s.size
  buf : s.buf = rest ++ whole.flatMap packet ++ s.writer.elim [] header
  head : Head s.reader cur rest
  ready : ∀ n, s.reader = .ready n → whole ≠ []
  returned : List.Forall₂ (fun r b => r.2 = due r.1 b) s.returned did

theorem bodyLen_header {b : Bytes} (h : b.length ≤ 0xffffff) : bodyLen (header b) = b.length := by
  simp [bodyLen, header]
  omega

section Steps

variable {s : State} {did : List Bytes} {cur : Option Bytes} {rest : Bytes} {whole : List Bytes}

theorem send_all {data : Bytes} (h : s.buf.length + data.length ≤ s.size) :
    xStreamBufferSend s data = { s with buf := s.buf ++ data } := by
  rw [xStreamBufferSend, take_of_length_le (by omega)]

theorem framed_send (h : Framed s did cur rest whole) (body : Bytes) : Framed (step s (.send body)) did cur rest whole := by
  rw [step]
  split
  next hok =>
    obtain ⟨hidle, hpos, hlen, hroom⟩ := hok
    have hhdr : (header body).length = 4 := rfl
    rw [send_all (by omega)]
    refine ⟨by simp [h.sent, hidle], ?_, ?_, by simp [h.buf, hidle], h.head, h.ready, h.returned⟩
    · simpa [or_imp, forall_and, hpos, hlen] using h.small
    · simp [hhdr]
      omega
  · exact h

theorem framed_sendBody (h : Framed s did cur rest whole) : ∃ more, Framed (step s .sendBody) did cur rest (whole ++ more) := by
  rw [step]
  split
  · exact ⟨[], by rwa [append_nil]⟩
  next body hbody =>
    rw [send_all (h.room body hbody)]
    refine ⟨[body], ?_, h.small, by simp, ?_, h.head, by simp, h.returned⟩
    · simp [h.sent, hbody]
    · simp [h.buf, hbody, packet]

theorem framed_recv (h : Framed s did cur rest whole) (maxLen : Nat) : Framed (step s (.recv maxLen)) did cur rest whole := by
  rw [step]
  split
  next hidle =>
    split
    next hmore =>
      have hhead := h.head
      rw [hidle] at hhead
      refine { h with head := hhead, ready := fun _ _ hnone => ?_ }
      -- A header alone is not more than four bytes.
      rw [h.buf, hhead.2, hnone] at hmore
      cases hw : s.writer <;> simp [hw, header] at hmore
    · exact h
  · exact h

theorem framed_finish {b out : Bytes} {maxLen : Nat} (h : Framed s did (some b) rest whole) (hout : out = due maxLen b) :
    Framed (finish s maxLen out (whole.flatMap packet ++ s.writer.elim [] header)) (did ++ [b]) none [] whole := by
  refine ⟨by simp [finish, h.sent], h.small, fun w hw => ?_, rfl, ⟨rfl, rfl⟩, nofun, ?_⟩
  · have hroom := h.room w hw
    rw [h.buf, append_assoc, length_append] at hroom
    exact Nat.le_trans (Nat.add_le_add_right (Nat.le_add_left _ _) _) hroom
  · exact rel_append h.returned (.cons hout .nil)

theorem framed_ready {maxLen : Nat} (h : Framed s did cur rest whole) (hready : s.reader = .ready maxLen) :
    ∃ b whole', whole = b :: whole' ∧ Framed (readerTurn s) did (some b) b whole' ∧ (readerTurn s).returned = s.returned ∧
      (readerTurn s).reader = if maxLen < b.length then .drain b.length maxLen else .body b.length maxLen := by
  have hhead := h.head
  rw [hready] at hhead
  obtain ⟨rfl, rfl⟩ := hhead
  obtain ⟨b, whole, rfl⟩ := exists_cons_of_ne_nil (h.ready maxLen hready)
  have hsmall := (h.small b (by simp [h.sent])).2
  have hbuf : s.buf = header b ++ (b ++ whole.flatMap packet ++ s.writer.elim [] header) := by
    simp [h.buf, packet]
  have htake : s.buf.take 4 = header b := hbuf ▸ take_left' rfl
  have hdrop : s.buf.drop 4 = b ++ whole.flatMap packet ++ s.writer.elim [] header := hbuf ▸ drop_left' rfl
  rw [readerTurn, hready]
  dsimp only
  rw [htake, bodyLen_header hsmall]
  refine ⟨b, whole, rfl, ⟨by simp [h.sent], h.small, fun w hw => ?_, hdrop, ?_, ?_, h.returned⟩, rfl, rfl⟩
  · exact Nat.le_trans (Nat.add_le_add_right (by simp) _) (h.room w hw)
  · dsimp only
    split
    next hlong => exact ⟨rfl, b, rfl, hlong⟩
    next hshort => exact ⟨rfl, rfl, Nat.not_lt.mp hshort⟩
  · intro n hn
    dsimp only at hn
    split at hn <;> cases hn

/-- The call ends with what it is to return for the packet in hand. -/
def Ends (s : State) (did : List Bytes) (b : Bytes) (whole : List Bytes) (maxLen : Nat) : Prop :=
  Framed (readerTurn s) (did ++ [b]) none [] whole ∧ (readerTurn s).returned = s.returned ++ [(maxLen, due maxLen b)]

theorem framed_body {len maxLen : Nat} (h : Framed s did cur rest whole) (hbody : s.reader = .body len maxLen) :
    ∃ b, cur = some b ∧ Ends s did b whole maxLen := by
  have hhead := h.head
  rw [hbody] at hhead
  obtain ⟨rfl, rfl, hle⟩ := hhead
  simp only [Ends, readerTurn, hbody]
  rw [h.buf, append_assoc, take_left, drop_left]
  exact ⟨_, rfl, framed_finish h (if_pos hle).symm, by rw [due, if_pos hle]; rfl⟩

/-- The last of the packet is dropped, or some of it and the call goes on. -/
theorem framed_drain {left maxLen : Nat} (h : Framed s did cur rest whole) (hdrain : s.reader = .drain left maxLen) :
    ∃ b, cur = some b ∧ (Ends s did b whole maxLen ∨
      ∃ rest' left', Framed (readerTurn s) did cur rest' whole ∧ (readerTurn s).returned = s.returned ∧
        (readerTurn s).reader = .drain left' maxLen ∧ left' < left) := by
  have hhead := h.head
  rw [hdrain] at hhead
  obtain ⟨rfl, b, rfl, hlong⟩ := hhead
  have htaken : (s.buf.take (min rest.length 64)).length = min rest.length 64 := by
    rw [length_take, h.buf, length_append, length_append]
    omega
  refine ⟨b, rfl, ?_⟩
  rw [Ends, readerTurn, hdrain]
  dsimp only
  rw [htaken]
  split
  next hnone =>
    obtain rfl : rest = [] := length_eq_zero_iff.mp (by omega)
    have hdue : [] = due maxLen b := (if_neg (Nat.not_le.mpr hlong)).symm
    rw [h.buf]
    exact .inl ⟨framed_finish h hdue, by rw [← hdue]; rfl⟩
  next hsome =>
    refine .inr ⟨rest.drop (min rest.length 64), _, ⟨h.sent, h.small, fun w hw => ?_, ?_, ?_, nofun, h.returned⟩, rfl, rfl, ?_⟩
    · exact Nat.le_trans (Nat.add_le_add_right (by simp) _) (h.room w hw)
    · rw [h.buf, append_assoc, drop_append_of_le_length (Nat.min_le_left _ _), append_assoc]
    · exact ⟨by simp, b, rfl, hlong⟩
    · omega

theorem framed_turn (h : Framed s did cur rest whole) : ∃ did' cur' rest' whole', Framed (readerTurn s) did' cur' rest' whole' := by
  cases hreader : s.reader with
  | idle =>
    rw [readerTurn, hreader]
    exact ⟨_, _, _, _, h⟩
  | ready maxLen =>
    obtain ⟨b, whole', -, h', -⟩ := framed_ready h hreader
    exact ⟨_, _, _, _, h'⟩
  | body len maxLen =>
    obtain ⟨b, -, h', -⟩ := framed_body h hreader
    exact ⟨_, _, _, _, h'⟩
  | drain left maxLen =>
    obtain ⟨b, -, ⟨h', -⟩ | ⟨rest', left', h', -⟩⟩ := framed_drain h hreader
    · exact ⟨_, _, _, _, h'⟩
    · exact ⟨_, _, _, _, h'⟩

theorem framed_step (a : Action) (h : Framed s did cur rest whole) :
    ∃ did' cur' rest' whole', Framed (step s a) did' cur' rest' whole' := by
  cases a with
  | send body => exact ⟨_, _, _, _, framed_send h body⟩
  | sendBody =>
    obtain ⟨more, h'⟩ := framed_sendBody h
    exact ⟨_, _, _, _, h'⟩
  | recv maxLen => exact ⟨_, _, _, _, framed_recv h maxLen⟩
  | turn => exact framed_turn h

/-- The writer only adds to what a call under way finds. -/
theorem framed_quiet {a : Action} (hquiet : a.isTurn = false) (h : Framed s did cur rest whole) (hcall : s.reader ≠ .idle) :
    (∃ more, Framed (step s a) did cur rest (whole ++ more)) ∧ (step s a).reader = s.reader ∧
      (step s a).returned = s.returned := by
  cases a with
  | send body =>
    refine ⟨⟨[], by rw [append_nil]; exact framed_send h body⟩, ?_⟩
    rw [step]
    split <;> exact ⟨rfl, rfl⟩
  | sendBody =>
    refine ⟨framed_sendBody h, ?_⟩
    rw [step]
    split <;> exact ⟨rfl, rfl⟩
  | recv maxLen =>
    refine ⟨⟨[], by rw [append_nil]; exact framed_recv h maxLen⟩, ?_⟩
    rw [step]
    split
    next hidle => exact absurd hidle hcall
    · exact ⟨rfl, rfl⟩
  | turn => cases hquiet

theorem framed_found (h : Framed s did cur [] whole) : 4 < s.buf.length ↔ whole ≠ [] := by
  rw [h.buf]
  cases hwhole : whole with
  | nil => cases hw : s.writer <;> simp [header]
  | cons b whole' =>
    have hpos := (h.small b (by simp [h.sent, hwhole])).1
    have hhdr : (header b).length = 4 := rfl
    simp [packet, hhdr]
    omega

end Steps

section Progress

variable {s : State} {maxLen n : Nat} {b : Bytes} {before : List (Nat × Bytes)}

/-- The call is to return for the packet `b`, after at most `n` more turns. -/
def Pending (maxLen : Nat) (b : Bytes) (n : Nat) : Reader → Option Bytes → List Bytes → Prop
  | .idle, _, _ => False
  | .ready m, _, whole => m = maxLen ∧ whole.head? = some b ∧ b.length + 2 ≤ n
  | .body _ m, cur, _ => m = maxLen ∧ cur = some b ∧ 1 ≤ n
  | .drain left m, cur, _ => m = maxLen ∧ cur = some b ∧ left + 1 ≤ n

/-- The call has returned, or is on its way to it. -/
def Receiving (before : List (Nat × Bytes)) (maxLen : Nat) (b : Bytes) (n : Nat) (s : State) : Prop :=
  before ++ [(maxLen, due maxLen b)] <+: s.returned ∨
    ∃ did cur rest whole, Framed s did cur rest whole ∧ s.returned = before ∧ Pending maxLen b n s.reader cur whole

theorem returned_step (s : State) (a : Action) : s.returned <+: (step s a).returned := by
  cases a with
  | send body =>
    rw [step]
    split <;> exact prefix_refl _
  | sendBody =>
    rw [step]
    split <;> exact prefix_refl _
  | recv maxLen =>
    rw [step]
    split
    · split <;> exact prefix_refl _
    · exact prefix_refl _
  | turn =>
    rw [step, readerTurn]
    split
    · exact prefix_refl _
    · exact prefix_refl _
    · exact prefix_append _ _
    · dsimp only
      split
      · exact prefix_append _ _
      · exact prefix_refl _

theorem receiving_turn (h : Receiving before maxLen b n s) : Receiving before maxLen b (n - 1) (readerTurn s) := by
  rcases h with hdone | ⟨did, cur, rest, whole, hf, rfl, hp⟩
  · exact .inl (hdone.trans (returned_step s .turn))
  cases hreader : s.reader with
  | idle =>
    rw [hreader] at hp
    exact hp.elim
  | ready m =>
    rw [hreader] at hp
    obtain ⟨rfl, hb, hn⟩ := hp
    obtain ⟨b', whole', rfl, hf', hret, hnext⟩ := framed_ready hf hreader
    cases hb
    refine .inr ⟨_, _, _, _, hf', hret, ?_⟩
    rw [hnext]
    split
    · exact ⟨rfl, rfl, by omega⟩
    · exact ⟨rfl, rfl, by omega⟩
  | body len m =>
    rw [hreader] at hp
    obtain ⟨rfl, rfl, -⟩ := hp
    obtain ⟨b', ⟨⟩, -, hret⟩ := framed_body hf hreader
    exact .inl (hret ▸ prefix_refl _)
  | drain left m =>
    rw [hreader] at hp
    obtain ⟨rfl, rfl, hn⟩ := hp
    obtain ⟨b', ⟨⟩, ⟨-, hret⟩ | ⟨rest', left', hf', hret, hnext, hlt⟩⟩ := framed_drain hf hreader
    · exact .inl (hret ▸ prefix_refl _)
    · refine .inr ⟨_, _, _, _, hf', hret, ?_⟩
      rw [hnext]
      exact ⟨rfl, rfl, by omega⟩

theorem receiving_step (h : Receiving before maxLen b n s) (a : Action) :
    Receiving before maxLen b (n - if a.isTurn then 1 else 0) (step s a) := by
  cases hturn : a.isTurn with
  | true =>
    cases a with
    | turn => exact receiving_turn h
    | _ => cases hturn
  | false =>
    rcases h with hdone | ⟨did, cur, rest, whole, hf, hret, hp⟩
    · exact .inl (hdone.trans (returned_step s a))
    · have hcall : s.reader ≠ .idle := fun hidle => by rwa [hidle] at hp
      obtain ⟨⟨more, hf'⟩, hreader, hret'⟩ := framed_quiet hturn hf hcall
      refine .inr ⟨_, _, _, _, hf', hret'.trans hret, ?_⟩
      rw [hreader]
      revert hp
      cases s.reader <;> simp +contextual [Pending, head?_append]

theorem receiving_run (bs : List Action) (h : Receiving before maxLen b n s) :
    Receiving before maxLen b (n - bs.countP Action.isTurn) (bs.foldl step s) := by
  induction bs generalizing s n with
  | nil => exact h
  | cons a bs ih =>
    have := ih (receiving_step h a)
    rwa [Nat.sub_sub, Nat.add_comm, ← countP_cons] at this

theorem returned_of_receiving (h : Receiving before maxLen b 0 s) : before ++ [(maxLen, due maxLen b)] <+: s.returned := by
  rcases h with hdone | ⟨did, cur, rest, whole, -, -, hp⟩
  · exact hdone
  · revert hp
    cases s.reader <;> simp [Pending]

end Progress

/-- No call is under way: the buffer holds what is left, a call finds a packet exactly if one is there that is written as a whole,
and it returns for that one, whatever else goes on, once it has had its turns. -/
structure Waiting (s : State) (left : List Bytes) : Prop where
  buf : s.writer = none → s.buf = left.flatMap packet
  found : 4 < s.buf.length ↔ left ≠ s.writer.toList
  ends : ∀ maxLen b rest (bs : List Action), left = b :: rest → 4 < s.buf.length → b.length + 2 ≤ bs.countP Action.isTurn →
    s.returned ++ [(maxLen, due maxLen b)] <+: (bs.foldl step (step s (.recv maxLen))).returned

theorem waiting_of_framed {s : State} {did whole : List Bytes} {cur : Option Bytes} {rest : Bytes}
    (h : Framed s did cur rest whole) (hidle : s.reader = .idle) : Waiting s (cur.toList ++ whole ++ s.writer.toList) := by
  have hhead := h.head
  rw [hidle] at hhead
  obtain ⟨rfl, rfl⟩ := hhead
  have hfound := framed_found h
  refine ⟨fun hnone => by simp [h.buf, hnone], by simpa using hfound, fun maxLen b rest bs hleft hmore hturns => ?_⟩
  have hfirst : whole.head? = some b := by
    cases hwhole : whole with
    | nil => exact absurd hwhole (hfound.mp hmore)
    | cons b' whole' =>
      simp only [hwhole, Option.toList_none, nil_append, cons_append, cons.injEq] at hleft
      rw [hleft.1]
      rfl
  have hready : step s (.recv maxLen) = { s with reader := .ready maxLen } := by simp [step, hidle, hmore]
  have hcall : Receiving s.returned maxLen b (b.length + 2) (step s (.recv maxLen)) :=
    .inr ⟨_, _, _, _, framed_recv h maxLen, by rw [hready], by rw [hready]; exact ⟨rfl, hfirst, Nat.le_refl _⟩⟩
  have hrun := receiving_run bs hcall
  rw [Nat.sub_eq_zero_of_le hturns] at hrun
  exact returned_of_receiving hrun

/-- Calls return the packets in their order, each as a whole or, where the buffer of the
call is too small, not at all; what they have not taken is in the buffer. -/
theorem packets_keep_boundaries (size : Nat) (as : List Action) :
    ∃ did left, (as.foldl step (start size)).sent = did ++ left ∧
      List.Forall₂ (fun r b => r.2 = due r.1 b) (as.foldl step (start size)).returned did ∧
      ((as.foldl step (start size)).reader = .idle → Waiting (as.foldl step (start size)) left) := by
  have hframed : ∃ did cur rest whole, Framed (as.foldl step (start size)) did cur rest whole := by
    refine List.foldlRecOn (motive := fun s => ∃ did cur rest whole, Framed s did cur rest whole) as _
      ⟨[], none, [], [], rfl, nofun, nofun, rfl, ⟨rfl, rfl⟩, nofun, .nil⟩ ?_
    rintro s ⟨did, cur, rest, whole, h⟩ a -
    exact framed_step a h
  obtain ⟨did, cur, rest, whole, h⟩ := hframed
  exact ⟨did, _, by rw [h.sent, append_assoc, append_assoc, ← append_assoc cur.toList], h.returned, waiting_of_framed h⟩

/-- Two packets, a call whose buffer is too small for the first one and a call for the other. -/
def trial : List Action :=
  [.send [7, 8, 9], .sendBody, .send [5], .recv 2, .turn, .sendBody, .turn, .turn, .recv 2, .turn, .turn]

theorem packets_keep_boundaries_trial :
    ((trial.foldl step (start 32)).sent = [[7, 8, 9], [5]] ∧ (trial.foldl step (start 32)).returned = [(2, []), (2, [5])]) ∧
    ∃ did left, (trial.foldl step (start 32)).sent = did ++ left ∧
      List.Forall₂ (fun r b => r.2 = due r.1 b) (trial.foldl step (start 32)).returned did ∧
      ((trial.foldl step (start 32)).reader = .idle → Waiting (trial.foldl step (start 32)) left) :=
  ⟨by decide, packets_keep_boundaries 32 trial⟩

end Spangap.LegacyPackets
