import Mathlib.Data.List.TakeWhile
import Spangap.CliSlot
import Spangap.Sniffer

namespace Spangap.FramedRpc

open List CJson CliSlot
open Sniffer (rpcMagic lengthOf)

/-- A request, the buffer its reply is collected in, and what the commands of a line
do: the pieces they print and whether they ask for the end of the session. -/
structure Request where
  id : UInt8
  cmd : Name
  cap : Nat
  prints : Name → List Name
  exits : Name → Bool
  prompt : List Name

/-- The size of the buffer that `rpcAlloc` finds, in one heap or the other. -/
def rpcAlloc (want : Nat) (spiram internal : Bool) : Option Nat :=
  if spiram then some want else if internal then some (min want (8 * 1024)) else none

inductive Relay
  | send
  | recv
  | check
  | replied (frame : List UInt8)
  deriving DecidableEq, Repr

/-- Where the CLI task is: at the top of its loop, parked until it is notified, at the
slot, on its way through a receive, or in a command with pieces still to be printed. -/
inductive Cli
  | top
  | parked
  | visit
  | pass (rest : List UInt8)
  | run (rest : List UInt8) (chunks : List Name) (hangup : Bool)
  deriving DecidableEq, Repr

inductive Event
  | process (line : Name)
  | closed
  deriving DecidableEq, Repr

/-- The session between the two. `off` bytes of the line have gone into the stream
to the CLI task, and `notified` is its pending notification. -/
structure State where
  relay : Relay
  off : Nat
  out : List UInt8
  cut : Bool
  toCli : List UInt8
  fromCli : List UInt8
  live : Bool
  notified : Bool
  cli : Cli
  slot : Slot
  log : List Event

def toSize : Nat := 512

def fromSize : Nat := 2048

def line (q : Request) : List UInt8 := q.cmd ++ [59, 10]

def rpcReply (id : UInt8) (body : List UInt8) : List UInt8 :=
  rpcMagic ++ [id, UInt8.ofNat (body.length >>> 8), UInt8.ofNat body.length] ++ body

def cutLine (out : List UInt8) : List UInt8 := (out.reverse.dropWhile (· ≠ 10)).reverse

def relayStep (q : Request) (s : State) : State :=
  match s.relay with
  | .send =>
    let k := if s.live then min (toSize - s.toCli.length) ((line q).length - s.off) else 0
    { s with
      relay := .recv
      off := s.off + k
      toCli := s.toCli ++ ((line q).drop s.off).take k
      notified := s.notified || 0 < k }
  | .recv =>
    if s.fromCli = [] then { s with relay := .check }
    else
      let got := s.fromCli.take 256
      let room := q.cap - s.out.length
      { s with fromCli := s.fromCli.drop 256, out := s.out ++ got.take room, cut := s.cut || room < got.length }
  | .check =>
    if s.live then { s with relay := .send }
    else { s with relay := .replied (rpcReply q.id (if s.cut then cutLine s.out else s.out)) }
  | .replied _ => s

def sweep (s : State) : State :=
  if s.slot.pendingClose && s.live && s.fromCli = [] then { s with cli := .top, live := false, slot := .blank, log := s.log ++ [.closed] }
  else { s with cli := .top }

def lineByte (q : Request) (s : State) (c : UInt8) (rest : List UInt8) : State :=
  if c = 4 then { s with cli := .pass [], slot := { s.slot with pendingClose := true } }
  else if c = 10 ∨ c = 13 then
    let lineBuf := cStr s.slot.lineBuf
    let hangup := cliLineEndsWithSemicolon lineBuf
    let prompt := if hangup then [] else q.prompt
    if s.slot.lineBuf = [] then { s with cli := .run rest prompt hangup }
    else
      { s with
        cli := .run rest (q.prints lineBuf ++ prompt) hangup
        slot := { s.slot with pendingClose := s.slot.pendingClose || q.exits lineBuf }
        log := s.log ++ [.process lineBuf] }
  else if s.slot.lineBuf.length < cliLineMax + 1 then
    { s with cli := .pass rest, slot := { s.slot with lineBuf := s.slot.lineBuf ++ [c] } }
  else { s with cli := .pass rest }

def cliStep (q : Request) (s : State) : State :=
  match s.cli with
  | .top =>
    if s.live && s.toCli ≠ [] then { s with cli := .visit }
    else if s.slot.pendingClose then { s with cli := .visit, notified := false }
    else { s with cli := .parked }
  | .parked => if s.notified then { s with cli := .visit, notified := false } else s
  | .visit => if s.live && s.toCli ≠ [] then { s with cli := .pass (s.toCli.take 128), toCli := s.toCli.drop 128 } else sweep s
  | .pass [] => sweep s
  | .pass (c :: rest) => lineByte q s c rest
  | .run rest [] hangup =>
    if hangup then { s with cli := .pass [], slot := { s.slot with lineBuf := [], pendingClose := true } }
    else { s with cli := .pass rest, slot := { s.slot with lineBuf := [] } }
  | .run rest (chunk :: chunks) hangup =>
    -- `itsSendAll` comes back for what did not fit, and drops the rest once the peer is gone.
    if chunk = [] || !s.live then { s with cli := .run rest chunks hangup }
    else
      let k := min (fromSize - s.fromCli.length) chunk.length
      { s with cli := .run rest (chunk.drop k :: chunks) hangup, fromCli := s.fromCli ++ chunk.take k }

inductive Who
  | relay
  | cli
  deriving DecidableEq, Repr

def step (q : Request) (s : State) : Who → State
  | .relay => relayStep q s
  | .cli => cliStep q s

def connectData : List UInt8 := [1, 0, 1, 1, 0]

def start (handle : Nat) : State :=
  ⟨.send, 0, [], false, [], [], true, false, .top, cliTcpConnect handle connectData .blank, []⟩

/-- The line as the CLI task is to process it. -/
def spoken (q : Request) : Name := q.cmd ++ [59]

def printed (q : Request) : List UInt8 := (q.prints (spoken q)).flatten

structure Valid (q : Request) : Prop where
  length : q.cmd.length ≤ cliLineMax
  plain : ∀ c ∈ q.cmd, c ≠ 0 ∧ c ≠ 13 ∧ c ≠ 10 ∧ c ≠ 4

/-- The relay has taken `r` and kept what its buffer holds of it. -/
structure Received (q : Request) (s : State) (r : List UInt8) : Prop where
  out : s.out = r.take q.cap
  cut : s.cut = decide (q.cap < r.length)

def rest : Cli → List UInt8
  | .pass rest => rest
  | _ => []

@[simp] theorem rest_pass (l : List UInt8) : rest (.pass l) = l := rfl

@[simp] theorem rest_visit : rest .visit = [] := rfl

def isRun : Cli → Bool
  | .run _ _ _ => true
  | _ => false

def answer (q : Request) : List UInt8 := if q.cap < (printed q).length then cutLine ((printed q).take q.cap) else printed q

inductive Stage (q : Request) (s : State) : Prop
  | reading (hrelay : ∀ f, s.relay ≠ .replied f) (hlive : s.live = true) (hlog : s.log = []) (hrun : isRun s.cli = false)
      (hpending : s.slot.pendingClose = false) (hfrom : s.fromCli = []) (hgot : Received q s [])
      (hopen : s.slot.lineBuf.length < (line q).length)
      (hline : s.slot.lineBuf ++ rest s.cli ++ s.toCli ++ (line q).drop s.off = line q)
      (hwake : s.cli = .parked → s.toCli ≠ [] → s.notified = true)
  | running (hrelay : ∀ f, s.relay ≠ .replied f) (hlive : s.live = true) (hlog : s.log = [.process (spoken q)])
      (hto : s.toCli = []) (hoff : (line q).drop s.off = []) (chunks : List Name) (hcli : s.cli = .run [] chunks true)
      (r : List UInt8) (hgot : Received q s r) (hout : r ++ s.fromCli ++ chunks.flatten = printed q)
  | draining (hrelay : ∀ f, s.relay ≠ .replied f) (hlive : s.live = true) (hlog : s.log = [.process (spoken q)])
      (hto : s.toCli = []) (hoff : (line q).drop s.off = []) (hcli : s.cli = .top ∨ s.cli = .visit ∨ s.cli = .pass [])
      (hpending : s.slot.pendingClose = true) (r : List UInt8) (hgot : Received q s r) (hout : r ++ s.fromCli = printed q)
  | closed (hrelay : ∀ f, s.relay = .replied f → f = rpcReply q.id (answer q)) (hlive : s.live = false)
      (hlog : s.log = [.process (spoken q), .closed]) (hcli : s.cli = .top ∨ s.cli = .parked ∨ s.cli = .visit)
      (hfrom : s.fromCli = []) (hpending : s.slot.pendingClose = false) (hgot : Received q s (printed q))

section Relay

variable {q : Request} {s : State}

theorem received_append {t : State} {r got : List UInt8} (h : Received q s r)
    (hout : t.out = s.out ++ got.take (q.cap - s.out.length)) (hcut : t.cut = (s.cut || decide (q.cap - s.out.length < got.length))) :
    Received q t (r ++ got) := by
  have hroom : q.cap - s.out.length = q.cap - r.length := by
    rw [h.out, length_take]
    omega
  refine ⟨?_, ?_⟩
  · rw [hout, hroom, h.out, take_append]
  · rw [hcut, hroom, h.cut, ← Bool.decide_or, length_append]
    congr 1
    apply propext
    omega

theorem Received.congr {t : State} {r : List UInt8} (h : Received q s r) (hout : t.out = s.out) (hcut : t.cut = s.cut) :
    Received q t r := ⟨hout.trans h.out, hcut.trans h.cut⟩

theorem answer_of_received (h : Received q s (printed q)) : (if s.cut then cutLine s.out else s.out) = answer q := by
  rw [h.out, h.cut, answer]
  by_cases hle : q.cap < (printed q).length
  · simp [hle]
  · rw [if_neg hle, if_neg (by simpa using hle)]
    exact take_of_length_le (Nat.not_lt.mp hle)

theorem take_drop_append (l rest : List UInt8) (off k : Nat) :
    rest ++ (l.drop off).take k ++ l.drop (off + k) = rest ++ l.drop off := by
  rw [append_assoc, ← drop_drop, take_append_drop]

theorem Stage.turn (h : Stage q s) {x : Relay} (hx : ∀ f, x ≠ .replied f) : Stage q { s with relay := x } := by
  cases h with
  | reading hrelay hlive hlog hrun hpending hfrom hgot hopen hline hwake =>
    exact .reading hx hlive hlog hrun hpending hfrom (hgot.congr rfl rfl) hopen hline hwake
  | running hrelay hlive hlog hto hoff chunks hcli r hgot hout =>
    exact .running hx hlive hlog hto hoff chunks hcli r (hgot.congr rfl rfl) hout
  | draining hrelay hlive hlog hto hoff hcli hpending r hgot hout =>
    exact .draining hx hlive hlog hto hoff hcli hpending r (hgot.congr rfl rfl) hout
  | closed hrelay hlive hlog hcli hfrom hpending hgot =>
    exact .closed (fun f hf => absurd hf (hx f)) hlive hlog hcli hfrom hpending (hgot.congr rfl rfl)

theorem stage_send (h : Stage q s) (k : Nat) (hk : s.live = false → k = 0) :
    Stage q { s with
      relay := .recv
      off := s.off + k
      toCli := s.toCli ++ ((line q).drop s.off).take k
      notified := s.notified || decide (0 < k) } := by
  have hx : ∀ f, Relay.recv ≠ .replied f := fun f => by simp
  have hnone : (line q).drop s.off = [] → (line q).drop (s.off + k) = [] := by
    intro hoff
    rw [← drop_drop, hoff, drop_nil]
  cases h with
  | reading hrelay hlive hlog hrun hpending hfrom hgot hopen hline hwake =>
    refine .reading hx hlive hlog hrun hpending hfrom (hgot.congr rfl rfl) hopen ?_ fun hparked hto => ?_
    · rw [← append_assoc, take_drop_append]
      exact hline
    · rcases Nat.eq_zero_or_pos k with rfl | hpos
      · rw [take_zero, append_nil] at hto
        rw [hwake hparked hto, Bool.true_or]
      · rw [decide_eq_true hpos, Bool.or_true]
  | running hrelay hlive hlog hto hoff chunks hcli r hgot hout =>
    refine .running hx hlive hlog ?_ (hnone hoff) chunks hcli r (hgot.congr rfl rfl) hout
    simp [hto, hoff]
  | draining hrelay hlive hlog hto hoff hcli hpending r hgot hout =>
    refine .draining hx hlive hlog ?_ (hnone hoff) hcli hpending r (hgot.congr rfl rfl) hout
    simp [hto, hoff]
  | closed hrelay hlive hlog hcli hfrom hpending hgot =>
    exact .closed (fun f hf => absurd hf (hx f)) hlive hlog hcli hfrom hpending (hgot.congr rfl rfl)

theorem stage_recv (h : Stage q s) (hrelay : s.relay = .recv) (hfrom : s.fromCli ≠ []) :
    Stage q { s with
      fromCli := s.fromCli.drop 256
      out := s.out ++ (s.fromCli.take 256).take (q.cap - s.out.length)
      cut := s.cut || decide (q.cap - s.out.length < (s.fromCli.take 256).length) } := by
  have hx : ∀ f, s.relay ≠ .replied f := fun f => by simp [hrelay]
  cases h with
  | reading hrelay hlive hlog hrun hpending hempty hgot hopen hline hwake => exact absurd hempty hfrom
  | running hrelay hlive hlog hto hoff chunks hcli r hgot hout =>
    refine .running hx hlive hlog hto hoff chunks hcli (r ++ s.fromCli.take 256) (received_append hgot rfl rfl) ?_
    rw [append_assoc r, take_append_drop]
    exact hout
  | draining hrelay hlive hlog hto hoff hcli hpending r hgot hout =>
    refine .draining hx hlive hlog hto hoff hcli hpending (r ++ s.fromCli.take 256) (received_append hgot rfl rfl) ?_
    rw [append_assoc r, take_append_drop]
    exact hout
  | closed hrelay hlive hlog hcli hempty hpending hgot => exact absurd hempty hfrom

theorem stage_relay (h : Stage q s) : Stage q (relayStep q s) := by
  unfold relayStep
  split
  · refine stage_send h _ fun hlive => ?_
    rw [hlive]
    rfl
  next hrelay =>
    split
    · exact h.turn fun f => by simp
    next hfrom => exact stage_recv h hrelay hfrom
  · split
    · exact h.turn fun f => by simp
    next hlive =>
      cases h with
      | reading _ h _ _ _ _ _ _ _ _ => exact absurd h hlive
      | running _ h _ _ _ _ _ _ _ _ => exact absurd h hlive
      | draining _ h _ _ _ _ _ _ _ _ => exact absurd h hlive
      | closed hrelay hlive hlog hcli hfrom hpending hgot =>
        refine .closed (fun f hf => ?_) hlive hlog hcli hfrom hpending (hgot.congr rfl rfl)
        rw [answer_of_received hgot] at hf
        exact (Relay.replied.inj hf).symm
  · exact h

end Relay

section Cli

variable {q : Request} {s : State}

theorem cStr_spoken (hq : Valid q) : cStr (spoken q) = spoken q := by
  rw [cStr, takeWhile_eq_self_iff]
  intro c hc
  rcases mem_append.mp hc with hc | hc
  · exact decide_eq_true (hq.plain c hc).1
  · rw [mem_singleton.mp hc]
    decide

theorem spoken_ends (q : Request) : cliLineEndsWithSemicolon (spoken q) = true := by
  simp [cliLineEndsWithSemicolon, spoken]

theorem next_byte (hq : Valid q) {lineBuf tail : List UInt8} {c : UInt8} (h : lineBuf ++ c :: tail = line q) :
    (c ≠ 4 ∧ c ≠ 10 ∧ c ≠ 13 ∧ lineBuf.length < cliLineMax + 1 ∧ tail ≠ []) ∨ (c = 10 ∧ lineBuf = spoken q ∧ tail = []) := by
  have hsplit : line q = spoken q ++ [10] := by simp [line, spoken]
  rw [hsplit] at h
  rcases eq_nil_or_concat tail with rfl | ⟨tail, d, rfl⟩
  · obtain ⟨hbuf, hc⟩ := append_inj' h rfl
    exact .inr ⟨singleton_inj.mp hc, hbuf, rfl⟩
  · rw [concat_eq_append, ← cons_append, ← append_assoc] at h
    obtain ⟨hinit, -⟩ := append_inj' h rfl
    have hc : c ∈ spoken q := hinit ▸ mem_append_right _ mem_cons_self
    have hlen := congrArg length hinit
    rw [length_append, length_cons, spoken, length_append, length_singleton] at hlen
    have hbound := hq.length
    refine .inl ?_
    rcases mem_append.mp hc with hc | hc
    · obtain ⟨-, h13, h10, h4⟩ := hq.plain c hc
      exact ⟨h4, h10, h13, by omega, by simp⟩
    · rw [mem_singleton.mp hc]
      exact ⟨by decide, by decide, by decide, by omega, by simp⟩

theorem sweep_open (h : s.slot.pendingClose = false ∨ s.live = false ∨ s.fromCli ≠ []) : sweep s = { s with cli := .top } := by
  unfold sweep
  rcases h with h | h | h <;> simp [h]

theorem stage_reading (hq : Valid q) (hrelay : ∀ f, s.relay ≠ .replied f) (hlive : s.live = true) (hlog : s.log = [])
    (hrun : isRun s.cli = false) (hpending : s.slot.pendingClose = false) (hfrom : s.fromCli = []) (hgot : Received q s [])
    (hopen : s.slot.lineBuf.length < (line q).length)
    (hline : s.slot.lineBuf ++ rest s.cli ++ s.toCli ++ (line q).drop s.off = line q)
    (hwake : s.cli = .parked → s.toCli ≠ [] → s.notified = true) : Stage q (cliStep q s) := by
  have hnext : ∀ {x : Cli} {b : Bool}, isRun x = false → rest x = rest s.cli → (x = .parked → s.toCli ≠ [] → b = true) →
      Stage q { s with cli := x, notified := b } := by
    intro x b hx hrest hb
    exact .reading hrelay hlive hlog hx hpending hfrom (hgot.congr rfl rfl) hopen (hrest ▸ hline) hb
  unfold cliStep
  split
  next hcli =>
    rw [hcli] at hnext
    split
    · exact hnext rfl rfl (by simp)
    next hto =>
      rw [if_neg (by simp [hpending])]
      exact hnext rfl rfl fun _ hne => absurd (by simpa [hlive] using hto) hne
  next hcli =>
    rw [hcli] at hnext
    split
    · exact hnext rfl rfl (by simp)
    · exact .reading hrelay hlive hlog hrun hpending hfrom hgot hopen hline hwake
  next hcli =>
    split
    · rw [hcli, rest_visit, append_nil] at hline
      refine .reading hrelay hlive hlog rfl hpending hfrom (hgot.congr rfl rfl) hopen ?_ (by simp)
      rw [rest_pass, append_assoc s.slot.lineBuf, take_append_drop]
      exact hline
    · rw [sweep_open (.inl hpending)]
      rw [hcli] at hnext
      exact hnext rfl rfl (by simp)
  next hcli =>
    rw [sweep_open (.inl hpending)]
    rw [hcli] at hnext
    exact hnext rfl rfl (by simp)
  next c tail hcli =>
    rw [hcli, rest_pass] at hline
    have hbyte : s.slot.lineBuf ++ c :: (tail ++ s.toCli ++ (line q).drop s.off) = line q := by
      simpa using hline
    unfold lineByte
    rcases next_byte hq hbyte with ⟨h4, h10, h13, hlen, htail⟩ | ⟨rfl, hbuf, hend⟩
    · rw [if_neg h4, if_neg (by simp [h10, h13]), if_pos hlen]
      refine .reading hrelay hlive hlog rfl hpending hfrom (hgot.congr rfl rfl) ?_ ?_ (by simp)
      · have hmore := length_pos_iff.mpr htail
        rw [← hbyte, length_append, length_append, length_singleton, length_cons]
        omega
      · simpa using hbyte
    · obtain ⟨hend, hoff⟩ := append_eq_nil_iff.mp hend
      obtain ⟨rfl, hto⟩ := append_eq_nil_iff.mp hend
      have hne : s.slot.lineBuf ≠ [] := by simp [hbuf, spoken]
      rw [if_neg (by decide), if_pos (.inl rfl)]
      rw [if_neg hne, hbuf, cStr_spoken hq, spoken_ends]
      refine .running hrelay hlive ?_ hto hoff _ rfl [] (hgot.congr rfl rfl) ?_
      · rw [hlog, nil_append]
      · simp [hfrom, printed]
  next hcli => simp [hcli, isRun] at hrun
  next hcli => simp [hcli, isRun] at hrun

section

variable (hrelay : ∀ f, s.relay ≠ .replied f) (hlive : s.live = true) (hlog : s.log = [.process (spoken q)])
  (hto : s.toCli = []) (hoff : (line q).drop s.off = [])
include hrelay hlive hlog hto hoff

theorem stage_running {chunks : List Name} (hcli : s.cli = .run [] chunks true)
    {r : List UInt8} (hgot : Received q s r) (hout : r ++ s.fromCli ++ chunks.flatten = printed q) : Stage q (cliStep q s) := by
  unfold cliStep
  rw [hcli]
  cases chunks with
  | nil =>
    rw [flatten_nil, append_nil] at hout
    exact .draining hrelay hlive hlog hto hoff (.inr (.inr rfl)) rfl r (hgot.congr rfl rfl) hout
  | cons chunk chunks =>
    dsimp only
    split
    next hempty =>
      have hempty : chunk = [] := by simpa [hlive] using hempty
      rw [hempty, flatten_cons, nil_append] at hout
      exact .running hrelay hlive hlog hto hoff chunks rfl r (hgot.congr rfl rfl) hout
    · refine .running hrelay hlive hlog hto hoff _ rfl r (hgot.congr rfl rfl) ?_
      rw [← hout]
      rw [flatten_cons, flatten_cons, ← append_assoc r, append_assoc (r ++ s.fromCli), ← append_assoc (chunk.take _),
        take_append_drop]

theorem stage_draining (hcli : s.cli = .top ∨ s.cli = .visit ∨ s.cli = .pass [])
    (hpending : s.slot.pendingClose = true) {r : List UInt8} (hgot : Received q s r) (hout : r ++ s.fromCli = printed q) :
    Stage q (cliStep q s) := by
  have hsweep : Stage q (sweep s) := by
    rcases eq_or_ne s.fromCli [] with hfrom | hfrom
    · unfold sweep
      rw [if_pos (by simp [hpending, hlive, hfrom])]
      rw [hfrom, append_nil] at hout
      subst hout
      refine .closed (fun f hf => absurd hf (hrelay f)) rfl ?_ (.inl rfl) hfrom rfl (hgot.congr rfl rfl)
      rw [hlog]
      rfl
    · rw [sweep_open (.inr (.inr hfrom))]
      exact .draining hrelay hlive hlog hto hoff (.inl rfl) hpending r (hgot.congr rfl rfl) hout
  unfold cliStep
  rcases hcli with hcli | hcli | hcli
  · rw [hcli]
    rw [if_neg (by simp [hto]), if_pos hpending]
    exact .draining hrelay hlive hlog hto hoff (.inr (.inl rfl)) hpending r (hgot.congr rfl rfl) hout
  · rw [hcli]
    dsimp only
    rw [if_neg (by simp [hto])]
    exact hsweep
  · rw [hcli]
    exact hsweep

end

theorem stage_closed (hrelay : ∀ f, s.relay = .replied f → f = rpcReply q.id (answer q)) (hlive : s.live = false)
    (hlog : s.log = [.process (spoken q), .closed]) (hcli : s.cli = .top ∨ s.cli = .parked ∨ s.cli = .visit)
    (hfrom : s.fromCli = []) (hpending : s.slot.pendingClose = false) (hgot : Received q s (printed q)) : Stage q (cliStep q s) := by
  have hnext : ∀ {x : Cli} {b : Bool}, x = .top ∨ x = .parked ∨ x = .visit → Stage q { s with cli := x, notified := b } :=
    fun hx => .closed hrelay hlive hlog hx hfrom hpending (hgot.congr rfl rfl)
  unfold cliStep
  rcases hcli with hcli | hcli | hcli
  · rw [hcli]
    rw [if_neg (by simp [hlive]), if_neg (by simp [hpending])]
    exact hnext (.inr (.inl rfl))
  · rw [hcli]
    dsimp only
    split
    · exact hnext (.inr (.inr rfl))
    · exact .closed hrelay hlive hlog (.inr (.inl hcli)) hfrom hpending hgot
  · rw [hcli]
    dsimp only
    rw [if_neg (by simp [hlive]), sweep_open (.inl hpending)]
    exact hnext (.inl rfl)

theorem stage_step (hq : Valid q) (h : Stage q s) (w : Who) : Stage q (step q s w) := by
  cases w with
  | relay => exact stage_relay h
  | cli =>
    cases h with
    | reading hrelay hlive hlog hrun hpending hfrom hgot hopen hline hwake =>
      exact stage_reading hq hrelay hlive hlog hrun hpending hfrom hgot hopen hline hwake
    | running hrelay hlive hlog hto hoff chunks hcli r hgot hout => exact stage_running hrelay hlive hlog hto hoff hcli hgot hout
    | draining hrelay hlive hlog hto hoff hcli hpending r hgot hout =>
      exact stage_draining hrelay hlive hlog hto hoff hcli hpending hgot hout
    | closed hrelay hlive hlog hcli hfrom hpending hgot => exact stage_closed hrelay hlive hlog hcli hfrom hpending hgot

theorem stage_start (q : Request) (handle : Nat) : Stage q (start handle) :=
  .reading (fun f => by simp [start]) rfl rfl rfl rfl rfl ⟨take_nil.symm, by simp [start]⟩ (by simp [line, start, cliTcpConnect, connectData]) (by simp [start, cliTcpConnect, connectData, rest]) (by simp [start])

end Cli

end Spangap.FramedRpc
