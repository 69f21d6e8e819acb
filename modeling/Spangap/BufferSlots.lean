import Spangap.Its

namespace Spangap.BufferSlots

open PacketLink (Link linkAcquire linkFree fresh)
open Its (TaskId Kind Port World portFind)
open List Option Function Runs

section Tables

variable {α ρ : Type} [DecidableEq ρ] {busy : α → Bool} {l : List α} {i : Nat} {r : ρ} {refs : ρ → Option Nat}
  {used used' : Nat → Prop}

def Used (busy : α → Bool) (l : List α) (i : Nat) : Prop := ∃ a, l[i]? = some a ∧ busy a = true

/-- The slots in use are those referred to, each in one place. -/
structure Tracks (used : Nat → Prop) (refs : ρ → Option Nat) : Prop where
  exact : ∀ i, used i ↔ ∃ r, refs r = some i
  once : ∀ r q i, refs r = some i → refs q = some i → r = q

theorem Tracks.add (h : Tracks used refs) (hr : refs r = none) (hfree : ¬used i) (hused : ∀ j, used' j ↔ used j ∨ j = i) :
    Tracks used' (update refs r (some i)) := by
  obtain ⟨hexact, honce⟩ := h
  constructor
  · intro j
    rw [hused, hexact]
    constructor
    · rintro (⟨q, hq⟩ | rfl)
      · exact ⟨q, by grind⟩
      · exact ⟨r, by simp⟩
    · grind
  · grind

theorem Tracks.drop (h : Tracks used refs) (hused : ∀ j, used' j ↔ used j ∧ refs r ≠ some j) :
    Tracks used' (update refs r none) := by
  obtain ⟨hexact, honce⟩ := h
  constructor
  · intro j
    rw [hused, hexact]
    constructor
    · rintro ⟨⟨q, hq⟩, hne⟩
      exact ⟨q, by grind⟩
    · grind
  · grind

/-- A slot that was free is marked, and no other one changes. -/
def Marks (busy : α → Bool) (l l' : List α) (i : Nat) : Prop :=
  ¬Used busy l i ∧ ∀ j, Used busy l' j ↔ Used busy l j ∨ j = i

theorem marks_modify {p : α → Bool} (hi : l.findIdx? p = some i) (hp : ∀ a, p a = true → busy a = false) {f : α → α}
    (hf : ∀ a, busy (f a) = true) : Marks busy l (l.modify i f) i := by
  obtain ⟨hlt, hpi, -⟩ := findIdx?_eq_some_iff_getElem.mp hi
  refine ⟨?_, fun j => ?_⟩
  · rintro ⟨a, ha, hbusy⟩
    rw [getElem?_eq_getElem hlt, some_inj] at ha
    rw [← ha, hp _ hpi] at hbusy
    cases hbusy
  · rcases eq_or_ne j i with rfl | hj
    · simp [Used, hf, hlt]
    · simp [Used, hj, hj.symm]

theorem marks_append {a : α} (ha : busy a = true) : Marks busy l (l ++ [a]) l.length := by
  refine ⟨?_, fun j => ?_⟩
  · rintro ⟨b, hb, -⟩
    simp at hb
  · rcases Nat.lt_trichotomy j l.length with hj | rfl | hj
    · simp [Used, getElem?_append_left hj, Nat.ne_of_lt hj]
    · simp [Used, ha]
    · have hnew : (l ++ [a])[j]? = none := getElem?_eq_none (by simpa using Nat.succ_le_of_lt hj)
      have hold : l[j]? = none := getElem?_eq_none (Nat.le_of_lt hj)
      simp [Used, hnew, hold, Nat.ne_of_gt hj]

def release (f : α → α) : Option Nat → List α → List α
  | none, l => l
  | some i, l => l.modify i f

theorem used_release {f : α → α} (hf : ∀ a, busy (f a) = false) (o : Option Nat) (j : Nat) :
    Used busy (release f o l) j ↔ Used busy l j ∧ o ≠ some j := by
  cases o with
  | none => simp [release]
  | some i =>
    rcases eq_or_ne j i with rfl | hj
    · simp [release, Used, hf]
    · simp [release, Used, hj.symm]

/-- The outcome of a request for a slot: a mark and its index, or nothing. -/
def Gets (busy : α → Bool) (l : List α) (q : List α × Option Nat) : Prop :=
  q = (l, none) ∨ ∃ i, q.2 = some i ∧ Marks busy l q.1 i

theorem Tracks.get (h : Tracks (Used busy l) refs) (hr : refs r = none) {q : List α × Option Nat} (hq : Gets busy l q) :
    Tracks (Used busy q.1) (update refs r q.2) := by
  rcases hq with rfl | ⟨i, hi, hfree, hused⟩
  · rwa [← hr, update_eq_self]
  · rw [hi]
    exact h.add hr hfree hused

end Tables

inductive Way
  | to
  | back
  deriving DecidableEq, Repr

/-- A slot of the buffer pool; `made` tells whether its stream buffer exists. -/
structure PoolEntry where
  size : Nat
  pooled : Bool
  made : Bool
  sem : Bool
  inUse : Bool
  deriving DecidableEq, Repr

def maxPool : Nat := 128

/-- A free buffer of the size, else a slot without a buffer, else a new slot.
`bufOk` and `semOk` say whether the memory for them is there. -/
def poolGet (bufOk semOk : Bool) (size : Nat) (noPool : Bool) (pool : List PoolEntry) : List PoolEntry × Option Nat :=
  match if noPool then none else pool.findIdx? fun e => !e.inUse && e.pooled && e.made && e.size == size with
  | some i => (pool.modify i fun e => { e with inUse := true }, some i)
  | none =>
    match pool.findIdx? fun e => !e.inUse && !e.made with
    | some i =>
      (pool.modify i fun e => ⟨size, !noPool, bufOk, e.sem || semOk, true⟩,
        if bufOk && ((pool[i]?.map PoolEntry.sem).getD false || semOk) then some i else none)
    | none =>
      if maxPool ≤ pool.length then (pool, none)
      else (pool ++ [⟨size, !noPool, bufOk, semOk, true⟩], if bufOk && semOk then some pool.length else none)

/-- A buffer outside the pool is deleted, unless `poolRetainOnFree` made it one of the pool's. -/
def poolFree (retain : Bool) (e : PoolEntry) : PoolEntry :=
  if e.pooled || retain then { e with pooled := true, inUse := false } else { e with size := 0, made := false, inUse := false }

structure Conn where
  client : TaskId
  server : TaskId
  port : Nat
  kind : Kind
  noPool : Bool
  pool : Way → Option Nat
  link : Way → Option Nat
  recvCb : Option Nat
  disconnectCb : Option Nat

structure Sys where
  conns : Nat → Option Conn
  pool : List PoolEntry
  links : List (Link Unit)

def sizeOf (sp : Port) : Way → Nat
  | .to => sp.toSize
  | .back => sp.fromSize

def acquire (luck : Way → Bool × Bool) (sp : Port) (h : Nat) (d : Way) (s : Sys) : Sys × Bool :=
  match s.conns h with
  | none => (s, false)
  | some c =>
    if sizeOf sp d = 0 then (s, true)
    else if sp.kind = .packet then
      let q := linkAcquire (luck d).1 (luck d).2 sp.depth (sizeOf sp d) sp.maxMsg s.links
      ({ s with links := q.1, conns := update s.conns h (some { c with link := update c.link d q.2 }) },
        q.2.isSome)
    else
      let q := poolGet (luck d).1 (luck d).2 (sizeOf sp d) c.noPool s.pool
      ({ s with pool := q.1, conns := update s.conns h (some { c with pool := update c.pool d q.2 }) },
        q.2.isSome)

def connFree (retain : Bool) (s : Sys) (h : Nat) : Sys :=
  match s.conns h with
  | none => s
  | some c =>
    ⟨update s.conns h none,
      release (poolFree retain) (c.pool .back) (release (poolFree retain) (c.pool .to) s.pool),
      release (fun L => (linkFree L).1) (c.link .back) (release (fun L => (linkFree L).1) (c.link .to) s.links)⟩

/-- A CONNECT that has found a free entry. A packet connection that misses its
first ring does not ask for the other one. `accepts` is the answer of the
callback, if the port has one. -/
def connect (luck : Way → Bool × Bool) (sp : Port) (client me : TaskId) (noPool accepts : Bool) (h : Nat) (s : Sys) : Sys :=
  let c : Conn := ⟨client, me, sp.port, sp.kind, noPool, fun _ => none, fun _ => none, none, none⟩
  let q := acquire luck sp h .to { s with conns := update s.conns h (some c) }
  let r := if sp.kind = .packet ∧ q.2 = false then q else acquire luck sp h .back q.1
  if q.2 && r.2 && (!sp.onConnect || accepts) then r.1 else connFree false r.1 h

def activeCount (s : Sys) (t : TaskId) (port : Nat) : Nat :=
  (range Its.maxConns).countP fun h => (s.conns h).any fun c => c.server = t ∧ c.port = port

/-- What the busy callback says and whether it made room, and what becomes of the message. -/
structure Outcome where
  refuses : Bool
  relieved : Bool
  hdr : Bool
  pay : Bool
  enq : Bool
  deriving DecidableEq, Repr

/-- The entry and the port that a forward is about, if it passes the checks. -/
def admitted (w : World) (o : Outcome) (s : Sys) (me : TaskId) (h : Nat) (target : TaskId) (port : Nat) : Option (Conn × Port) :=
  ((s.conns h).filter fun c => c.server = me).bind fun c =>
    ((if target < w.count ∧ (w.task target).isServer then portFind w target port else none).filter fun sp =>
      !(decide (sp.maxHandles ≤ activeCount s target port) && sp.onBusy && (o.refuses || !o.relieved))).map fun sp => (c, sp)

/-- The message passes the guard, is built and finds a place in the inbox. -/
def posted (w : World) (o : Outcome) (target : TaskId) (data : Bool) (len : Nat) : Bool :=
  decide (len ≤ (w.task target).inboxMsgMax) && o.hdr && (!(data && 0 < len) || o.pay) && o.enq

def itsServerForwardByTaskHandle (w : World) (o : Outcome) (s : Sys) (me : TaskId) (h : Nat) (target : TaskId) (port : Nat)
    (data : Bool) (len : Nat) : Sys × Option Nat :=
  match admitted w o s me h target port with
  | none => (s, none)
  | some (c, sp) =>
    ({ s with conns := update s.conns h (some { c with server := target, port := port, kind := sp.kind }) },
      if posted w o target data len then some h else none)

/-- Each direction of the port has a buffer of the port's kind, and no buffer is of the other kind. -/
def Fits (sp : Port) (c : Conn) : Prop :=
  ∀ d, if sp.kind = .packet then c.pool d = none ∧ (sizeOf sp d ≠ 0 → (c.link d).isSome = true)
    else c.link d = none ∧ (sizeOf sp d ≠ 0 → (c.pool d).isSome = true)

/-- A connection to an open port, of the port's kind and with the buffers of it. -/
def Served (w : World) (c : Conn) : Prop := ∃ sp, portFind w c.server c.port = some sp ∧ c.kind = sp.kind ∧ Fits sp c

section Forward

variable {w : World} {o : Outcome} {s : Sys} {me target : TaskId} {h port len : Nat} {data : Bool} {c : Conn}

theorem admitted_entry {sp : Port} (h' : admitted w o s me h target port = some (c, sp)) :
    s.conns h = some c ∧ portFind w target port = some sp := by
  simp only [admitted, bind_eq_some_iff, filter_eq_some_iff, map_eq_some_iff] at h'
  grind

/-- A forward that fails changes nothing and one that is made leaves a connection with the buffers of its port, exactly if the
message of a forward that passes the checks is posted and the buffers are those of the target's port, or nothing is to change. -/
theorem forward_safe_iff :
    (((itsServerForwardByTaskHandle w o s me h target port data len).2 = none →
        (itsServerForwardByTaskHandle w o s me h target port data len).1.conns h = s.conns h) ∧
      ((itsServerForwardByTaskHandle w o s me h target port data len).2 = some h →
        ∀ c, (itsServerForwardByTaskHandle w o s me h target port data len).1.conns h = some c → Served w c)) ↔
    ∀ c sp, admitted w o s me h target port = some (c, sp) →
      if posted w o target data len then Fits sp c else target = c.server ∧ port = c.port ∧ sp.kind = c.kind := by
  unfold itsServerForwardByTaskHandle
  cases hadm : admitted w o s me h target port with
  | none => simp
  | some q =>
    obtain ⟨c, sp⟩ := q
    obtain ⟨hentry, hport⟩ := admitted_entry hadm
    by_cases hposted : posted w o target data len = true
    · simp [hposted, Served, hport, Fits]
    · have hsame : { c with server := target, port := port, kind := sp.kind } = c ↔
          target = c.server ∧ port = c.port ∧ sp.kind = c.kind := by
        cases c
        simp
      simp [hposted, hsame, hentry]

end Forward

def refs (f : Conn → Way → Option Nat) (conns : Nat → Option Conn) (r : Nat × Way) : Option Nat :=
  (conns r.1).bind fun c => f c r.2

/-- No slot is leaked and none is shared. -/
structure Exact (s : Sys) : Prop where
  pool : Tracks (Used PoolEntry.inUse s.pool) (refs Conn.pool s.conns)
  links : Tracks (Used Link.inUse s.links) (refs Conn.link s.conns)

section Slots

variable {s : Sys} {h : Nat} {d : Way} {c c' : Conn} {sp : Port} {luck : Way → Bool × Bool} {conns : Nat → Option Conn}
  {f : Conn → Way → Option Nat} {o : Option Nat}

theorem gets_poolGet (size : Nat) (noPool : Bool) (pool : List PoolEntry) :
    Gets PoolEntry.inUse pool (poolGet true true size noPool pool) := by
  unfold poolGet
  split
  next i hi =>
    split at hi
    · cases hi
    · exact .inr ⟨i, rfl, marks_modify hi (fun e he => by simp_all) fun _ => rfl⟩
  · split
    next i hi => exact .inr ⟨i, by simp, marks_modify hi (fun e he => by simp_all) fun _ => rfl⟩
    · split
      · exact .inl rfl
      · exact .inr ⟨_, rfl, marks_append rfl⟩

theorem gets_linkAcquire (depth byteCap maxMsg : Nat) (links : List (Link Unit)) :
    Gets Link.inUse links (linkAcquire true true depth byteCap maxMsg links) := by
  unfold linkAcquire
  dsimp only
  split
  next i hi => exact .inr ⟨i, rfl, marks_modify hi (fun L hL => by simp_all) fun _ => rfl⟩
  · split
    next i hi => exact .inr ⟨i, by simp, marks_modify hi (fun L hL => by simp_all) fun _ => rfl⟩
    · split
      · exact .inl rfl
      · exact .inr ⟨_, rfl, marks_append rfl⟩

theorem refs_update (hc : conns h = some c) (hf : f c' = update (f c) d o) :
    refs f (update conns h (some c')) = update (refs f conns) (h, d) o := by
  funext ⟨x, e⟩
  rcases eq_or_ne x h with rfl | hx
  · rcases eq_or_ne e d with rfl | he
    · simp [refs, hf]
    · simp [refs, hf, hc, he]
  · simp [refs, hx]

theorem refs_congr (hc : (conns h).elim (fun _ => none) f = f c') : refs f (update conns h (some c')) = refs f conns := by
  funext ⟨x, e⟩
  rcases eq_or_ne x h with rfl | hx
  · cases hx : conns x <;> simp_all [refs, ← hc]
  · simp [refs, hx]

theorem refs_free (h : Nat) : refs f (update conns h none) =
    update (update (refs f conns) (h, .to) none) (h, .back) none := by
  funext ⟨x, e⟩
  rcases eq_or_ne x h with rfl | hx
  · cases e <;> simp [refs]
  · simp [refs, hx]

/-- The entry is there, and has no buffer in this direction yet. -/
def Blank (s : Sys) (h : Nat) (d : Way) : Prop := ∃ c, s.conns h = some c ∧ c.pool d = none ∧ c.link d = none

theorem exact_acquire (hs : Exact s) (hblank : Blank s h d) (hluck : luck d = (true, true)) :
    Exact (acquire luck sp h d s).1 ∧ ∀ e, e ≠ d → Blank s h e → Blank (acquire luck sp h d s).1 h e := by
  obtain ⟨c, hc, hpool, hlink⟩ := hblank
  unfold acquire
  rw [hc]
  dsimp only
  split
  · exact ⟨hs, fun _ _ h => h⟩
  split
  · have hget := @Tracks.get _ _ _ _ _ (h, d) _ hs.links (by simp [refs, hc, hlink]) _
      (gets_linkAcquire sp.depth (sizeOf sp d) sp.maxMsg s.links)
    refine ⟨⟨?_, ?_⟩, ?_⟩
    · rw [refs_congr (by rw [hc]; rfl)]
      exact hs.pool
    · rw [hluck, refs_update hc rfl]
      exact hget
    · rintro e he ⟨c₁, hc₁, hp₁, hl₁⟩
      cases hc.symm.trans hc₁
      exact ⟨_, update_self .., hp₁, by simp [he, hl₁]⟩
  · have hget := @Tracks.get _ _ _ _ _ (h, d) _ hs.pool (by simp [refs, hc, hpool]) _
      (gets_poolGet (sizeOf sp d) c.noPool s.pool)
    refine ⟨⟨?_, ?_⟩, ?_⟩
    · rw [hluck, refs_update hc rfl]
      exact hget
    · rw [refs_congr (by rw [hc]; rfl)]
      exact hs.links
    · rintro e he ⟨c₁, hc₁, hp₁, hl₁⟩
      cases hc.symm.trans hc₁
      exact ⟨_, update_self .., by simp [he, hp₁], hl₁⟩

theorem Tracks.free {α : Type} {busy : α → Bool} {l : List α} {g : α → α} (ht : Tracks (Used busy l) (refs f conns))
    (hg : ∀ a, busy (g a) = false) (hc : conns h = some c) :
    Tracks (Used busy (release g (f c .back) (release g (f c .to) l))) (refs f (update conns h none)) := by
  have hfirst : ∀ j, Used busy (release g (f c .to) l) j ↔ Used busy l j ∧ refs f conns (h, .to) ≠ some j := by
    simp [refs, hc, used_release hg]
  rw [refs_free]
  refine (ht.drop hfirst).drop fun j => ?_
  rw [used_release hg, update_of_ne (by simp)]
  simp [refs, hc]

theorem exact_connFree (hs : Exact s) (retain : Bool) (h : Nat) : Exact (connFree retain s h) := by
  unfold connFree
  split
  · exact hs
  next c hc =>
    refine ⟨hs.pool.free (fun e => ?_) hc, hs.links.free (fun L => ?_) hc⟩
    · unfold poolFree
      split <;> rfl
    · unfold linkFree
      split <;> rfl

theorem exact_connect (hs : Exact s) (hfree : s.conns h = none) (hluck : ∀ d, luck d = (true, true)) (client me : TaskId)
    (noPool accepts : Bool) : Exact (connect luck sp client me noPool accepts h s) := by
  unfold connect
  extract_lets c q r
  have hnew : Exact { s with conns := update s.conns h (some c) } := by
    constructor
    · rw [refs_congr (by rw [hfree]; rfl)]
      exact hs.pool
    · rw [refs_congr (by rw [hfree]; rfl)]
      exact hs.links
  have hblank : ∀ d, Blank { s with conns := update s.conns h (some c) } h d :=
    fun d => ⟨c, update_self .., rfl, rfl⟩
  obtain ⟨hq, hback⟩ := exact_acquire hnew (hblank .to) (hluck .to)
  have hr : Exact r.1 := by
    unfold r
    split
    · exact hq
    · exact (exact_acquire hq (hback .back (by simp) (hblank .back)) (hluck .back)).1
  split
  · exact hr
  · exact exact_connFree hr false h

end Slots

inductive Action
  | connect (luck : Way → Bool × Bool) (sp : Port) (client me : TaskId) (noPool accepts : Bool) (h : Nat)
  | close (retain : Bool) (h : Nat)
  | forward (w : World) (o : Outcome) (me : TaskId) (h : Nat) (target : TaskId) (port : Nat) (data : Bool) (len : Nat)

def step (s : Sys) : Action → Option Sys
  | .connect luck sp client me noPool accepts h =>
    if (s.conns h).isNone then some (connect luck sp client me noPool accepts h s) else none
  | .close retain h => some (connFree retain s h)
  | .forward w o me h target port data len => some (itsServerForwardByTaskHandle w o s me h target port data len).1

def start : Sys := ⟨fun _ => none, [], []⟩

/-- The memory for new buffers, rings and semaphores is there. -/
def Spared : Sys → Action → Prop
  | _, .connect luck .. => ∀ d, luck d = (true, true)
  | _, _ => True

theorem exact_step (s : Sys) (x : Action) (t : Sys) (hs : Exact s) (hok : Spared s x) (h : step s x = some t) : Exact t := by
  cases x with
  | connect luck sp client me noPool accepts i =>
    rw [step, ite_none_right_eq_some, isNone_iff_eq_none] at h
    obtain ⟨hfree, ⟨⟩⟩ := h
    exact exact_connect hs hfree hok client me noPool accepts
  | close retain i =>
    cases h
    exact exact_connFree hs retain i
  | forward w o me i target port data len =>
    cases h
    unfold itsServerForwardByTaskHandle
    split
    · exact hs
    next c sp hadm =>
      have hc := (admitted_entry hadm).1
      constructor
      · rw [refs_congr (by rw [hc]; rfl)]
        exact hs.pool
      · rw [refs_congr (by rw [hc]; rfl)]
        exact hs.links

/-- The slots in use are those that the connections refer to. -/
theorem slots_exact {s : Sys} {xs : List Action} (hok : Meets step Spared start xs) (hrun : run step start xs = some s) :
    Exact s := by
  have hempty : ∀ {α : Type} (busy : α → Bool) (f : Conn → Way → Option Nat), Tracks (Used busy []) (refs f start.conns) :=
    fun _ _ => ⟨by simp [Used, refs, start], by simp [refs, start]⟩
  exact run_invariant exact_step ⟨hempty _ _, hempty _ _⟩ hok hrun

def stream : Port := ⟨7, .stream, 4, 64, 64, 1, 64, false, false, false⟩

def opened : List Action := [.connect (fun _ => (true, true)) stream 1 0 false true 0]

theorem slots_exact_opened : ∃ s, run step start opened = some s ∧ Exact s := by
  have hok : Meets step Spared start opened := ⟨fun _ => rfl, fun _ _ => trivial⟩
  exact ⟨_, rfl, slots_exact hok rfl⟩

/-- The second buffer of a connection finds no memory: its slot stays marked, and no connection is left. -/
theorem slot_leaks :
    (run step start [.connect (fun d => (d == .to, true)) stream 1 0 false true 0]).map
      (fun s => (s.pool.map PoolEntry.inUse, (range Its.maxConns).all fun h => (s.conns h).isNone)) =
    some ([false, true], true) := by
  decide

/-- Two servers with a packet port; the first one has a stream connection. -/
def servers : World := ⟨2, fun _ => ⟨true, false, false, 8, 64, [⟨7, .packet, 4, 64, 64, 1, 64, false, false, false⟩], []⟩⟩

def held : Conn := ⟨5, 0, 3, .stream, false, fun _ => some 0, fun _ => none, none, none⟩

def table : Sys := ⟨fun h => if h = 0 then some held else none, [], []⟩

/-- A message that is too long fails after the connection has gone over, and one that arrives turns stream buffers into packet
rings. -/
theorem forward_spoils :
    ((itsServerForwardByTaskHandle servers ⟨false, false, true, true, true⟩ table 0 0 1 7 true 100).2 = none ∧
      ((itsServerForwardByTaskHandle servers ⟨false, false, true, true, true⟩ table 0 0 1 7 true 100).1.conns 0).map Conn.server =
        some 1) ∧
    (itsServerForwardByTaskHandle servers ⟨false, false, true, true, true⟩ table 0 0 1 7 true 8).2 = some 0 ∧
      ((itsServerForwardByTaskHandle servers ⟨false, false, true, true, true⟩ table 0 0 1 7 true 8).1.conns 0).map
        (fun c => (c.kind, c.pool .to, c.link .to)) = some (.packet, some 0, none) := by
  decide

end Spangap.BufferSlots
