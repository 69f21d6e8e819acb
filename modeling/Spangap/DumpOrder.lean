import Mathlib.Data.List.Basic
import Spangap.Runs

namespace Spangap.DumpOrder

open List Option Runs

/-- A queued message of a dump or of the reload of a store: how many sessions
had connected when its snapshot was taken, and its length. -/
structure Chunk where
  taken : Nat
  size : Nat
  deriving DecidableEq, Repr

/-- The task that builds a dump, once it has taken its snapshot with the chunks left. -/
inductive Builder
  | off
  | spawned
  | dumping (taken : Nat) (left : List Nat)
  deriving DecidableEq, Repr

inductive Place
  | poll
  | config
  | kick
  | adopt
  | send
  | patch
  deriving DecidableEq, Repr

/-- What goes out, with the number of its session. A patch comes with the chunks
that were still queued and with whether a dump was under way. -/
inductive Sent
  | chunk (session : Nat) (c : Chunk)
  | patch (session : Nat) (queued : List Chunk) (underway : Bool)
  deriving DecidableEq, Repr

/-- `s_dumpGen` counts connects and disconnects in 32 bits. `bumps`, `kicked`
and `builtFor` are history: their true number, that number when the build was
kicked, and the session it was kicked for. -/
structure Sys where
  place : Place
  connects : Nat
  live : Bool
  dumpGen : Nat
  dumpBuildGen : Nat
  dumpBuilding : Bool
  dumpDone : Bool
  builder : Builder
  staging : List Chunk
  dumpQueue : List Chunk
  dumpPos : Nat
  dumpPending : Bool
  dirtyKeys : List Nat
  mirrorLost : Bool
  bumps : Nat
  kicked : Nat
  builtFor : Nat
  sent : List Sent
  deriving DecidableEq, Repr

def boot : Sys where
  place := .poll
  connects := 0
  live := false
  dumpGen := 0
  dumpBuildGen := 0
  dumpBuilding := false
  dumpDone := false
  builder := .off
  staging := []
  dumpQueue := []
  dumpPos := 0
  dumpPending := false
  dirtyKeys := []
  mirrorLost := false
  bumps := 0
  kicked := 0
  builtFor := 0
  sent := []

/-- The link while a patch is flushed: memory for the patch and its text, whether
any key is mirrored, the lengths, the room, and whether the send takes. -/
structure Link where
  creates : Bool
  empty : Bool
  prints : Bool
  len : Nat
  sendBuf : Nat
  room : Nat
  takes : Bool

inductive Action
  | connect
  | disconnect
  | change (key : Nat) (secret : Bool)
  | reload (sizes keys : List Nat)
  | pass
  | kick (spawns : Bool)
  | adopt
  | send (cap room : Nat) (takes : Bool)
  | flush (link : Link) (reloads : List Nat)
  | snapshot (sizes : List Nat)
  | emit
  | finish

def generations : Nat := 4294967296

def bumped (s : Sys) : Sys := { s with dumpGen := (s.dumpGen + 1) % generations, bumps := s.bumps + 1 }

def storageItsConnect (s : Sys) : Sys :=
  if s.live then s else { bumped s with live := true, connects := s.connects + 1, dumpPending := true }

def storageItsDisconnect (s : Sys) : Sys :=
  { bumped s with
    live := false
    dumpPending := false
    dumpQueue := []
    dumpPos := 0
    dirtyKeys := []
    mirrorLost := false }

def dirtyMax : Nat := 4096

def dcAccumulateChange (key : Nat) (secret : Bool) (s : Sys) : Sys :=
  if s.live = false ∨ secret = true ∨ s.mirrorLost = true then s
  else if dirtyMax ≤ s.dirtyKeys.length then { s with dirtyKeys := [], mirrorLost := true }
  else { s with dirtyKeys := if key ∈ s.dirtyKeys then s.dirtyKeys else s.dirtyKeys ++ [key] }

/-- The snapshot of a store is taken and queued on the spot. It covers the dirty
keys below the store. -/
def dcQueueReload (sizes keys : List Nat) (s : Sys) : Sys :=
  { s with
    dumpQueue := s.dumpQueue ++ sizes.map fun n => ⟨s.connects, n⟩
    dirtyKeys := s.dirtyKeys.filter fun k => k ∉ keys }

def kickBuild (spawns : Bool) (s : Sys) : Sys :=
  if s.dumpPending && !s.dumpBuilding then
    { s with
      staging := []
      dumpDone := false
      dumpBuildGen := s.dumpGen
      dumpBuilding := spawns
      builder := if spawns then .spawned else s.builder
      kicked := s.bumps
      builtFor := s.connects }
  else s

def adopted (s : Sys) : Sys :=
  if s.dumpBuildGen = s.dumpGen ∧ s.live = true then
    { s with
      dumpQueue := if s.dumpQueue = [] then s.staging else s.dumpQueue ++ s.staging
      dumpPos := if s.dumpQueue = [] then 0 else s.dumpPos
      dumpPending := false }
  else s

def adoptBuild (s : Sys) : Sys :=
  if s.dumpBuilding && s.dumpDone then { adopted s with staging := [], dumpBuilding := false } else s

def tidy (s : Sys) : Sys := if s.dumpQueue.length ≤ s.dumpPos then { s with dumpQueue := [], dumpPos := 0 } else s

def sendNext (cap room : Nat) (takes : Bool) (s : Sys) : Sys :=
  match s.dumpQueue[s.dumpPos]? with
  | none => { tidy s with place := .patch }
  | some c =>
    if cap ≠ 0 ∧ cap < c.size + 4 then { s with dumpPos := s.dumpPos + 1 }
    else if c.size ≤ room ∧ takes = true then
      { s with dumpPos := s.dumpPos + 1, sent := s.sent ++ [.chunk s.connects c] }
    else { tidy s with place := .patch }

def dcDumpInProgress (s : Sys) : Bool := s.dumpPending || decide (s.dumpPos < s.dumpQueue.length)

def redump (reloads : List Nat) (s : Sys) : Sys :=
  dcQueueReload reloads [] { s with mirrorLost := false, dirtyKeys := [], dumpPending := true }

def dcFlushPatch (l : Link) (reloads : List Nat) (s : Sys) : Sys :=
  if s.live = false then s
  else if s.dirtyKeys = [] ∧ s.mirrorLost = false then s
  else if l.room = 0 then s
  else if s.mirrorLost then redump reloads s
  else if l.creates = false then s
  else if l.empty then { s with dirtyKeys := [] }
  else if l.prints = false then s
  else if l.sendBuf < l.len then redump reloads s
  else if l.room < l.len ∨ l.takes = false then s
  else
    { s with
      dirtyKeys := []
      sent := s.sent ++ [.patch s.connects (s.dumpQueue.drop s.dumpPos)
        (s.dumpPending || s.dumpBuilding && s.builtFor == s.connects)] }

/-- The storage task acts where it stands, and the builder at any time. Connects
and disconnects are seen while the task polls its inbox. -/
def step (s : Sys) : Action → Option Sys
  | .connect => if s.place = .poll then some (storageItsConnect s) else none
  | .disconnect => if s.place = .poll then some (storageItsDisconnect s) else none
  | .change key secret =>
    if s.place = .poll ∨ s.place = .config then some (dcAccumulateChange key secret s) else none
  | .reload sizes keys => if s.place = .config ∧ s.live = true then some (dcQueueReload sizes keys s) else none
  | .pass =>
    match s.place with
    | .poll => some { s with place := .config }
    | .config => some { s with place := .kick }
    | _ => none
  | .kick spawns =>
    if s.place = .kick then
      if s.live then some { kickBuild spawns s with place := .adopt } else some { s with place := .patch }
    else none
  | .adopt => if s.place = .adopt then some { adoptBuild s with place := .send } else none
  | .send cap room takes => if s.place = .send then some (sendNext cap room takes s) else none
  | .flush l reloads =>
    if s.place = .patch then
      some { (if dcDumpInProgress s then s else dcFlushPatch l reloads s) with place := .poll }
    else none
  | .snapshot sizes =>
    match s.builder with
    | .spawned => some { s with builder := .dumping s.connects sizes }
    | _ => none
  | .emit =>
    match s.builder with
    | .dumping taken (n :: ns) =>
      some { s with builder := .dumping taken ns, staging := s.staging ++ [⟨taken, n⟩] }
    | _ => none
  | .finish =>
    match s.builder with
    | .dumping _ [] => some { s with builder := .off, dumpDone := true }
    | _ => none

/-- A chunk comes from a snapshot taken when its session had connected, and a
patch finds no chunk queued and no dump under way. -/
def Sent.InOrder : Sent → Prop
  | .chunk session c => session ≤ c.taken
  | .patch _ queued underway => queued = [] ∧ underway = false

instance (m : Sent) : Decidable m.InOrder :=
  match m with
  | .chunk _ _ => inferInstanceAs (Decidable (_ ≤ _))
  | .patch _ _ _ => inferInstanceAs (Decidable (_ ∧ _))

/-- Fewer connects and disconnects fall into one build than the counter can tell apart. -/
def Allowed (s : Sys) : Action → Prop
  | .connect => s.live = false → s.dumpBuilding = true → s.bumps + 1 < s.kicked + generations
  | .disconnect => s.dumpBuilding = true → s.bumps + 1 < s.kicked + generations
  | _ => True

instance (s : Sys) (a : Action) : Decidable (Allowed s a) :=
  match a with
  | .connect => inferInstanceAs (Decidable (_ → _ → _))
  | .disconnect => inferInstanceAs (Decidable (_ → _))
  | .change _ _ | .reload _ _ | .pass | .kick _ | .adopt | .send _ _ _ | .flush _ _ | .snapshot _ | .emit | .finish =>
    .isTrue trivial

/-- A build that is under way, against the sessions since it was kicked. -/
structure Current (s : Sys) : Prop where
  gen : s.dumpBuildGen = s.kicked % generations
  le : s.kicked ≤ s.bumps
  near : s.bumps < s.kicked + generations
  same : s.kicked = s.bumps → s.builtFor = s.connects
  mine : s.live = true → s.builtFor = s.connects → s.dumpPending = true

def Fresh (s : Sys) (taken : Nat) : Prop := s.builtFor ≤ taken ∧ taken ≤ s.connects

def Builder.Fresh (s : Sys) : Builder → Prop
  | .off => True
  | .spawned => True
  | .dumping taken _ => DumpOrder.Fresh s taken

structure Inv (s : Sys) : Prop where
  gen : s.dumpGen = s.bumps % generations
  queue : ∀ c ∈ s.dumpQueue, c.taken = s.connects
  idle : s.live = false → s.dumpQueue = []
  built : s.builtFor ≤ s.connects
  current : s.dumpBuilding = true → Current s
  busy : s.builder ≠ .off → s.dumpBuilding = true ∧ s.dumpDone = false
  builder : s.builder.Fresh s
  staging : ∀ c ∈ s.staging, Fresh s c.taken
  sent : ∀ m ∈ s.sent, m.InOrder

variable {s t : Sys} {b : Builder}

theorem inv_boot : Inv boot where
  gen := rfl
  queue := nofun
  idle _ := rfl
  built := Nat.le_refl _
  current := nofun
  busy h := absurd rfl h
  builder := trivial
  staging := nofun
  sent := nofun

theorem Inv.untracked (h : Inv s) (p : Place) (ks : List Nat) (lost : Bool) :
    Inv { s with place := p, dirtyKeys := ks, mirrorLost := lost } :=
  { h with current := fun hb => { h.current hb with } }

theorem Inv.place (h : Inv s) (p : Place) : Inv { s with place := p } := h.untracked p s.dirtyKeys s.mirrorLost

theorem Builder.Fresh.mono (h : b.Fresh s) (hbuilt : t.builtFor = s.builtFor)
    (hle : s.connects ≤ t.connects) : b.Fresh t := by
  cases b with
  | off => trivial
  | spawned => trivial
  | dumping taken left => exact ⟨hbuilt ▸ h.1, Nat.le_trans h.2 hle⟩

theorem gen_bumped (h : s.dumpGen = s.bumps % generations) : (bumped s).dumpGen = (bumped s).bumps % generations := by
  simp only [bumped, generations] at h ⊢
  omega

theorem inv_connect (h : Inv s) (ha : Allowed s .connect) : Inv (storageItsConnect s) := by
  rw [storageItsConnect]
  by_cases hl : s.live = true
  · rw [if_pos hl]
    exact h
  · rw [if_neg hl]
    rw [Bool.not_eq_true] at hl
    refine ⟨gen_bumped h.gen, ?_, nofun, Nat.le_succ_of_le h.built, fun hb => ?_, h.busy,
      h.builder.mono rfl (Nat.le_succ _), fun c hc => ?_, h.sent⟩
    · intro c hc
      have hmem : c ∈ s.dumpQueue := hc
      rw [h.idle hl] at hmem
      cases hmem
    · have hc := h.current hb
      refine ⟨hc.gen, Nat.le_succ_of_le hc.le, ha hl hb, fun heq => ?_, fun _ _ => rfl⟩
      have hle := hc.le
      simp only [bumped] at heq
      omega
    · exact ⟨(h.staging c hc).1, Nat.le_succ_of_le (h.staging c hc).2⟩

theorem inv_disconnect (h : Inv s) (ha : Allowed s .disconnect) : Inv (storageItsDisconnect s) := by
  refine ⟨gen_bumped h.gen, nofun, fun _ => rfl, h.built, fun hb => ?_, h.busy, h.builder.mono rfl (Nat.le_refl _),
    h.staging, h.sent⟩
  have hc := h.current hb
  refine ⟨hc.gen, Nat.le_succ_of_le hc.le, ha hb, fun heq => ?_, nofun⟩
  have hle := hc.le
  simp only [storageItsDisconnect, bumped] at heq
  omega

theorem inv_change (h : Inv s) (key : Nat) (secret : Bool) : Inv (dcAccumulateChange key secret s) := by
  rw [dcAccumulateChange]
  split
  · exact h
  · split
    · exact h.untracked s.place [] true
    · exact h.untracked s.place _ s.mirrorLost

theorem inv_queueReload (h : Inv s) (hl : s.live = true) (sizes keys : List Nat) : Inv (dcQueueReload sizes keys s) := by
  refine ⟨h.gen, fun c hc => ?_, fun hf => ?_, h.built, fun hb => ?_, h.busy, h.builder.mono rfl (Nat.le_refl _),
    h.staging, h.sent⟩
  · rcases mem_append.mp hc with hc | hc
    · exact h.queue c hc
    · obtain ⟨n, -, rfl⟩ := mem_map.mp hc
      rfl
  · rw [dcQueueReload, hl] at hf
    cases hf
  · exact { h.current hb with }

theorem inv_kickBuild (h : Inv s) (spawns : Bool) : Inv (kickBuild spawns s) := by
  rw [kickBuild]
  split
  next hk =>
    rw [Bool.and_eq_true, Bool.not_eq_true'] at hk
    have hoff : s.builder = .off := by
      by_contra hne
      rw [(h.busy hne).1] at hk
      cases hk.2
    refine ⟨h.gen, h.queue, h.idle, Nat.le_refl _, fun _ => ?_, ?_, ?_, nofun, h.sent⟩
    · exact ⟨h.gen, Nat.le_refl _, Nat.lt_add_of_pos_right (by decide), fun _ => rfl, fun _ _ => hk.1⟩
    · cases spawns with
      | true => exact fun _ => ⟨rfl, rfl⟩
      | false => exact fun hne => absurd hoff hne
    · cases spawns with
      | true => trivial
      | false =>
        rw [hoff]
        trivial
  · exact h

theorem Current.same_of_gen (hc : Current s) (hgen : s.dumpGen = s.bumps % generations)
    (heq : s.dumpBuildGen = s.dumpGen) : s.builtFor = s.connects := by
  apply hc.same
  have hle := hc.le
  have hnear := hc.near
  rw [hc.gen, hgen] at heq
  simp only [generations] at heq hnear
  omega

section

variable (h : Inv s)
include h

theorem inv_adoptBuild : Inv (adoptBuild s) := by
  rw [adoptBuild]
  split
  next hb =>
    rw [Bool.and_eq_true] at hb
    have hoff : s.builder = .off := by
      by_contra hne
      rw [(h.busy hne).2] at hb
      cases hb.2
    have hfresh : ∀ t : Sys, s.builder.Fresh t := fun t => by
      rw [hoff]
      trivial
    rw [adopted]
    split
    next hmine =>
      have hsame := (h.current hb.1).same_of_gen h.gen hmine.1
      refine ⟨h.gen, fun c hc => ?_, fun hf => ?_, h.built, nofun, fun hne => absurd hoff hne, hfresh _, nofun, h.sent⟩
      · have hall : c ∈ s.dumpQueue ∨ c ∈ s.staging := by
          revert hc
          split
          · exact .inr
          · exact mem_append.mp
        rcases hall with hq | hst
        · exact h.queue c hq
        · have hf := h.staging c hst
          rw [DumpOrder.Fresh, hsame] at hf
          exact Nat.le_antisymm hf.2 hf.1
      · rw [hmine.2] at hf
        cases hf
    · exact ⟨h.gen, h.queue, h.idle, h.built, nofun, fun hne => absurd hoff hne, hfresh _, nofun, h.sent⟩
  · exact h

theorem Inv.queueState {q : List Chunk} (hq : ∀ c ∈ q, c ∈ s.dumpQueue) {pos : Nat} {l : List Sent}
    (hl : ∀ m ∈ l, m.InOrder) : Inv { s with dumpQueue := q, dumpPos := pos, sent := l } := by
  refine ⟨h.gen, fun c hc => h.queue c (hq c hc), fun hf => ?_, h.built, fun hb => ?_, h.busy,
    h.builder.mono rfl (Nat.le_refl _), h.staging, hl⟩
  · rw [eq_nil_iff_forall_not_mem]
    intro c hc
    have hmem := hq c hc
    rw [h.idle hf] at hmem
    cases hmem
  · exact { h.current hb with }

theorem inv_tidy : Inv (tidy s) := by
  rw [tidy]
  split
  · exact h.queueState (fun _ hc => absurd hc not_mem_nil) h.sent
  · exact h

theorem inv_sendNext (cap room : Nat) (takes : Bool) : Inv (sendNext cap room takes s) := by
  rw [sendNext]
  cases hc : s.dumpQueue[s.dumpPos]? with
  | none => exact (inv_tidy h).place .patch
  | some c =>
    dsimp only
    split
    · exact h.queueState (fun _ hm => hm) h.sent
    · split
      · refine h.queueState (fun _ hm => hm) (forall_mem_append.mpr ⟨h.sent, forall_mem_singleton.mpr ?_⟩)
        exact Nat.le_of_eq (h.queue c (mem_of_getElem? hc)).symm
      · exact (inv_tidy h).place .patch

theorem inv_redump (hl : s.live = true) (reloads : List Nat) : Inv (redump reloads s) := by
  have hpending : Inv { s with mirrorLost := false, dirtyKeys := [], dumpPending := true } := by
    refine { h with current := fun hb => ?_, builder := h.builder.mono rfl (Nat.le_refl _) }
    exact { h.current hb with mine := fun _ _ => rfl }
  exact inv_queueReload hpending hl reloads []

/-- A patch goes out when nothing is queued, and the build of the session, if
there was one, has been adopted. -/
theorem inv_patchSent (hl : s.live = true) (hidle : dcDumpInProgress s = false) :
    Sent.InOrder (.patch s.connects (s.dumpQueue.drop s.dumpPos)
      (s.dumpPending || s.dumpBuilding && s.builtFor == s.connects)) := by
  rw [dcDumpInProgress, Bool.or_eq_false_iff, decide_eq_false_iff_not] at hidle
  obtain ⟨hpend, hpos⟩ := hidle
  refine ⟨drop_eq_nil_of_le (Nat.le_of_not_lt hpos), ?_⟩
  rw [hpend, Bool.false_or]
  cases hb : s.dumpBuilding with
  | false => rfl
  | true =>
    rw [Bool.true_and, beq_eq_false_iff_ne]
    intro hmine
    rw [(h.current hb).mine hl hmine] at hpend
    cases hpend

theorem inv_flushPatch (hidle : dcDumpInProgress s = false) (l : Link) (reloads : List Nat) :
    Inv (dcFlushPatch l reloads s) := by
  cases hl : s.live with
  | false =>
    rw [dcFlushPatch, if_pos hl]
    exact h
  | true =>
    rw [dcFlushPatch, if_neg (by simp [hl])]
    split_ifs
    · exact h
    · exact h
    · exact inv_redump h hl reloads
    · exact h
    · exact h.untracked s.place [] s.mirrorLost
    · exact h
    · exact inv_redump h hl reloads
    · exact h
    · have hsent : ∀ m ∈ s.sent ++ [.patch s.connects (s.dumpQueue.drop s.dumpPos)
          (s.dumpPending || s.dumpBuilding && s.builtFor == s.connects)], Sent.InOrder m :=
        forall_mem_append.mpr ⟨h.sent, forall_mem_singleton.mpr (inv_patchSent h hl hidle)⟩
      exact (h.queueState (q := s.dumpQueue) (fun _ hc => hc) hsent).untracked s.place [] s.mirrorLost

theorem inv_builder {staging : List Chunk} {done : Bool} (hb : b.Fresh s)
    (hst : ∀ c ∈ staging, Fresh s c.taken) (hbusy : b ≠ .off → s.dumpBuilding = true ∧ done = false) :
    Inv { s with builder := b, staging := staging, dumpDone := done } :=
  { h with current := fun hb => { h.current hb with }, busy := hbusy, builder := hb.mono rfl (Nat.le_refl _), staging := hst }

theorem inv_step {a : Action} (ha : Allowed s a) (hs : step s a = some t) : Inv t := by
  cases a with
  | connect =>
    obtain ⟨-, hs⟩ := ite_none_right_eq_some.mp hs
    cases hs
    exact inv_connect h ha
  | disconnect =>
    obtain ⟨-, hs⟩ := ite_none_right_eq_some.mp hs
    cases hs
    exact inv_disconnect h ha
  | change key secret =>
    obtain ⟨-, hs⟩ := ite_none_right_eq_some.mp hs
    cases hs
    exact inv_change h key secret
  | reload sizes keys =>
    obtain ⟨⟨-, hl⟩, hs⟩ := ite_none_right_eq_some.mp hs
    cases hs
    exact inv_queueReload h hl sizes keys
  | pass =>
    rw [step] at hs
    split at hs
    · cases hs
      exact h.place .config
    · cases hs
      exact h.place .kick
    · cases hs
  | kick spawns =>
    obtain ⟨-, hs⟩ := ite_none_right_eq_some.mp hs
    split at hs
    · cases hs
      exact (inv_kickBuild h spawns).place .adopt
    · cases hs
      exact h.place .patch
  | adopt =>
    obtain ⟨-, hs⟩ := ite_none_right_eq_some.mp hs
    cases hs
    exact (inv_adoptBuild h).place .send
  | send cap room takes =>
    obtain ⟨-, hs⟩ := ite_none_right_eq_some.mp hs
    cases hs
    exact inv_sendNext h cap room takes
  | flush l reloads =>
    obtain ⟨-, hs⟩ := ite_none_right_eq_some.mp hs
    cases hs
    refine Inv.place ?_ .poll
    split
    · exact h
    next hidle => exact inv_flushPatch h (Bool.not_eq_true _ ▸ hidle) l reloads
  | snapshot sizes =>
    rw [step] at hs
    split at hs
    next hb =>
      cases hs
      exact inv_builder h ⟨h.built, Nat.le_refl _⟩ h.staging fun _ => h.busy (by rw [hb]; nofun)
    · cases hs
  | emit =>
    rw [step] at hs
    split at hs
    next taken n ns hb =>
      cases hs
      have hfresh : Fresh s taken := by
        have := h.builder
        rwa [hb] at this
      exact inv_builder h (b := .dumping taken ns) hfresh (forall_mem_append.mpr ⟨h.staging, forall_mem_singleton.mpr hfresh⟩)
        fun _ => h.busy (by rw [hb]; nofun)
    · cases hs
  | finish =>
    rw [step] at hs
    split at hs
    · cases hs
      exact inv_builder h (b := .off) trivial h.staging fun hne => absurd rfl hne
    · cases hs

end

/-- Every session gets its own dump, and no patch overtakes it, while fewer than
2^32 connects and disconnects fall into one build. -/
theorem session_in_order (as : List Action) (hmeets : Meets step Allowed boot as) (s : Sys)
    (hrun : run step boot as = some s) : ∀ m ∈ s.sent, m.InOrder :=
  (run_invariant (fun _ _ _ h ha hs => inv_step h ha hs) inv_boot hmeets hrun).sent

/-- Once round the loop of the storage task, with a link that takes everything. -/
def round (sends : Nat) : List Action :=
  [.pass, .pass, .kick true, .adopt] ++ replicate (sends + 1) (.send 0 9 true) ++
    [.flush ⟨true, false, true, 1, 9, 9, true⟩ []]

/-- A session that ends while its dump is built, a second one that gets a dump of
its own, and a change after it. -/
def twoSessions : List Action :=
  [.connect] ++ round 0 ++ [.snapshot [1, 2], .disconnect, .connect, .emit, .emit, .finish] ++ round 0 ++ round 0 ++
    [.snapshot [3], .change 7 false, .emit, .finish] ++ round 1

theorem session_in_order_twoSessions :
    ∃ s, run step boot twoSessions = some s ∧ s.sent = [.chunk 2 ⟨2, 3⟩, .patch 2 [] false] ∧ ∀ m ∈ s.sent, m.InOrder := by
  have hrun : (run step boot twoSessions).map Sys.sent = some [.chunk 2 ⟨2, 3⟩, .patch 2 [] false] := by decide +kernel
  obtain ⟨s, hs, hsent⟩ := map_eq_some_iff.mp hrun
  exact ⟨s, hs, hsent, session_in_order twoSessions (by decide +kernel) s hs⟩

def reconnects : Nat → List Action
  | 0 => []
  | n + 1 => .disconnect :: .connect :: reconnects n

/-- A session whose dump is being built, with nothing queued. -/
structure Waiting (s : Sys) : Prop where
  place : s.place = .poll
  live : s.live = true
  pending : s.dumpPending = true
  queue : s.dumpQueue = []
  pos : s.dumpPos = 0
  keys : s.dirtyKeys = []
  lost : s.mirrorLost = false

def reconnected (n : Nat) (s : Sys) : Sys :=
  { s with
    connects := s.connects + n
    dumpGen := (s.dumpGen + 2 * n) % generations
    bumps := s.bumps + 2 * n }

theorem step_reconnect (h : Waiting s) :
    ∃ u, step s .disconnect = some u ∧ step u .connect = some (reconnected 1 s) := by
  refine ⟨storageItsDisconnect s, if_pos h.place, ?_⟩
  have hplace : (storageItsDisconnect s).place = .poll := h.place
  rw [step, if_pos hplace]
  obtain ⟨-, hlive, hpending, hqueue, hpos, hkeys, hlost⟩ := h
  cases s
  simp_all [storageItsConnect, storageItsDisconnect, bumped, reconnected]

theorem Waiting.reconnected (h : Waiting s) (n : Nat) : Waiting (reconnected n s) :=
  { h with }

theorem reconnected_reconnected (m n : Nat) (s : Sys) : reconnected n (reconnected m s) = reconnected (m + n) s := by
  have hgen : ((s.dumpGen + 2 * m) % generations + 2 * n) % generations = (s.dumpGen + 2 * (m + n)) % generations := by
    simp only [generations]
    omega
  simp [reconnected, Nat.add_assoc, Nat.mul_add]

theorem run_reconnects (h : Waiting s) (n : Nat) : run step s (reconnects (n + 1)) = some (reconnected (n + 1) s) := by
  induction n generalizing s with
  | zero =>
    obtain ⟨u, hd, hc⟩ := step_reconnect h
    exact (run_cons _ _ _ _ _).mpr ⟨u, hd, (run_cons _ _ _ _ _).mpr ⟨_, hc, rfl⟩⟩
  | succ n ih =>
    obtain ⟨u, hd, hc⟩ := step_reconnect h
    refine (run_cons _ _ _ _ _).mpr ⟨u, hd, (run_cons _ _ _ _ _).mpr ⟨_, hc, ?_⟩⟩
    rw [ih (h.reconnected 1), reconnected_reconnected, Nat.add_comm 1]

def wrapStart : List Action := [.connect] ++ round 0 ++ [.snapshot [1]]

def firstSession : Sys :=
  { boot with
    connects := 1
    live := true
    dumpGen := 1
    dumpBuildGen := 1
    dumpBuilding := true
    builder := .dumping 1 [1]
    dumpPending := true
    bumps := 1
    kicked := 1
    builtFor := 1 }

/-- After 2^32 connects and disconnects during one build, the dump of the first
session is sent to the last one. -/
theorem stale_dump_sent : ∃ as s, run step boot as = some s ∧ ¬ ∀ m ∈ s.sent, m.InOrder := by
  have hstart : run step boot wrapStart = some firstSession := by decide +kernel
  have hwait : Waiting firstSession := ⟨rfl, rfl, rfl, rfl, rfl, rfl, rfl⟩
  have hagain := run_reconnects hwait 2147483647
  have hend : (run step (reconnected 2147483648 firstSession) ([.emit, .finish] ++ round 1)).any
      (fun s => decide (¬ ∀ m ∈ s.sent, m.InOrder)) = true := by
    decide +kernel
  obtain ⟨s, hs, hbad⟩ := (any_eq_true _ _).mp hend
  refine ⟨wrapStart ++ (reconnects 2147483648 ++ ([.emit, .finish] ++ round 1)), s, ?_, of_decide_eq_true hbad⟩
  exact (run_append _ _ _ _ _).mpr ⟨_, hstart, (run_append _ _ _ _ _).mpr ⟨_, hagain, hs⟩⟩

end Spangap.DumpOrder
