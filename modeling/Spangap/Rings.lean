import Spangap.Ledger

namespace Spangap.Rings

open PacketLink (Link Desc linkFree linkAcquire fresh)
open List Option Function Its Ledger

variable {i k x : Nat} {r : Option Nat} {links'' links : List (Link Payload)} {w : World} {P : Stock} {s : Sys}
  {f : Conn → Conn}

def sendRing (c : Conn) : Side → Option Nat
  | .client => c.toLink
  | .server => c.fromLink

/-- Each ring of a connection exists and is in use by it alone. -/
structure Wired (s : Sys) : Prop where
  inUse : ∀ h c d i, s.conns h = some c → sendRing c d = some i →
    ∃ L, s.links[i]? = some L ∧ L.inUse = true ∧ L.made = true
  apart : ∀ h c d h' c' d' i, s.conns h = some c → s.conns h' = some c' → sendRing c d = some i →
    sendRing c' d' = some i → h = h' ∧ d = d'
  empty : ∀ (i : Nat) (L : Link Payload), s.links[i]? = some L → (L.inUse && L.made) = false → L.queue = []
  blocks : ∀ (i : Nat) (L : Link Payload), s.links[i]? = some L → ∀ d ∈ L.queue, d.ptr.null = false

section Wiring

variable {L L' : Link Payload}

theorem Wired.congr {s' : Sys} (h : Wired s) (hlinks : s'.links = s.links)
    (hconns : ∀ x c', s'.conns x = some c' → ∃ c, s.conns x = some c ∧ sendRing c' = sendRing c) : Wired s' := by
  refine ⟨fun x c' d i hc hi => ?_, fun x c d x' c' d' i hc hc' hi hi' => ?_, ?_, ?_⟩
  · obtain ⟨c, hc, hring⟩ := hconns x c' hc
    rw [hlinks]
    exact h.inUse x c d i hc (hring ▸ hi)
  · obtain ⟨c₀, hc₀, hring⟩ := hconns x c hc
    obtain ⟨c₁, hc₁, hring'⟩ := hconns x' c' hc'
    exact h.apart x c₀ d x' c₁ d' i hc₀ hc₁ (hring ▸ hi) (hring' ▸ hi')
  · rw [hlinks]
    exact h.empty
  · rw [hlinks]
    exact h.blocks

theorem Wired.withTask (h : Wired s) (t : TaskId) (f : Task → Task) : Wired (s.withTask t f) :=
  h.congr rfl fun _ c hc => ⟨c, hc, rfl⟩

theorem Wired.withMem (h : Wired s) (f : Memory → Memory) : Wired (s.withMem f) := h.congr rfl fun _ c hc => ⟨c, hc, rfl⟩

theorem Wired.note (h : Wired s) (e : Event) : Wired (s.note e) := h.congr rfl fun _ c hc => ⟨c, hc, rfl⟩

theorem Wired.withConn (h : Wired s) (x : Nat) (hf : ∀ c, sendRing (f c) = sendRing c) : Wired (s.withConn x f) := by
  refine h.congr rfl fun y c' hc => ?_
  obtain ⟨c, hold, ⟨-, rfl⟩ | ⟨-, rfl⟩⟩ := Sys.conns_withConn_some hc
  · exact ⟨c, hold, hf c⟩
  · exact ⟨_, hold, rfl⟩

theorem Wired.inboxEnqueue (h : Wired s) (t : TaskId) (m : Msg) (ok : Bool) : Wired (Its.inboxEnqueue s t m ok) := by
  cases ok with
  | false => exact h.withMem _
  | true => exact h.withTask t fun t => { t with inbox := t.inbox ++ [m] }

theorem getElem_set_cases {j : Nat} {M : Link Payload} (hM : (links.set i L')[j]? = some M) :
    (i = j ∧ M = L') ∨ (i ≠ j ∧ links[j]? = some M) := by
  by_cases hij : i = j
  · subst hij
    obtain ⟨hlt, -⟩ := List.getElem?_eq_some_iff.mp hM
    rw [length_set] at hlt
    rw [getElem?_set_self hlt, some_inj] at hM
    exact .inl ⟨rfl, hM.symm⟩
  · rw [getElem?_set_ne hij] at hM
    exact .inr ⟨hij, hM⟩

theorem Wired.setLink (h : Wired s) (hL : s.links[i]? = some L) (huse : L'.inUse = L.inUse) (hmade : L'.made = L.made)
    (hempty : (L'.inUse && L'.made) = false → L'.queue = []) (hblocks : ∀ d ∈ L'.queue, d.ptr.null = false) :
    Wired { s with links := s.links.set i L' } := by
  obtain ⟨hlt, -⟩ := List.getElem?_eq_some_iff.mp hL
  refine ⟨fun x c d j hc hj => ?_, h.apart, fun j M hM => ?_, fun j M hM => ?_⟩
  · obtain ⟨M, hM, hu, hm⟩ := h.inUse x c d j hc hj
    by_cases hij : i = j
    · subst hij
      rw [hL] at hM
      cases hM
      exact ⟨L', getElem?_set_self hlt, huse.trans hu, hmade.trans hm⟩
    · exact ⟨M, (getElem?_set_ne hij).trans hM, hu, hm⟩
  · rcases getElem_set_cases hM with ⟨-, rfl⟩ | ⟨-, hM⟩
    · exact hempty
    · exact h.empty j M hM
  · rcases getElem_set_cases hM with ⟨-, rfl⟩ | ⟨-, hM⟩
    · exact hblocks
    · exact h.blocks j M hM

theorem linkFree_queue (h : L.made = false → L.queue = []) : (linkFree L).1.queue = [] ∧ (linkFree L).2 = L.queue := by
  rw [linkFree]
  split
  · exact ⟨rfl, rfl⟩
  next hmade =>
    have hnil := h (by simpa using hmade)
    exact ⟨hnil, hnil.symm⟩

end Wiring

/-- A state between two calls, with `k` headers and the payloads `P` in hand. -/
structure Ok (w : World) (s : Sys) (k : Nat) (P : Stock) : Prop where
  bal : Balanced w s k P
  wired : Wired s

section Release

variable {L L' : Link Payload}

theorem Wired.queue_nil (h : Wired s) (hL : s.links[i]? = some L) : L.made = false → L.queue = [] :=
  fun hmade => h.empty i L hL (by rw [hmade, Bool.and_false])

theorem ok_linkFreeAt (h : Ok w s k P) (hr : ∀ x c d i, r = some i → s.conns x = some c → sendRing c d ≠ some i) :
    Ok w (linkFreeAt r s) k P := by
  unfold linkFreeAt
  cases r with
  | none => exact h
  | some i =>
    cases hL : s.links[i]? with
    | none =>
      simp only [bind_some, hL, map_none]
      exact h
    | some L =>
      simp only [bind_some, hL, map_some]
      obtain ⟨hqueue, hdropped⟩ := linkFree_queue (h.wired.queue_nil hL)
      have hset : Balanced w { s with links := s.links.set i (linkFree L).1 } k
          (((linkFree L).2.map fun d => stock d.ptr d.len).sum + P) := by
        refine h.bal.setLink hL ?_
        rw [linkStock, linkStock, hqueue, hdropped, map_nil, sum_nil, zero_add]
      refine ⟨hset.dropAll, fun x c d j hc hj => ?_, h.wired.apart, fun j M hM => ?_, fun j M hM => ?_⟩
      · obtain ⟨M, hM, huse⟩ := h.wired.inUse x c d j hc hj
        have hij : i ≠ j := fun hij => hr x c d i rfl hc (hij ▸ hj)
        exact ⟨M, (getElem?_set_ne hij).trans hM, huse⟩
      · rcases getElem_set_cases hM with ⟨-, rfl⟩ | ⟨-, hM⟩
        · exact fun _ => hqueue
        · exact h.wired.empty j M hM
      · rcases getElem_set_cases hM with ⟨-, rfl⟩ | ⟨-, hM⟩
        · exact fun d hd => absurd (hqueue ▸ hd) not_mem_nil
        · exact h.wired.blocks j M hM

theorem ok_connFree (h : Ok w s k P) (x : Nat) : Ok w (connFree s x) k P := by
  unfold connFree
  split
  · exact h
  next c hc =>
    have hother : ∀ {y e}, update s.conns x none y = some e → y ≠ x ∧ s.conns y = some e := by
      intro y e he
      by_cases hy : y = x
      · subst hy
        simp at he
      · rw [update_of_ne hy] at he
        exact ⟨hy, he⟩
    have hremoved : Ok w { s with conns := update s.conns x none } k P :=
      ⟨h.bal.congr rfl rfl rfl, h.wired.congr rfl fun y e he => ⟨e, (hother he).2, rfl⟩⟩
    have hfree : ∀ d y e d' i, sendRing c d = some i → update s.conns x none y = some e → sendRing e d' ≠ some i := by
      intro d y e d' i hi he hi'
      obtain ⟨hy, he⟩ := hother he
      exact hy (h.wired.apart y e d' x c d i he hc hi' hi).1
    refine ok_linkFreeAt (ok_linkFreeAt hremoved fun y e d i hi he => hfree .client y e d i hi he) fun y e d i hi he => ?_
    rw [conns_linkFreeAt] at he
    exact hfree .server y e d i hi he

end Release

/-- The link table after a link was asked for: nothing but an idle or a new slot
is touched, and that is empty. -/
inductive Acquired (links : List (Link Payload)) : List (Link Payload) → Prop
  | same : Acquired links links
  | reused (i : Nat) (L L' : Link Payload) (hL : links[i]? = some L) (hidle : (L.inUse && L.made) = false)
      (hempty : L'.queue = []) : Acquired links (links.set i L')
  | grown (L' : Link Payload) (hempty : L'.queue = []) : Acquired links (links ++ [L'])

section Acquire

variable {links' : List (Link Payload)}

theorem acquired_modify {p : Link Payload → Bool} (hi : links.findIdx? p = some i)
    (hp : ∀ L, p L = true → (L.inUse && L.made) = false) (f : Link Payload → Link Payload) (hf : ∀ L, (f L).queue = []) :
    Acquired links (links.modify i f) := by
  obtain ⟨hlt, hpi, -⟩ := findIdx?_eq_some_iff_getElem.mp hi
  rw [modify_eq_set_getElem? , getElem?_eq_getElem hlt]
  exact .reused i links[i] (f links[i]) (getElem?_eq_getElem hlt) (hp _ hpi) (hf _)

theorem acquired_linkAcquire (ringOk semOk : Bool) (depth byteCap maxMsg : Nat) (links : List (Link Payload)) :
    Acquired links (linkAcquire ringOk semOk depth byteCap maxMsg links).1 := by
  unfold linkAcquire
  dsimp only
  split
  next i hi =>
    refine acquired_modify hi (fun L hL => ?_) _ fun _ => rfl
    rw [Bool.and_eq_true_iff, Bool.and_eq_true_iff] at hL
    rw [show L.inUse = false by simpa using hL.1.1, Bool.false_and]
  next =>
    split
    next i hi =>
      refine acquired_modify hi (fun L hL => ?_) _ fun _ => rfl
      rw [Bool.and_eq_true_iff] at hL
      rw [show L.inUse = false by simpa using hL.1, Bool.false_and]
    next =>
      split
      · exact .same
      · exact .grown _ rfl

theorem Acquired.getElem (h : Acquired links links') {j : Nat} {M : Link Payload} (hM : links'[j]? = some M) :
    M.queue = [] ∨ links[j]? = some M := by
  cases h with
  | same => exact .inr hM
  | reused i L L' hL hidle hempty =>
    rcases getElem_set_cases hM with ⟨-, rfl⟩ | ⟨-, hM⟩
    · exact .inl hempty
    · exact .inr hM
  | grown L' hempty =>
    rcases Nat.lt_or_ge j links.length with hj | hj
    · rw [getElem?_append_left hj] at hM
      exact .inr hM
    · rw [getElem?_append_right hj] at hM
      obtain rfl := mem_singleton.mp (mem_of_getElem? hM)
      exact .inl hempty

theorem Acquired.sum_stock (h : Acquired links links')
    (hempty : ∀ (i : Nat) (L : Link Payload), links[i]? = some L → (L.inUse && L.made) = false → L.queue = []) :
    (links'.map linkStock).sum = (links.map linkStock).sum := by
  cases h with
  | same => rfl
  | reused i L L' hL hidle hnew =>
    have hsum := sum_set linkStock hL L'
    rw [linkStock, linkStock, hnew, hempty i L hL hidle] at hsum
    simpa using hsum
  | grown L' hnew =>
    rw [map_append, sum_append, map_singleton, sum_singleton, linkStock, hnew]
    exact add_zero _

def IdleEmpty (links : List (Link Payload)) : Prop :=
  ∀ (i : Nat) (L : Link Payload), links[i]? = some L → (L.inUse && L.made) = false → L.queue = []

/-- The link table may have got links for a new connection. -/
structure Grown (links links' : List (Link Payload)) : Prop where
  kept : ∀ (i : Nat) (L : Link Payload), links[i]? = some L → L.inUse = true → links'[i]? = some L
  new : ∀ (i : Nat) (L : Link Payload), links'[i]? = some L → L.queue = [] ∨ links[i]? = some L
  sum : IdleEmpty links → (links'.map linkStock).sum = (links.map linkStock).sum

theorem Grown.refl (links : List (Link Payload)) : Grown links links := ⟨fun _ _ h _ => h, fun _ _ h => .inr h, fun _ => rfl⟩

theorem Grown.idleEmpty (h : Grown links links') (hidle : IdleEmpty links) : IdleEmpty links' := by
  intro i L hL huse
  rcases h.new i L hL with hnil | hL
  · exact hnil
  · exact hidle i L hL huse

theorem Grown.trans (h : Grown links links') (h' : Grown links' links'') : Grown links links'' := by
  refine ⟨fun i L hL huse => h'.kept i L (h.kept i L hL huse) huse, fun i L hL => ?_, fun hidle => ?_⟩
  · rcases h'.new i L hL with hnil | hL
    · exact .inl hnil
    · exact h.new i L hL
  · exact (h'.sum (h.idleEmpty hidle)).trans (h.sum hidle)

theorem grown_linkAcquire (ringOk semOk : Bool) (depth byteCap maxMsg : Nat) (links : List (Link Payload)) :
    Grown links (linkAcquire ringOk semOk depth byteCap maxMsg links).1 :=
  have h := acquired_linkAcquire ringOk semOk depth byteCap maxMsg links
  ⟨fun i L hL huse => ((PacketLink.linkAcquire_spec ringOk semOk depth byteCap maxMsg links).1 i L hL huse).1,
    fun _ _ hM => h.getElem hM, fun hidle => h.sum_stock hidle⟩

def Gained (links links' : List (Link Payload)) (r : Option Nat) : Prop :=
  ∀ i, r = some i → (∀ L, links[i]? = some L → L.inUse = false) ∧
    ∃ L, links'[i]? = some L ∧ L.inUse = true ∧ L.made = true

theorem gained_linkAcquire (ringOk semOk : Bool) (depth byteCap maxMsg : Nat) (links : List (Link Payload)) :
    Gained links (linkAcquire ringOk semOk depth byteCap maxMsg links).1
      (linkAcquire ringOk semOk depth byteCap maxMsg links).2 := by
  obtain ⟨hpassed, hfresh⟩ := PacketLink.linkAcquire_spec ringOk semOk depth byteCap maxMsg links
  intro i hi
  obtain ⟨sem, hL⟩ := hfresh i hi
  refine ⟨fun L hL => ?_, _, hL, rfl, rfl⟩
  cases huse : L.inUse with
  | false => rfl
  | true => exact absurd hi (hpassed i L hL huse).2

/-- What a new connection gets in the way of rings. -/
structure Equipped (links links' : List (Link Payload)) (r r' : Option Nat) : Prop where
  grown : Grown links links'
  there : Gained links links' r
  back : Gained links links' r'
  apart : ∀ i, r = some i → r' ≠ some i

theorem Gained.mono (h : Gained links links' r) (hg : Grown links' links'') : Gained links links'' r := by
  intro i hi
  obtain ⟨hfree, L, hL, huse, hmade⟩ := h i hi
  exact ⟨hfree, L, hg.kept i L hL huse, huse, hmade⟩

theorem Gained.anti (hg : Grown links links') (h : Gained links' links'' r) : Gained links links'' r := by
  intro i hi
  refine ⟨fun L hL => ?_, (h i hi).2⟩
  cases huse : L.inUse with
  | false => rfl
  | true => exact ((h i hi).1 L (hg.kept i L hL huse)).symm.trans huse |>.symm

theorem gained_none (links links' : List (Link Payload)) : Gained links links' none := fun _ h => absurd h (by simp)

theorem equipped_buffers (luck : Luck) (sp : Port) (links : List (Link Payload)) :
    Equipped links (buffers luck sp links).1 (buffers luck sp links).2.1 (buffers luck sp links).2.2.1 := by
  have hthere : ∀ {r : List (Link Payload) × Option Nat}, Grown links r.1 → Gained links r.1 r.2 →
      ∀ (b : Prop) [Decidable b], Equipped links
        (if b then linkAcquire luck.fromRing luck.fromSem sp.depth sp.fromSize sp.maxMsg r.1 else (r.1, none)).1 r.2
        (if b then linkAcquire luck.fromRing luck.fromSem sp.depth sp.fromSize sp.maxMsg r.1 else (r.1, none)).2 := by
    intro r hgrown hgained b _
    split
    · have hg := grown_linkAcquire luck.fromRing luck.fromSem sp.depth sp.fromSize sp.maxMsg r.1
      have hr := gained_linkAcquire luck.fromRing luck.fromSem sp.depth sp.fromSize sp.maxMsg r.1
      refine ⟨hgrown.trans hg, hgained.mono hg, hr.anti hgrown, fun i hi hback => ?_⟩
      obtain ⟨L, hL, huse, -⟩ := (hgained i hi).2
      exact absurd (((hr i hback).1 L hL).symm.trans huse) Bool.false_ne_true
    · exact ⟨hgrown, hgained, gained_none _ _, fun _ _ => by simp⟩
  unfold buffers
  split
  · dsimp only
    by_cases hto : 0 < sp.toSize
    · rw [if_pos hto]
      exact hthere (grown_linkAcquire ..) (gained_linkAcquire _ _ _ _ _ _) _
    · rw [if_neg hto]
      exact hthere (r := (links, none)) (.refl links) (gained_none _ _) _
  · exact ⟨.refl links, gained_none _ _, gained_none _ _, by simp⟩

theorem ok_newConn (h : Ok w s k P) (hx : s.conns x = none) {c : Conn}
    (heq : Equipped s.links links' c.toLink c.fromLink) (counter : Nat) :
    Ok w { s with links := links', conns := update s.conns x (some c), connCounter := counter } k P := by
  have hcases : ∀ {y e}, update s.conns x (some c) y = some e → (y = x ∧ e = c) ∨ (y ≠ x ∧ s.conns y = some e) := by
    intro y e he
    by_cases hy : y = x
    · subst hy
      rw [update_self, some_inj] at he
      exact .inl ⟨rfl, he.symm⟩
    · rw [update_of_ne hy] at he
      exact .inr ⟨hy, he⟩
  have hgained : ∀ d i, sendRing c d = some i → (∀ L, s.links[i]? = some L → L.inUse = false) ∧
      ∃ L, links'[i]? = some L ∧ L.inUse = true ∧ L.made = true := by
    intro d i hi
    cases d with
    | client => exact heq.there i hi
    | server => exact heq.back i hi
  have hfresh : ∀ {y e d d' i}, s.conns y = some e → sendRing e d = some i → sendRing c d' ≠ some i := by
    intro y e d d' i he hi hi'
    obtain ⟨L, hL, huse, -⟩ := h.wired.inUse y e d i he hi
    exact absurd (((hgained d' i hi').1 L hL).symm.trans huse) Bool.false_ne_true
  refine ⟨h.bal.congr rfl rfl ?_, fun y e d i he hi => ?_, fun y e d y' e' d' i he he' hi hi' => ?_, ?_, ?_⟩
  · exact congrArg (_ + · + P) (heq.grown.sum h.wired.empty)
  · rcases hcases he with ⟨-, rfl⟩ | ⟨-, he⟩
    · exact (hgained d i hi).2
    · obtain ⟨L, hL, huse, hmade⟩ := h.wired.inUse y e d i he hi
      exact ⟨L, heq.grown.kept i L hL huse, huse, hmade⟩
  · rcases hcases he with ⟨rfl, rfl⟩ | ⟨-, hold⟩ <;> rcases hcases he' with ⟨rfl, rfl⟩ | ⟨-, hold'⟩
    · refine ⟨rfl, ?_⟩
      cases d <;> cases d'
      · rfl
      · exact absurd hi' (heq.apart i hi)
      · exact absurd hi (heq.apart i hi')
      · rfl
    · exact absurd hi (hfresh hold' hi')
    · exact absurd hi' (hfresh hold hi)
    · exact h.wired.apart y e d y' e' d' i hold hold' hi hi'
  · exact heq.grown.idleEmpty h.wired.empty
  · intro i L hL d hd
    rcases heq.grown.new i L hL with hnil | hL
    · exact absurd (hnil ▸ hd) not_mem_nil
    · exact h.wired.blocks i L hL d hd

end Acquire

section States

variable {t : TaskId} {m : Msg}

theorem Ok.withTask (h : Ok w s k P) (t : TaskId) {f : Task → Task}
    (hf : (taskMsgs (f (s.tasks t))).Perm (taskMsgs (s.tasks t))) : Ok w (s.withTask t f) k P :=
  ⟨h.bal.withTask t hf, h.wired.withTask t f⟩

theorem Ok.note (h : Ok w s k P) (e : Event) : Ok w (s.note e) k P := ⟨h.bal.congr rfl rfl rfl, h.wired.note e⟩

theorem Ok.noteIf (h : Ok w s k P) (p : Prop) [Decidable p] (e : Event) : Ok w (if p then s.note e else s) k P := by
  split
  · exact h.note e
  · exact h

theorem Ok.withConn (h : Ok w s k P) (x : Nat) (hf : ∀ c, sendRing (f c) = sendRing c) : Ok w (s.withConn x f) k P :=
  ⟨h.bal.congr rfl rfl rfl, h.wired.withConn x hf⟩

theorem Ok.inboxEnqueue (h : Ok w s (k + 1) (msgStock m + P)) (ht : t < w.count) (ok : Bool) :
    Ok w (Its.inboxEnqueue s t m ok) k P :=
  ⟨h.bal.inboxEnqueue ht ok, h.wired.inboxEnqueue t m ok⟩

theorem Wired.setRing (h : Wired s) {c : Conn} {d : Side} {L L' : Link Payload} (hc : s.conns x = some c)
    (hi : sendRing c d = some i) (hL : s.links[i]? = some L) (huse : L'.inUse = L.inUse) (hmade : L'.made = L.made)
    (hblocks : ∀ d ∈ L'.queue, d.ptr.null = false) : Wired { s with links := s.links.set i L' } := by
  obtain ⟨M, hM, hMuse, hMmade⟩ := h.inUse x c d i hc hi
  rw [hL] at hM
  cases hM
  refine h.setLink hL huse hmade (fun hidle => ?_) hblocks
  rw [huse, hmade, hMuse, hMmade] at hidle
  simp at hidle

end States

end Spangap.Rings
