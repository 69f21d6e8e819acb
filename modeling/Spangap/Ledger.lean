import Mathlib.Algebra.BigOperators.Group.Finset.Basic
import Mathlib.Data.Multiset.Range
import Mathlib.Tactic.Abel
import Spangap.Its

namespace Spangap.Ledger

open PacketLink (Link Desc linkFree linkPurge linkDequeue linkEnqueue linkAcquire itsSendPacket fresh)
open List Option Function Its

variable {t : TaskId} {i k : Nat} {w : World}

/-- Payloads by number and length. -/
abbrev Stock := Multiset (Nat × Nat)

def stock (p : Payload) (len : Nat) : Stock := if p.null then 0 else {(p.serial, len)}

def msgStock (m : Msg) : Stock :=
  match m.payload with
  | some p => stock p m.len
  | none => 0

def linkStock (L : Link Payload) : Stock := (L.queue.map fun d => stock d.ptr d.len).sum

def taskStock (t : Task) : Stock := ((taskMsgs t).map msgStock).sum

/-- The payloads in inboxes and packet rings. -/
def heldPay (w : World) (s : Sys) : Stock := ∑ t ∈ Finset.range w.count, taskStock (s.tasks t) + (s.links.map linkStock).sum

def heldHdr (w : World) (s : Sys) : Nat := ∑ t ∈ Finset.range w.count, (taskMsgs (s.tasks t)).length

def payCount (P : Stock) : Counter := ⟨BitVec.ofNat 32 P.card, BitVec.ofNat 32 (P.map Prod.snd).sum⟩

def hdrCount (k : Nat) : Counter := ⟨BitVec.ofNat 32 k, BitVec.ofNat 32 (k * sizeofMsg)⟩

/-- The counters tell what is held beside `k` headers and the payloads `P` in
hand, and each payload taken over is held, freed, handed on or given back, once. -/
structure Balanced (w : World) (s : Sys) (k : Nat) (P : Stock) : Prop where
  hdr : s.mem.hdr = hdrCount (heldHdr w s + k)
  pay : s.mem.pay = payCount (heldPay w s + P)
  book : (heldPay w s + P).map Prod.fst + s.mem.freed + s.mem.handed + s.mem.returned = Multiset.range s.mem.taken

theorem payCount_cons (a : Nat × Nat) (P : Stock) : payCount (a ::ₘ P) = ctrAdd (payCount P) a.2 := by
  rw [payCount, payCount, ctrAdd, Multiset.card_cons, Multiset.map_cons, Multiset.sum_cons, BitVec.ofNat_add,
    BitVec.ofNat_add, BitVec.add_comm (BitVec.ofNat 32 a.2)]
  rfl

theorem hdrCount_succ (k : Nat) : hdrCount (k + 1) = ctrAdd (hdrCount k) sizeofMsg := by
  rw [hdrCount, hdrCount, ctrAdd, Nat.succ_mul, BitVec.ofNat_add, BitVec.ofNat_add]
  rfl

theorem ctrSub_ctrAdd (c : Counter) (n : Nat) : ctrSub (ctrAdd c n) n = c := by
  rw [ctrSub, ctrAdd, BitVec.add_sub_cancel, BitVec.add_sub_cancel]

section Primitives

variable {s : Sys} {P : Stock}

theorem Balanced.hdrAlloc (h : Balanced w s k P) : Balanced w (s.withMem Its.hdrAlloc) (k + 1) P :=
  ⟨(congrArg (ctrAdd · sizeofMsg) h.hdr).trans (hdrCount_succ _).symm, h.pay, h.book⟩

theorem Balanced.hdrFree (h : Balanced w s (k + 1) P) : Balanced w (s.withMem Its.hdrFree) k P := by
  refine ⟨?_, h.pay, h.book⟩
  have hdr := h.hdr
  rw [← add_assoc, hdrCount_succ] at hdr
  exact (congrArg (ctrSub · sizeofMsg) hdr).trans (ctrSub_ctrAdd _ _)

theorem Balanced.payTake (h : Balanced w s k P) (len : Nat) :
    Balanced w (s.withMem fun mem => Its.payTake mem len) k ((s.mem.taken, len) ::ₘ P) := by
  refine ⟨h.hdr, ?_, ?_⟩
  · refine (congrArg (ctrAdd · len) h.pay).trans ?_
    rw [← payCount_cons (s.mem.taken, len), ← Multiset.add_cons]
    rfl
  · show (heldPay w s + (s.mem.taken, len) ::ₘ P).map Prod.fst + s.mem.freed + s.mem.handed + s.mem.returned =
      Multiset.range (s.mem.taken + 1)
    rw [Multiset.range_succ, ← h.book, Multiset.add_cons, Multiset.map_cons, Multiset.cons_add, Multiset.cons_add,
      Multiset.cons_add]

theorem Balanced.give {a : Nat × Nat} (h : Balanced w s k (a ::ₘ P)) {mem : Memory} (hhdr : mem.hdr = s.mem.hdr)
    (hpay : mem.pay = ctrSub s.mem.pay a.2) (htaken : mem.taken = s.mem.taken)
    (hbook : (mem.freed : Multiset Nat) + mem.handed + mem.returned =
      a.1 ::ₘ (s.mem.freed + s.mem.handed + s.mem.returned)) :
    Balanced w { s with mem := mem } k P := by
  refine ⟨hhdr.trans h.hdr, ?_, ?_⟩
  · have hold := h.pay
    rw [Multiset.add_cons, payCount_cons] at hold
    rw [hpay, hold]
    exact ctrSub_ctrAdd _ _
  · have hold := h.book
    rw [Multiset.add_cons, Multiset.map_cons, Multiset.cons_add, Multiset.cons_add, Multiset.cons_add] at hold
    show (heldPay w s + P).map Prod.fst + (mem.freed : Multiset Nat) + mem.handed + mem.returned =
      Multiset.range mem.taken
    rw [htaken, ← hold, add_assoc, add_assoc, ← add_assoc (mem.freed : Multiset Nat), hbook, Multiset.add_cons]
    simp only [add_assoc]

theorem coe_concat (l : List Nat) (a : Nat) : ((l ++ [a] : List Nat) : Multiset Nat) = a ::ₘ l := by
  rw [← Multiset.coe_add, Multiset.coe_singleton, add_comm, Multiset.singleton_add]

theorem Balanced.payDrop {p : Payload} {len : Nat} (h : Balanced w s k (stock p len + P)) :
    Balanced w (s.withMem (Its.payDrop p len)) k P := by
  rw [Sys.withMem]
  cases hnull : p.null with
  | true =>
    rw [stock, if_pos hnull, zero_add] at h
    rw [Its.payDrop, if_pos hnull]
    exact h
  | false =>
    have hblock : ¬ p.null = true := by simp [hnull]
    rw [stock, if_neg hblock, Multiset.singleton_add] at h
    rw [Its.payDrop, if_neg hblock]
    refine h.give rfl rfl rfl ?_
    rw [coe_concat, Multiset.cons_add, Multiset.cons_add]

theorem Balanced.msgFree {m : Msg} (h : Balanced w s (k + 1) (msgStock m + P)) :
    Balanced w (s.withMem (Its.msgFree m)) k P := by
  unfold Its.msgFree msgStock at *
  cases hp : m.payload with
  | none =>
    rw [hp, zero_add] at h
    exact h.hdrFree
  | some p =>
    rw [hp] at h
    exact h.payDrop.hdrFree

theorem sum_withTask {M : Type} [AddCommMonoid M] (g : Task → M) (ht : t < w.count) (f : Task → Task) :
    ∑ i ∈ Finset.range w.count, g ((s.withTask t f).tasks i) + g (s.tasks t) =
      ∑ i ∈ Finset.range w.count, g (s.tasks i) + g (f (s.tasks t)) := by
  have hmem := Finset.mem_range.mpr ht
  have hrest : ∑ i ∈ (Finset.range w.count).erase t, g ((s.withTask t f).tasks i) =
      ∑ i ∈ (Finset.range w.count).erase t, g (s.tasks i) :=
    Finset.sum_congr rfl fun i hi => congrArg g (update_of_ne (Finset.ne_of_mem_erase hi) ..)
  have hself : g ((s.withTask t f).tasks t) = g (f (s.tasks t)) := congrArg g (update_self ..)
  rw [← Finset.add_sum_erase _ (fun i => g ((s.withTask t f).tasks i)) hmem,
    ← Finset.add_sum_erase _ (fun i => g (s.tasks i)) hmem, hrest, hself]
  abel

theorem heldPay_withTask (ht : t < w.count) (f : Task → Task) :
    heldPay w (s.withTask t f) + taskStock (s.tasks t) = heldPay w s + taskStock (f (s.tasks t)) := by
  have hsum := sum_withTask (s := s) taskStock ht f
  rw [heldPay, heldPay, add_right_comm, hsum, add_right_comm]
  rfl

theorem heldHdr_withTask (ht : t < w.count) (f : Task → Task) :
    heldHdr w (s.withTask t f) + (taskMsgs (s.tasks t)).length = heldHdr w s + (taskMsgs (f (s.tasks t))).length :=
  sum_withTask (fun t => (taskMsgs t).length) ht f

theorem Balanced.congr {s' : Sys} (h : Balanced w s k P) {k' : Nat} {P' : Stock} (hmem : s'.mem = s.mem)
    (hhdr : heldHdr w s' + k' = heldHdr w s + k) (hpay : heldPay w s' + P' = heldPay w s + P) : Balanced w s' k' P' := by
  refine ⟨?_, ?_, ?_⟩
  · rw [hmem, hhdr]
    exact h.hdr
  · rw [hmem, hpay]
    exact h.pay
  · rw [hmem, hpay]
    exact h.book

theorem Balanced.withTask (h : Balanced w s k P) (t : TaskId) {f : Task → Task}
    (hf : (taskMsgs (f (s.tasks t))).Perm (taskMsgs (s.tasks t))) : Balanced w (s.withTask t f) k P := by
  have hsame : ∀ i, (taskMsgs ((s.withTask t f).tasks i)).Perm (taskMsgs (s.tasks i)) := Sys.withTask_rec hf fun _ _ => .refl _
  refine h.congr rfl ?_ ?_
  · exact congrArg (· + k) (Finset.sum_congr rfl fun i _ => (hsame i).length_eq)
  · refine congrArg (· + (s.links.map linkStock).sum + P) (Finset.sum_congr rfl fun i _ => ?_)
    exact ((hsame i).map msgStock).sum_eq

theorem held_enqueue (ht : t < w.count) (m : Msg) :
    heldHdr w (s.post t m) = heldHdr w s + 1 ∧ heldPay w (s.post t m) = heldPay w s + msgStock m := by
  have hmsgs : (taskMsgs { s.tasks t with inbox := (s.tasks t).inbox ++ [m] }).Perm (m :: taskMsgs (s.tasks t)) := by
    rw [taskMsgs, append_assoc]
    exact perm_middle
  have hstock : taskStock { s.tasks t with inbox := (s.tasks t).inbox ++ [m] } = msgStock m + taskStock (s.tasks t) := by
    rw [taskStock, (hmsgs.map msgStock).sum_eq, map_cons, sum_cons]
    rfl
  constructor
  · have hsum : heldHdr w (s.post t m) + _ = _ := heldHdr_withTask ht _
    rw [hmsgs.length_eq, length_cons] at hsum
    omega
  · have hsum : heldPay w (s.post t m) + _ = _ := heldPay_withTask ht _
    rw [hstock, ← add_assoc] at hsum
    exact add_right_cancel hsum

theorem Balanced.inboxEnqueue (ht : t < w.count) {m : Msg} (h : Balanced w s (k + 1) (msgStock m + P)) (ok : Bool) :
    Balanced w (Its.inboxEnqueue s t m ok) k P := by
  cases ok with
  | false => exact h.msgFree
  | true =>
    obtain ⟨hhdr, hpay⟩ := held_enqueue (s := s) ht m
    refine h.congr rfl ?_ ?_
    · show heldHdr w (s.post t m) + k = _
      rw [hhdr, add_right_comm, add_assoc]
    · show heldPay w (s.post t m) + P = _
      rw [hpay, add_assoc]

theorem Balanced.release (ht : t < w.count) {f : Frame} (hf : (s.tasks t).frame = some f) (h : Balanced w s k P) :
    Balanced w (s.withFrame t none) (k + 1) (msgStock f.msg + P) := by
  have hmsgs : taskMsgs (s.tasks t) = taskMsgs { s.tasks t with frame := none } ++ [f.msg] := by
    rw [taskMsgs, taskMsgs, hf]
    exact congrArg (· ++ [f.msg]) (append_nil _).symm
  refine h.congr rfl ?_ ?_
  · have hsum : heldHdr w (s.withFrame t none) + _ = _ := heldHdr_withTask ht _
    rw [hmsgs, length_append, length_singleton] at hsum
    dsimp only at hsum
    omega
  · have hsum : heldPay w (s.withFrame t none) + _ = _ := heldPay_withTask ht _
    rw [taskStock, hmsgs, map_append, sum_append, map_singleton, sum_singleton, ← add_assoc,
      add_right_comm] at hsum
    rw [← add_assoc, add_right_cancel hsum]

theorem Balanced.dropAll {ds : List (Desc Payload)} (h : Balanced w s k ((ds.map fun d => stock d.ptr d.len).sum + P)) :
    Balanced w (s.withMem (Its.dropAll ds)) k P := by
  induction ds generalizing s with
  | nil =>
    rw [map_nil, sum_nil, zero_add] at h
    exact h
  | cons d ds ih =>
    rw [map_cons, sum_cons, add_assoc] at h
    exact ih h.payDrop

end Primitives

section Links

variable {s : Sys} {P : Stock} {L L' : Link Payload}

theorem sum_set {M : Type} [AddCommMonoid M] (g : Link Payload → M) {links : List (Link Payload)} (hL : links[i]? = some L)
    (L' : Link Payload) : ((links.set i L').map g).sum + g L = (links.map g).sum + g L' := by
  induction links generalizing i with
  | nil => simp at hL
  | cons x links ih =>
    cases i with
    | zero =>
      rw [getElem?_cons_zero] at hL
      cases hL
      simp only [set_cons_zero, map_cons, sum_cons]
      abel
    | succ i =>
      rw [set_cons_succ, map_cons, sum_cons, map_cons, sum_cons, add_assoc, ih hL, add_assoc]

theorem heldPay_setLink (hL : s.links[i]? = some L) (L' : Link Payload) (mem : Memory) :
    heldPay w { s with links := s.links.set i L', mem := mem } + linkStock L = heldPay w s + linkStock L' := by
  have hsum := sum_set linkStock hL L'
  rw [heldPay, heldPay, add_assoc, hsum, add_assoc]

theorem Balanced.setLink (h : Balanced w s k P) (hL : s.links[i]? = some L) {Q : Stock} (hQ : linkStock L + P = linkStock L' + Q) :
    Balanced w { s with links := s.links.set i L' } k Q := by
  refine h.congr rfl rfl ?_
  have hsum := heldPay_setLink (w := w) hL L' s.mem
  have : heldPay w { s with links := s.links.set i L' } + Q + linkStock L = heldPay w s + P + linkStock L := by
    rw [add_right_comm, hsum, add_assoc, ← hQ]
    abel
  exact add_right_cancel this

end Links

end Spangap.Ledger
