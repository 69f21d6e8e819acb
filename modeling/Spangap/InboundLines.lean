import Mathlib.Data.List.Basic
import Mathlib.Logic.Function.Basic

namespace Spangap.InboundLines

open List Function

def logInboundBuf : Nat := 512

def cr : UInt8 := 13

def lf : UInt8 := 10

/-- The bytes of `" ...[cut]"`. -/
def logCutMark : List UInt8 := [32, 46, 46, 46, 91, 99, 117, 116, 93]

/-- The accumulator of one log client: the first `lineLen` bytes of `lineBuf`. -/
structure Slot where
  line : List UInt8
  truncated : Bool

/-- All slots, and the calls of `logInboundLineOut` with the slot they are for. -/
structure State where
  slots : Nat → Slot
  calls : List (Nat × List UInt8)

def State.put (s : State) (i : Nat) (slot : Slot) : State := { s with slots := update s.slots i slot }

def inboundByte (i : Nat) (s : State) (c : UInt8) : State :=
  let line := (s.slots i).line
  if c = cr then s
  else if c = lf then { s.put i ⟨[], false⟩ with calls := s.calls ++ [(i, line)] }
  else if line.length + 1 < logInboundBuf then s.put i ⟨line ++ [c], (s.slots i).truncated⟩
  else if (s.slots i).truncated then s
  else if logCutMark.length ≤ line.length then
    s.put i ⟨line.take (line.length - logCutMark.length) ++ logCutMark, true⟩
  else s.put i ⟨line, true⟩

def logSlotDrainInbound (s : State) (i : Nat) (tmp : List UInt8) : State := tmp.foldl (inboundByte i) s

inductive Event where
  | connect (i : Nat)
  | packet (i : Nat) (tmp : List UInt8)
  deriving DecidableEq

def step (s : State) : Event → State
  | .connect i => s.put i ⟨[], false⟩
  | .packet i tmp => logSlotDrainInbound s i tmp

def sent (i : Nat) : Event → List UInt8
  | .packet j tmp => if j = i then tmp else []
  | .connect _ => []

def callsOf (i : Nat) (s : State) : List (List UInt8) := (s.calls.filter (·.1 == i)).map Prod.snd

def cut (line : List UInt8) : List UInt8 := if line.length ≤ 511 then line else line.take 502 ++ logCutMark

/-- Slot `i` holds what is left after the last newline of `bytes`, and the lines before it
have been passed on after `old`. -/
def Splits (i : Nat) (old : List (List UInt8)) (bytes : List UInt8) (s : State) : Prop :=
  ∃ ls r, bytes.filter (· ≠ cr) = ls.flatMap (· ++ [lf]) ++ r ∧ (∀ l ∈ r :: ls, lf ∉ l) ∧
    callsOf i s = old ++ ls.map cut ∧ s.slots i = ⟨cut r, decide (511 < r.length)⟩

section Bytes

variable {i : Nat} {old : List (List UInt8)} {bytes : List UInt8} {s : State}

theorem inboundByte_other {j : Nat} (h : j ≠ i) (s : State) (c : UInt8) :
    (inboundByte j s c).slots i = s.slots i ∧ callsOf i (inboundByte j s c) = callsOf i s := by
  unfold inboundByte
  dsimp only
  split_ifs <;> simp [State.put, callsOf, update_of_ne h.symm, h]

/-- A byte of the text lengthens the line until it is cut, and changes nothing after that. -/
theorem inboundByte_text {c : UInt8} (hcr : c ≠ cr) (hlf : c ≠ lf) {r : List UInt8}
    (h : s.slots i = ⟨cut r, decide (511 < r.length)⟩) :
    (inboundByte i s c).slots i = ⟨cut (r ++ [c]), decide (511 < (r ++ [c]).length)⟩ ∧ callsOf i (inboundByte i s c) = callsOf i s := by
  rw [inboundByte, if_neg hcr, if_neg hlf, h, length_append, length_singleton]
  rcases Nat.lt_trichotomy r.length 511 with hr | hr | hr
  · have hc : cut r = r := if_pos (by omega)
    have hn : cut (r ++ [c]) = r ++ [c] := if_pos (by rw [length_append, length_singleton]; omega)
    simp [hc, hn, logInboundBuf, Nat.succ_lt_succ hr, State.put, callsOf]
    omega
  · have hc : cut r = r := if_pos (by omega)
    have hn : cut (r ++ [c]) = r.take 502 ++ logCutMark := by
      rw [cut, if_neg (by rw [length_append, length_singleton]; omega), take_append_of_le_length (by omega)]
    simp [hc, hn, logInboundBuf, hr, State.put, callsOf, logCutMark]
  · have hc : (cut r).length = 511 := by
      rw [cut, if_neg (by omega), length_append, length_take, logCutMark]
      simp
      omega
    have hn : cut (r ++ [c]) = cut r := by
      rw [cut, cut, if_neg (by rw [length_append, length_singleton]; omega), if_neg (by omega), take_append_of_le_length (by omega)]
    simp [hc, hn, logInboundBuf, hr, h]
    omega

theorem splits_byte (h : Splits i old bytes s) (c : UInt8) : Splits i old (bytes ++ [c]) (inboundByte i s c) := by
  obtain ⟨ls, r, hbytes, hnl, hcalls, hslot⟩ := h
  rw [Splits, filter_append, hbytes]
  by_cases hcr : c = cr
  · rw [inboundByte, if_pos hcr]
    exact ⟨ls, r, by simp [hcr], hnl, hcalls, hslot⟩
  · by_cases hlf : c = lf
    · rw [inboundByte, if_neg hcr, if_pos hlf]
      refine ⟨ls ++ [r], [], by simp [hlf, show lf ≠ cr by decide], ?_, ?_, by simp [State.put, cut]⟩
      · simpa [or_imp, forall_and, and_comm] using hnl
      · rw [callsOf, hslot] at *
        simp [hcalls]
    · obtain ⟨hs, hc⟩ := inboundByte_text hcr hlf hslot
      refine ⟨ls, r ++ [c], by simp [hcr], ?_, by rw [hc, hcalls], hs⟩
      simpa [Ne.symm hlf] using hnl

theorem splits_packet (h : Splits i old bytes s) (j : Nat) (tmp : List UInt8) :
    Splits i old (bytes ++ sent i (.packet j tmp)) (logSlotDrainInbound s j tmp) := by
  unfold logSlotDrainInbound
  induction tmp generalizing s bytes with
  | nil => simpa [sent] using h
  | cons c tmp ih =>
    by_cases hj : j = i
    · subst hj
      simpa [sent] using ih (splits_byte h c)
    · obtain ⟨hs, hc⟩ := inboundByte_other hj s c
      simpa [sent, hj] using ih (s := inboundByte j s c) (by rwa [Splits, hs, hc])

theorem splits_connect (h : Splits i old bytes s) {j : Nat} (hj : j ≠ i) : Splits i old bytes (step s (.connect j)) := by
  have hslot : (step s (.connect j)).slots i = s.slots i := update_of_ne hj.symm _ _
  rwa [Splits, hslot]

end Bytes

/-- However the bytes of a client come in packets, and whatever the other slots receive,
its lines are passed on one by one and the rest is held. -/
theorem inbound_lines (s : State) (i : Nat) (es : List Event) (hes : .connect i ∉ es) :
    Splits i (callsOf i s) (es.flatMap (sent i)) (es.foldl step (step s (.connect i))) := by
  suffices hrun : ∀ bytes t, Splits i (callsOf i s) bytes t → Splits i (callsOf i s) (bytes ++ es.flatMap (sent i)) (es.foldl step t) from
    hrun [] _ ⟨[], [], by simp, by simp, by simp [step, State.put, callsOf], by simp [step, State.put, cut]⟩
  induction es with
  | nil => simp
  | cons e es ih =>
    obtain ⟨he, hes⟩ := not_or.mp (mem_cons.not.mp hes)
    intro bytes t ht
    rw [flatMap_cons, ← append_assoc]
    refine ih hes _ _ ?_
    cases e with
    | connect j => simpa [sent] using splits_connect ht fun hj => he (congrArg Event.connect hj.symm)
    | packet j tmp => exact splits_packet ht j tmp

theorem inbound_lines_two_slots : Splits 0 [] [104, cr, lf, 105]
    ([.packet 0 [104, cr], .packet 1 [120], .packet 0 [lf, 105]].foldl step (step ⟨fun _ => ⟨[], false⟩, []⟩ (.connect 0))) :=
  inbound_lines ⟨fun _ => ⟨[], false⟩, []⟩ 0 [.packet 0 [104, cr], .packet 1 [120], .packet 0 [lf, 105]] (by decide)

end Spangap.InboundLines
