import Mathlib.Data.List.Infix
import Spangap.CJson
import Spangap.Runs

namespace Spangap.CronStream

open List Option CJson Runs

/-- The stream from `cronPoll` to the CLI task. `pending` is a command whose text has been
sent and whose newline has not; `line` is the buffer of the drain that runs. -/
structure State where
  size : Nat
  stream : List UInt8
  pending : Option Name
  line : Option Name
  fired : List Name
  executed : List Name

def start (size : Nat) : State := ⟨size, [], none, none, [], []⟩

inductive Action
  | send (cmd : Name)
  | newline
  | drain
  | read

-- `xStreamBufferSend` ends with all its bytes in the buffer or, after the timeout, with those that fit.
def State.put (s : State) (bytes : List UInt8) : List UInt8 := s.stream ++ bytes.take (s.size - s.stream.length)

/-- One turn of the loop in `cronDrainCommands`. A drain that finds the stream empty ends,
and its line is gone. -/
def readByte (s : State) (buf : Name) : State :=
  match s.stream with
  | [] => { s with line := none }
  | c :: stream =>
    if c = 10 then { s with stream := stream, line := some [], executed := if buf = [] then s.executed else s.executed ++ [buf] }
    else { s with stream := stream, line := some (if buf.length < 127 then buf ++ [c] else buf) }

def step (s : State) : Action → Option State
  | .send cmd => if s.pending = none then some { s with stream := s.put cmd, pending := some cmd } else none
  | .newline => s.pending.map fun cmd => { s with stream := s.put [10], pending := none, fired := s.fired ++ [cmd] }
  | .drain => if s.line = none then some { s with line := some [] } else none
  | .read => s.line.map (readByte s)

/-- A command that passes the line buffer as one line. -/
def OneLine (cmd : Name) : Prop := cmd ≠ [] ∧ 10 ∉ cmd ∧ cmd.length ≤ 127

/-- The buffer has room for what is sent, and no drain ends inside a command. -/
def Smooth (s : State) : Action → Prop
  | .send cmd => OneLine cmd ∧ s.stream.length + cmd.length ≤ s.size
  | .newline => s.stream.length < s.size
  | .drain => True
  | .read => s.stream = [] → s.line.getD [] = []

instance (s : State) (a : Action) : Decidable (Smooth s a) := by
  cases a <;> dsimp only [Smooth, OneLine] <;> infer_instance

/-- What has been fired and not executed is on its way, in the line and in the stream. -/
structure Intact (s : State) (rest : List Name) : Prop where
  fired : s.fired = s.executed ++ rest
  unread : s.line.getD [] ++ s.stream = rest.flatMap (· ++ [10]) ++ s.pending.getD []
  lines : ∀ cmd ∈ rest ++ s.pending.toList, OneLine cmd
  line : 10 ∉ s.line.getD []

section Steps

variable {s t : State} {rest : List Name}

theorem prefix_of_not_mem {x y w : Name} (h : x <+: y ++ 10 :: w) (hx : 10 ∉ x) : x <+: y := by
  obtain hpre | ⟨more, rfl⟩ := prefix_or_prefix_of_prefix h (prefix_append y _)
  · exact hpre
  · cases more with
    | nil => simp
    | cons d more =>
      rw [prefix_append_right_inj, cons_prefix_cons] at h
      exact absurd (by simp [h.1]) hx

variable {pending : Option Name} {buf stream : Name}

theorem first_command (hlines : ∀ cmd ∈ rest ++ pending.toList, OneLine cmd) (hbuf : 10 ∉ buf)
    (h : buf ++ 10 :: stream = rest.flatMap (· ++ [10]) ++ pending.getD []) :
    ∃ rest', rest = buf :: rest' ∧ stream = rest'.flatMap (· ++ [10]) ++ pending.getD [] := by
  cases rest with
  | nil =>
    rw [flatMap_nil, nil_append] at h
    have hmem : 10 ∈ pending.getD [] := h ▸ by simp
    cases pending with
    | none => cases hmem
    | some cmd => exact absurd hmem (hlines cmd (by simp)).2.1
  | cons cmd rest =>
    rw [flatMap_cons, append_assoc, append_assoc, singleton_append] at h
    have hle := prefix_of_not_mem ⟨_, h⟩ hbuf
    have hge := prefix_of_not_mem ⟨_, h.symm⟩ (hlines cmd (by simp)).2.1
    obtain rfl := hle.eq_of_length_le hge.length_le
    exact ⟨rest, rfl, (List.cons.inj (append_cancel_left h)).2⟩

theorem line_short {c : UInt8} (hlines : ∀ cmd ∈ rest ++ pending.toList, OneLine cmd) (hbuf : 10 ∉ buf ++ [c])
    (h : buf ++ c :: stream = rest.flatMap (· ++ [10]) ++ pending.getD []) : buf.length < 127 := by
  rw [append_cons] at h
  have hpre : ∃ cmd ∈ rest ++ pending.toList, buf ++ [c] <+: cmd := by
    cases rest with
    | nil =>
      cases pending with
      | none => simp at h
      | some cmd => exact ⟨cmd, by simp, stream, h⟩
    | cons cmd rest =>
      rw [flatMap_cons, append_assoc (cmd ++ _), append_assoc cmd] at h
      exact ⟨cmd, by simp, prefix_of_not_mem ⟨_, h⟩ hbuf⟩
  obtain ⟨cmd, hmem, hpre⟩ := hpre
  have hle := hpre.length_le
  have hshort := (hlines cmd hmem).2.2
  rw [length_append, length_singleton] at hle
  omega

theorem intact_read (h : Intact s rest) (hline : s.line = some buf) (hok : s.stream = [] → buf = []) :
    ∃ rest', Intact (readByte s buf) rest' := by
  obtain ⟨hfired, hunread, hlines, hno⟩ := h
  rw [hline, getD_some] at hunread hno
  unfold readByte
  split
  next hnil =>
    obtain rfl := hok hnil
    exact ⟨rest, hfired, hunread, hlines, by simp⟩
  next c stream hstream =>
    rw [hstream] at hunread
    by_cases hc : c = 10
    · subst hc
      obtain ⟨rest', rfl, hrest⟩ := first_command hlines hno hunread
      have hne : buf ≠ [] := (hlines buf (by simp)).1
      rw [if_pos rfl, if_neg hne]
      exact ⟨rest', by simp [hfired], hrest, fun cmd hcmd => hlines cmd (mem_cons_of_mem _ hcmd), by simp⟩
    · have hno' : 10 ∉ buf ++ [c] := by simp [hno, Ne.symm hc]
      rw [if_neg hc, if_pos (line_short hlines hno' hunread)]
      exact ⟨rest, hfired, by simpa using hunread, hlines, hno'⟩

theorem intact_step {a : Action} (h : Intact s rest) (hok : Smooth s a) (ht : step s a = some t) : ∃ rest', Intact t rest' := by
  cases a with
  | send cmd =>
    obtain ⟨hnone, rfl⟩ := ite_none_right_eq_some.mp ht |>.imp_right some.inj
    have hput : s.put cmd = s.stream ++ cmd := by rw [State.put, take_of_length_le (Nat.le_sub_of_add_le' hok.2)]
    have hunread := h.unread
    have hlines := h.lines
    rw [hnone] at hunread hlines
    refine ⟨rest, h.fired, ?_, ?_, h.line⟩
    · rw [hput, ← append_assoc, hunread]
      simp
    · simpa [or_imp, forall_and] using ⟨by simpa using hlines, hok.1⟩
  | newline =>
    obtain ⟨cmd, hcmd, rfl⟩ := map_eq_some_iff.mp ht
    have hput : s.put [10] = s.stream ++ [10] := by rw [State.put, take_of_length_le (Nat.le_sub_of_add_le' hok)]
    have hunread := h.unread
    have hlines := h.lines
    rw [hcmd] at hunread hlines
    refine ⟨rest ++ [cmd], by simp [h.fired], ?_, by simpa using hlines, h.line⟩
    rw [hput, ← append_assoc, hunread]
    simp
  | drain =>
    obtain ⟨hnone, rfl⟩ := ite_none_right_eq_some.mp ht |>.imp_right some.inj
    have hunread := h.unread
    rw [hnone] at hunread
    exact ⟨rest, h.fired, hunread, h.lines, by simp⟩
  | read =>
    obtain ⟨buf, hbuf, rfl⟩ := map_eq_some_iff.mp ht
    refine intact_read h hbuf fun hnil => ?_
    simpa [hbuf] using hok hnil

end Steps

/-- Fired commands are executed in their order, each once and as a whole, and when nothing
is left on the way all of them have been. -/
theorem fired_executed {size : Nat} {as : List Action} {s : State} (hok : Meets step Smooth (start size) as)
    (hrun : run step (start size) as = some s) :
    s.executed <+: s.fired ∧ (s.stream = [] → s.line.getD [] = [] → s.pending = none → s.executed = s.fired) := by
  have hkeep : ∀ s a t, (∃ rest, Intact s rest) → Smooth s a → step s a = some t → ∃ rest, Intact t rest :=
    fun _ _ _ ⟨_, h⟩ => intact_step h
  obtain ⟨rest, h⟩ := run_invariant hkeep ⟨[], rfl, rfl, by simp [start], by simp [start]⟩ hok hrun
  refine ⟨⟨rest, h.fired.symm⟩, fun hstream hline hnone => ?_⟩
  have hunread := h.unread
  rw [hstream, hline, hnone] at hunread
  cases rest with
  | nil => rw [h.fired, append_nil]
  | cons cmd rest => simp at hunread

def oneFiring : List Action := [.send [97], .newline, .drain, .read, .read, .read]

theorem fired_executed_one : ∃ s, run step (start 256) oneFiring = some s ∧ s.executed = s.fired :=
  have hok : Meets step Smooth (start 256) oneFiring := by decide +kernel
  ⟨_, rfl, (fired_executed hok rfl).2 rfl rfl rfl⟩

/-- A drain that runs between the two sends of a command. -/
theorem fired_lost : (run step (start 256) [.send [97], .drain, .read, .read, .newline, .drain, .read, .read]).map
    (fun s => (s.fired, s.executed, s.stream, s.line)) = some ([[97]], [], [], none) := by decide +kernel

end Spangap.CronStream
