import Spangap.Codec

namespace Spangap.PairCode

open List Codec

variable {s : State} {x o : List UInt8}

/-- A code with two bytes for each byte, and a zero at the end. -/
inductive State
  | idle | byte | ended | bad
  deriving DecidableEq, Repr

def step : State → UInt8 → State × List UInt8
  | .idle, b => if b = 0 then (.ended, []) else if b = 1 then (.byte, []) else (.bad, [])
  | .byte, b => (.idle, [b])
  | .ended, _ => (.ended, [])
  | .bad, _ => (.bad, [])

def runFrom : State → List UInt8 → State × List UInt8
  | s, [] => (s, [])
  | s, b :: bs => ((runFrom (step s b).1 bs).1, (step s b).2 ++ (runFrom (step s b).1 bs).2)

def verdictOf (more : Bool) : State → Verdict
  | .ended => .done
  | .bad => .failed
  | .idle | .byte => if more then .wants else .failed

def status (more : Bool) (s : State) (some : InflateStatus) : InflateStatus :=
  match s with
  | .ended => .done
  | .bad => .failed
  | .idle | .byte => if more then some else .failed

/-- All the input that there is room for. -/
def decompress (s : State) (p : List UInt8) (room : Nat) (more : Bool) : Result State InflateStatus :=
  let r := runFrom s (p.take room)
  ⟨r.1, (p.take room).length, r.2, status more r.1 (if room < p.length then .hasMoreOutput else .needsMoreInput)⟩

theorem step_out (s : State) (b : UInt8) : (step s b).2.length ≤ 1 := by
  unfold step
  split
  · split
    · simp
    · split <;> simp
  · simp
  · simp
  · simp

theorem runFrom_out (s : State) (x : List UInt8) : (runFrom s x).2.length ≤ x.length := by
  induction x generalizing s with
  | nil => exact Nat.le_refl 0
  | cons b x ih =>
    have := step_out s b
    have := ih (step s b).1
    rw [runFrom, length_append, length_cons]
    omega

def inflater : Inflater State where
  init := .idle
  decompress := decompress
  credit := fun _ => 0
  rate := 1
  used_le := fun s p room more => length_take_le' room p
  bounded := fun s p room more => by simpa [decompress] using runFrom_out s (p.take room)

theorem runFrom_append (s : State) (x y : List UInt8) :
    runFrom s (x ++ y) = ((runFrom (runFrom s x).1 y).1, (runFrom s x).2 ++ (runFrom (runFrom s x).1 y).2) := by
  induction x generalizing s with
  | nil => rfl
  | cons b x ih =>
    rw [cons_append, runFrom, runFrom, ih]
    simp

theorem runFrom_over (h : s = .ended ∨ s = .bad) (x : List UInt8) : runFrom s x = (s, []) := by
  induction x with
  | nil => rfl
  | cons b x ih =>
    have hstep : step s b = (s, []) := by
      rcases h with rfl | rfl <;> rfl
    rw [runFrom, hstep, ih]
    rfl

theorem over_of_verdict (h : verdictOf true s ≠ .wants) : s = .ended ∨ s = .bad := by
  cases s with
  | idle => exact absurd rfl h
  | byte => exact absurd rfl h
  | ended => exact .inl rfl
  | bad => exact .inr rfl

def plain (_ : Bool) (x : List UInt8) : List UInt8 := (runFrom .idle x).2

def verdict (more : Bool) (x : List UInt8) : Verdict := verdictOf more (runFrom .idle x).1

structure Rep (_ : Bool) (s : State) (x o : List UInt8) : Prop where
  run : runFrom .idle x = (s, o)
  live : s = .idle ∨ s = .byte

theorem Rep.status_eq {m : Bool} (h : Rep m s x o) (more : Bool) (some : InflateStatus) :
    status more s some = (if more then some else .failed) ∧ verdict more x = if more then .wants else .failed := by
  unfold verdict
  rw [h.run]
  rcases h.live with rfl | rfl <;> exact ⟨rfl, rfl⟩

theorem run_rest {m : Bool} (h : Rep m s x o) (q r : List UInt8) :
    runFrom .idle (x ++ (q ++ r)) = ((runFrom (runFrom s q).1 r).1, o ++ (runFrom s q).2 ++ (runFrom (runFrom s q).1 r).2) := by
  rw [runFrom_append, h.run, runFrom_append, append_assoc]

theorem feed_answers (p : List UInt8) {room : Nat} (hroom : 0 < room) (h : Rep true s x o) :
    Answers plain verdict true x o p (decompress s p room true) := by
  have hrun := run_rest h (p.take room) (p.drop room)
  rw [take_append_drop] at hrun
  have hstay : (runFrom s (p.take room)).1 = .ended ∨ (runFrom s (p.take room)).1 = .bad →
      o ++ (runFrom s (p.take room)).2 = plain true (x ++ p) ∧ verdict true (x ++ p) = verdictOf true (runFrom s (p.take room)).1 := by
    intro hover
    rw [plain, verdict, hrun, runFrom_over hover, append_nil]
    exact ⟨rfl, rfl⟩
  -- A state that is not the last one has room for all of the input or for some of it.
  have hgoes : (runFrom s (p.take room)).1 = .idle ∨ (runFrom s (p.take room)).1 = .byte →
      Answers plain verdict true x o p ⟨(runFrom s (p.take room)).1, (p.take room).length, (runFrom s (p.take room)).2,
        if room < p.length then .hasMoreOutput else .needsMoreInput⟩ := by
    intro hlive
    unfold Answers
    by_cases hlong : room < p.length
    · rw [if_pos hlong]
      refine ⟨?_, .inl ?_⟩
      · rw [plain, hrun]
        exact prefix_append _ _
      · show (p.take room).length ≠ 0
        rw [length_take]
        omega
    · rw [if_neg hlong]
      rw [take_of_length_le (Nat.not_lt.mp hlong), drop_of_length_le (Nat.not_lt.mp hlong)] at hrun
      rw [take_of_length_le (Nat.not_lt.mp hlong)] at hlive ⊢
      rw [plain, verdict, hrun]
      refine ⟨(append_nil _).symm, ?_, rfl⟩
      rcases hlive with hs | hs <;> rw [runFrom, hs] <;> rfl
  unfold Answers
  rw [decompress]
  cases hs : (runFrom s (p.take room)).1 with
  | ended =>
    obtain ⟨hplain, hverdict⟩ := hstay (.inl hs)
    exact ⟨hplain, hverdict.trans (by rw [hs]; rfl)⟩
  | bad =>
    obtain ⟨hplain, hverdict⟩ := hstay (.inr hs)
    exact ⟨hplain, hverdict.trans (by rw [hs]; rfl)⟩
  | idle => exact hgoes (.inl hs)
  | byte => exact hgoes (.inr hs)

def streaming : Streaming inflater where
  plain := plain
  verdict := verdict
  Rep := Rep
  init := ⟨rfl, .inl rfl⟩
  fresh := ⟨rfl, rfl⟩
  grows := by
    intro more x y _
    unfold plain
    rw [runFrom_append]
    exact prefix_append _ _
  stays := by
    intro more x y h
    have hover := over_of_verdict h
    unfold plain verdict
    rw [runFrom_append, runFrom_over hover, append_nil]
    refine ⟨rfl, ?_⟩
    dsimp only
    rcases hover with hs | hs <;> rw [hs] <;> rfl
  feed := fun s x o p room h hroom => feed_answers p hroom h
  close := by
    intro m s x o room h _
    obtain ⟨hstatus, hverdict⟩ := h.status_eq false (if room < 0 then .hasMoreOutput else .needsMoreInput)
    unfold Answers
    simp only [inflater, decompress, take_nil, runFrom, length_nil]
    rw [hstatus, append_nil, append_nil]
    exact ⟨(congrArg Prod.snd h.run).symm, hverdict⟩
  fed := by
    intro s x o p room h _ hstatus
    dsimp only [inflater, decompress] at hstatus ⊢
    rw [← prefix_iff_eq_take.mp <| take_prefix room p]
    refine ⟨by simpa [runFrom] using run_rest h (p.take room) [], ?_⟩
    cases hs : (runFrom s (p.take room)).1 with
    | idle => exact .inl rfl
    | byte => exact .inr rfl
    | ended =>
      rw [hs] at hstatus
      simp [status] at hstatus
    | bad =>
      rw [hs] at hstatus
      simp [status] at hstatus
  closing := by
    intro m s x o room h _ hstatus
    simp only [inflater, decompress, take_nil, runFrom] at hstatus
    rw [(h.status_eq false _).1] at hstatus
    simp at hstatus

def compress (ended : Bool) (p : List UInt8) (_ : Nat) (fin : Bool) : Result Bool DeflateStatus :=
  if fin then ⟨true, 0, if ended then [] else [0], .done⟩
  else
    match p with
    | [] => ⟨ended, 0, [], .okay⟩
    | b :: _ => ⟨ended, 1, [1, b], .okay⟩

def deflater : Deflater Bool where
  init := false
  compress := compress
  credit := fun ended => if ended then 0 else 1
  rate := 2
  used_le := by
    intro s p room fin
    unfold compress
    split
    · exact Nat.zero_le _
    · cases p <;> simp
  bounded := by
    intro s p room fin
    unfold compress
    split
    · cases s <;> decide
    · cases p with
      | nil => simp
      | cons b bs => simp [Nat.add_comm]

def encode (x : List UInt8) : List UInt8 := x.flatMap fun b => [1, b]

theorem runFrom_encode (x : List UInt8) : runFrom .idle (encode x) = (.idle, x) := by
  induction x with
  | nil => rfl
  | cons b x ih =>
    have hpair : encode (b :: x) = 1 :: b :: encode x := rfl
    rw [hpair, runFrom, runFrom]
    show ((runFrom .idle (encode x)).1, [] ++ ([b] ++ (runFrom .idle (encode x)).2)) = _
    rw [ih]
    rfl

structure Packed (fin : Bool) (s : Bool) (x z : List UInt8) : Prop where
  running : fin = false
  state : s = false
  code : z = encode x

def lossless : Lossless streaming deflater where
  Rep := Packed
  init := ⟨rfl, rfl, rfl⟩
  feed := by
    intro s x z p room h _ hne
    cases p with
    | nil => exact absurd rfl hne
    | cons b bs =>
      refine ⟨rfl, .inl Nat.one_ne_zero, rfl, h.state, ?_⟩
      dsimp only [deflater, compress]
      rw [h.code, encode, encode, flatMap_append]
      rfl
  close := by
    intro fin s x z room h _
    obtain ⟨-, rfl, rfl⟩ := h
    refine .inr ⟨rfl, .inl ?_⟩
    have hrun : runFrom .idle (encode x ++ [0]) = (.ended, x) := by
      rw [runFrom_append, runFrom_encode]
      exact Prod.ext rfl (append_nil x)
    refine ⟨?_, congrArg Prod.snd hrun⟩
    show verdictOf true (runFrom .idle (encode x ++ [0])).1 = .done
    rw [hrun]
    rfl

end Spangap.PairCode
