import Mathlib.Data.List.DropRight
import Mathlib.Data.List.MinMax
import Spangap.CJson

namespace Spangap.CommandLine

open List CJson

variable {σ : Type}

def isSpace (c : UInt8) : Bool := c == 32

def isTrail (c : UInt8) : Bool := c == 13 || c == 10 || c == 32 || c == 9

def strip (line : Name) : Name := (line.dropWhile isSpace).rdropWhile isTrail

/-- The commands that are registered, what the storage has at a key as text, and what
a callback does. -/
structure Env (σ : Type) where
  cmds : List Name
  stored : σ → Name → Option Name
  call : σ → Nat → Name → σ

variable {E : Env σ}

/-- A callback by its place in the registry, with its arguments. -/
abbrev Call := Nat × Name

def aliasKey (word : Name) : Name := lit "s.cli.aliases." ++ word

section Code

variable (E : Env σ)

def expand (s : σ) (line : Name) : Name :=
  let word := line.takeWhile (!isSpace ·)
  if word ≠ [] ∧ (aliasKey word).length < 80 then
    match E.stored s (aliasKey word) with
    | some val => (val.take 191 ++ line.dropWhile (!isSpace ·)).take 383
    | none => line
  else line

/-- The line goes on with a space behind the command, or ends. -/
def matchesAt (line cmd : Name) : Bool :=
  cmd.isPrefixOf line && ((line.drop cmd.length).head?.all isSpace)

def bestMatch (line : Name) : Option (Name × Nat) :=
  E.cmds.zipIdx.foldl
    (fun best e => if matchesAt line e.1 && (best.elim 0 fun b => b.1.length) < e.1.length then some e else best) none

def invoke (st : σ × List Call) (line : Name) (found : Option (Name × Nat)) : σ × List Call :=
  match found with
  | some e =>
    let args := (line.drop e.1.length).dropWhile isSpace
    (E.call st.1 e.2 args, st.2 ++ [(e.2, args)])
  | none => st

def dispatch (st : σ × List Call) (line : Name) : σ × List Call :=
  let line := expand E st.1 line
  invoke E st line (bestMatch E line)

theorem strip_length (line : Name) : (strip line).length ≤ line.length :=
  (List.rdropWhile_prefix _ _).length_le.trans (dropWhile_suffix _).length_le

/-- The callbacks that are executed, and the most activations that are on the stack at
once. -/
def cliProcess (st : σ × List Call) (line : Name) : (σ × List Call) × Nat :=
  if strip line = [] ∨ (strip line).head? = some 35 then (st, 1)
  else if h : 59 ∈ strip line then
    let r := cliProcess st ((strip line).takeWhile (· != 59))
    let r' := cliProcess r.1 (((strip line).dropWhile (· != 59)).drop 1)
    (r'.1, 1 + max r.2 r'.2)
  else (dispatch E st (strip line), 1)
termination_by line.length
decreasing_by
  all_goals
    have hsplit := congrArg length (takeWhile_append_dropWhile (p := (· != 59)) (l := strip line))
    have hrest : (strip line).dropWhile (· != 59) ≠ [] := fun hnil => by
      simpa using dropWhile_eq_nil_iff.mp hnil 59 h
    have := length_pos_iff.mpr hrest
    have := strip_length line
    simp only [length_append, length_drop] at *
    omega

end Code

section Documented

variable (E : Env σ)

def isComment (part : Name) : Bool := (part.dropWhile isSpace).head? = some 35

/-- A comment ends the line. -/
def parts (line : Name) : List Name := (line.splitOn 59).takeWhile (!isComment ·)

def documentedExpand (s : σ) (part : Name) : Name :=
  let word := part.takeWhile (!isSpace ·)
  match E.stored s (aliasKey word) with
  | some val => if word ≠ [] then val ++ part.dropWhile (!isSpace ·) else part
  | none => part

def longest (line : Name) : Option (Name × Nat) :=
  (E.cmds.zipIdx.filter fun e => e.1 ≠ [] ∧ matchesAt line e.1).argmax fun e => e.1.length

def documentedPart (st : σ × List Call) (part : Name) : σ × List Call :=
  if strip part = [] then st
  else
    let line := documentedExpand E st.1 (strip part)
    invoke E st line (longest E line)

def documented (st : σ × List Call) (line : Name) : σ × List Call := (parts line).foldl (documentedPart E) st

/-- The alias of a part, if it has one, goes into the buffers. -/
def FitsPart (s : σ) (part : Name) : Prop :=
  let word := part.takeWhile (!isSpace ·)
  ∀ val ∈ E.stored s (aliasKey word), (aliasKey word).length < 80 ∧ val.length < 192 ∧
    val.length + (part.dropWhile (!isSpace ·)).length < 384

/-- The aliases of the parts that are run fit, each in the state that the parts before it leave. -/
def Fits : σ × List Call → List Name → Prop
  | _, [] => True
  | st, p :: ps => (strip p ≠ [] → FitsPart E st.1 (strip p)) ∧ Fits (documentedPart E st p) ps

instance decidableFits : (st : σ × List Call) → (ps : List Name) → Decidable (Fits E st ps)
  | _, [] => .isTrue trivial
  | st, p :: ps =>
    have := decidableFits (documentedPart E st p) ps
    inferInstanceAs (Decidable ((_ → ∀ val ∈ _, _) ∧ _))

end Documented

section Split

variable {st : σ × List Call} {line first rest : Name}

theorem rdropWhile_through {p : UInt8 → Bool} {c : UInt8} (hc : p c = false) (l r : Name) :
    (l ++ c :: r).rdropWhile p = l ++ c :: r.rdropWhile p := by
  have hrev : (r.reverse ++ [c]).dropWhile p = r.reverse.dropWhile p ++ [c] := by
    rw [dropWhile_append]
    split
    next h => simp [hc, isEmpty_iff.mp h]
    · rfl
  rw [List.rdropWhile, reverse_append, reverse_cons, dropWhile_append, hrev, if_neg (by simp)]
  simp [List.rdropWhile]

theorem strip_first : strip (first ++ 59 :: rest) = first.dropWhile isSpace ++ 59 :: rest.rdropWhile isTrail := by
  have hdrop : (first ++ 59 :: rest).dropWhile isSpace = first.dropWhile isSpace ++ 59 :: rest := by
    rw [dropWhile_append]
    split
    next h => rw [isEmpty_iff.mp h]; rfl
    · rfl
  rw [strip, hdrop, rdropWhile_through rfl]

theorem strip_dropWhile : strip (line.dropWhile isSpace) = strip line := by
  rw [strip, strip, dropWhile_idempotent]

theorem strip_rdropWhile : strip (line.rdropWhile isTrail) = strip line := by
  conv_rhs => rw [← rdropWhile_append_rtakeWhile (p := isTrail) (l := line)]
  generalize line.rdropWhile isTrail = l
  have htrail : ∀ c ∈ (line.rtakeWhile isTrail).reverse, isTrail c = true := fun c hc =>
    mem_rtakeWhile_imp (mem_reverse.mp hc)
  generalize line.rtakeWhile isTrail = ws at htrail
  rw [strip, strip, dropWhile_append]
  split
  next h =>
    rw [isEmpty_iff.mp h, rdropWhile_nil, eq_comm, rdropWhile_eq_nil_iff]
    exact fun c hc => htrail c (mem_reverse.mpr ((dropWhile_suffix _).subset hc))
  · rw [List.rdropWhile, List.rdropWhile, reverse_append, dropWhile_append_of_pos htrail]

theorem head_strip : (strip line).head? = some 35 ↔ isComment line = true := by
  rw [isComment, decide_eq_true_iff, strip]
  generalize line.dropWhile isSpace = l
  constructor
  · intro h
    obtain ⟨r, hr⟩ := rdropWhile_prefix isTrail l
    rw [← hr, head?_append, h]
    rfl
  · intro h
    obtain ⟨r, rfl⟩ := head?_eq_some_iff.mp h
    rw [← nil_append (35 :: r), rdropWhile_through rfl]
    rfl

theorem cliProcess_congr {line' : Name} (h : strip line' = strip line) : cliProcess E st line' = cliProcess E st line := by
  rw [cliProcess, h, ← cliProcess]

theorem cliProcess_split (hno : 59 ∉ first) (hcomment : isComment first = false) :
    cliProcess E st (first ++ 59 :: rest) =
      ((cliProcess E (cliProcess E st first).1 rest).1,
        1 + max (cliProcess E st first).2 (cliProcess E (cliProcess E st first).1 rest).2) := by
  have hnot : ∀ c ∈ first.dropWhile isSpace, (c != 59) = true := fun c hc => by
    simpa using ne_of_mem_of_not_mem ((dropWhile_suffix _).subset hc) hno
  have hhead : (first.dropWhile isSpace ++ 59 :: rest.rdropWhile isTrail).head? ≠ some 35 := by
    rw [head?_append]
    cases hfirst : (first.dropWhile isSpace).head? with
    | none => simp
    | some c => simpa [isComment, hfirst] using hcomment
  rw [cliProcess, strip_first, if_neg (not_or.mpr ⟨by simp, hhead⟩), dif_pos (by simp), takeWhile_append_of_pos hnot,
    dropWhile_append_of_pos hnot]
  simp only [takeWhile_cons, dropWhile_cons, bne_self_eq_false, Bool.false_eq_true, if_false, append_nil,
    drop_succ_cons, drop_zero, cliProcess_congr strip_dropWhile, cliProcess_congr strip_rdropWhile]

def runPart (E : Env σ) (st : σ × List Call) (part : Name) : σ × List Call :=
  if strip part = [] then st else dispatch E st (strip part)

theorem cliProcess_single (hno : 59 ∉ line) :
    cliProcess E st line = (if isComment line then st else runPart E st line, 1) := by
  have hnot : 59 ∉ strip line := fun h =>
    hno ((dropWhile_suffix _).subset ((List.rdropWhile_prefix _ _).subset h))
  rw [cliProcess, dif_neg hnot, runPart]
  by_cases hc : isComment line = true
  · rw [if_pos (.inr (head_strip.mpr hc)), if_pos hc]
  · by_cases hnil : strip line = []
    · simp [hnil, hc]
    · rw [if_neg (not_or.mpr ⟨hnil, fun h => hc (head_strip.mp h)⟩), if_neg hc, if_neg hnil]

/-- The recursion takes the parts in turn, one activation deeper for each piece. -/
theorem cliProcess_eq (E : Env σ) (st : σ × List Call) (line : Name) :
    cliProcess E st line = ((parts line).foldl (runPart E) st, min ((parts line).length + 1) (line.splitOn 59).length) := by
  induction hn : line.length using Nat.strong_induction_on generalizing line st with
  | _ n ih =>
    by_cases hsemi : 59 ∈ line
    · obtain ⟨first, rest, rfl, hno⟩ := eq_append_cons_of_mem hsemi
      have hpieces : (first ++ 59 :: rest).splitOn 59 = first :: rest.splitOn 59 :=
        splitOnP_append_cons_of_forall_mem (fun c hc => by simpa using ne_of_mem_of_not_mem hc hno) 59 rfl rest
      have hpos := length_pos_iff.mpr (splitOn_ne_nil 59 rest)
      rw [parts, hpieces, takeWhile_cons]
      cases hcomment : isComment first with
      | true =>
        have hhead : (strip (first ++ 59 :: rest)).head? = some 35 := by
          rw [strip_first, head?_append, of_decide_eq_true hcomment]
          rfl
        rw [cliProcess, if_pos (.inr hhead)]
        simp
      | false =>
        have hshort : rest.length < n := by
          rw [← hn, length_append, length_cons]
          omega
        rw [cliProcess_split hno hcomment, ih _ hshort _ _ rfl, cliProcess_single hno, hcomment]
        rw [show (rest.splitOn 59).takeWhile (!isComment ·) = parts rest from rfl]
        simp only [Bool.false_eq_true, if_false, Bool.not_false, if_true, foldl_cons, length_cons]
        congr 1
        omega
    · rw [cliProcess_single hsemi, parts, splitOn_eq_singleton hsemi, takeWhile_cons]
      cases isComment line <;> simp

end Split

/-- What an activation holds at least, and the stack of the CLI task. -/
def frameBytes : Nat := 384

def stackBytes : Nat := 6144

theorem activations_le_iff {σ : Type} (E : Env σ) (st : σ × List Call) (line : Name) (bound : Nat) :
    (cliProcess E st line).2 ≤ bound ↔ min ((parts line).length + 1) (line.splitOn 59).length ≤ bound := by
  rw [cliProcess_eq]

def noCommands : Env Unit := ⟨[], fun _ _ => none, fun _ _ _ => ()⟩

theorem activations_overflow : ¬ ∃ bound, bound * frameBytes ≤ stackBytes ∧
    ∀ line : Name, line.length ≤ 4096 → (cliProcess noCommands ((), []) line).2 ≤ bound := by
  rintro ⟨bound, hfit, h⟩
  have hdeep := h (replicate 16 59) (by simp)
  rw [cliProcess_eq, show min _ _ = 17 from by decide] at hdeep
  unfold frameBytes stackBytes at hfit
  omega

theorem bestMatch_eq (line : Name) : bestMatch E line = longest E line := by
  rw [bestMatch, longest, List.argmax, foldl_filter]
  congr 1
  funext best e
  cases best with
  | none => by_cases h : e.1 = [] <;> simp [h, List.argAux, length_pos_iff]
  | some b =>
    by_cases h : e.1 = []
    · simp [h]
    · by_cases hmatch : matchesAt line e.1 = true <;> by_cases hlong : b.1.length < e.1.length <;>
        simp [h, hmatch, hlong, List.argAux]

theorem expand_eq {s : σ} {part : Name} (h : FitsPart E s part) : expand E s part = documentedExpand E s part := by
  unfold expand documentedExpand
  dsimp only
  cases hval : E.stored s (aliasKey (part.takeWhile (!isSpace ·))) with
  | none => simp
  | some val =>
    obtain ⟨hkey, hlen, hfit⟩ := h val hval
    by_cases hword : part.takeWhile (!isSpace ·) = []
    · simp [hword]
    · rw [if_pos ⟨hword, hkey⟩]
      simp only [hword, ne_eq, not_false_eq_true, if_true]
      rw [take_of_length_le (show val.length ≤ 191 by omega), take_of_length_le (by rw [length_append]; omega)]

/-- Where no buffer cuts an alias, the callbacks are those of the documented rules. -/
theorem cliProcess_documented (E : Env σ) (st : σ × List Call) (line : Name) (h : Fits E st (parts line)) :
    (cliProcess E st line).1 = documented E st line := by
  rw [cliProcess_eq, documented]
  generalize parts line = ps at h
  induction ps generalizing st with
  | nil => rfl
  | cons p ps ih =>
    have hpart : runPart E st p = documentedPart E st p := by
      by_cases hnil : strip p = []
      · simp [runPart, documentedPart, hnil]
      · rw [runPart, documentedPart, dispatch, if_neg hnil, if_neg hnil]
        simp only [expand_eq (h.1 hnil), bestMatch_eq]
    rw [foldl_cons, foldl_cons, hpart]
    exact ih _ h.2

/-- One command, and an alias `a` for it with arguments of `n` bytes. -/
def aliased (n : Nat) : Env Unit :=
  ⟨[lit "e"], fun _ key => if key = aliasKey (lit "a") then some (lit "e " ++ replicate n 120) else none, fun _ _ _ => ()⟩

theorem cliProcess_documented_short : Fits (aliased 3) ((), []) (parts (lit "a 1; e 2;#e;e")) ∧
    (cliProcess (aliased 3) ((), []) (lit "a 1; e 2;#e;e")).1 = documented (aliased 3) ((), []) (lit "a 1; e 2;#e;e") :=
  ⟨by decide +kernel, cliProcess_documented _ _ _ (by decide +kernel)⟩

theorem cliProcess_cuts_alias : (cliProcess (aliased 190) ((), []) (lit "a")).1 ≠ documented (aliased 190) ((), []) (lit "a") := by
  rw [cliProcess_eq]
  decide +kernel

end Spangap.CommandLine
