import Spangap.FieldValues

namespace Spangap.Cron

open CJson hiding atoi
open FieldValues (atoi)

def isBlank (c : UInt8) : Bool := c == 32 || c == 9

def matchPart (field : Name) (value minVal : Int) : Bool :=
  let slash := field.contains 47
  let base := field.takeWhile (· ≠ 47)
  let step := if slash then atoi ((field.dropWhile (· ≠ 47)).drop 1) else 0
  if slash && (16 ≤ base.length || step ≤ 0) then false
  else
    let base := base.take 15
    if base = lit "*" then step = 0 || (value - minVal).tmod step = 0
    else if base.contains 45 then
      let lo := atoi base
      let hi := atoi ((base.dropWhile (· ≠ 45)).drop 1)
      lo ≤ value && value ≤ hi && (step = 0 || (value - lo).tmod step = 0)
    else if step = 0 then value = atoi base
    else atoi base ≤ value && (value - atoi base).tmod step = 0

def parts : Name → List Name
  | [] => [[]]
  | c :: cs =>
    if c = 44 then [] :: parts cs
    else
      match parts cs with
      | [] => [[c]]
      | p :: ps => (c :: p) :: ps

def matchParts (value minVal : Int) : List Name → Bool
  | [] => false
  | p :: ps => if 32 ≤ p.length then false else matchPart p value minVal || matchParts value minVal ps

def cronMatchField (field : Name) (value minVal : Int) : Bool :=
  if field.contains 44 then matchParts value minVal (parts field) else matchPart field value minVal

structure Flags where
  awake : Bool
  network : Bool
  deriving DecidableEq, Repr

/-- The letters up to the next space; a tab does not end them. -/
def parseFlags (s : Name) : Flags :=
  if s.head? = some 45 ∧ (s.tail.head? = some 32 ∨ s.tail = []) then ⟨false, false⟩
  else
    let letters := s.takeWhile (· ≠ 32)
    let network := letters.any fun c => c == 78 || c == 110
    ⟨network || letters.any fun c => c == 65 || c == 97, network⟩

structure Entry where
  minute : Name
  hour : Name
  mday : Name
  mon : Name
  wday : Name
  flags : Flags
  cmd : Name
  deriving DecidableEq, Repr

def nextField (s : Name) : Option (Name × Name) :=
  let s := s.dropWhile isBlank
  let word := s.takeWhile (!isBlank ·)
  if s = [] ∨ 32 ≤ word.length then none else some (word, s.dropWhile (!isBlank ·))

def cronParse (line : Name) : Option Entry := do
  let (minute, s) ← nextField line
  let (hour, s) ← nextField s
  let (mday, s) ← nextField s
  let (mon, s) ← nextField s
  let (wday, s) ← nextField s
  let s := s.dropWhile isBlank
  if s = [] then none
  else
    let flags := parseFlags s
    let cmd := (s.dropWhile (!isBlank ·)).dropWhile isBlank
    if cmd = [] then none else some ⟨minute, hour, mday, mon, wday, flags, cmd⟩

structure Date where
  mon : Nat
  mday : Nat
  wday : Nat
  deriving DecidableEq, Repr

def uint32Max : Nat := 4294967295

def dayOf (l : Int) : Int := l / 1440

def hourOf (l : Int) : Int := l / 60 % 24

def minOf (l : Int) : Int := l % 60

section Next

variable (date : Int → Date) (off : Int)

def matchDay (e : Entry) (l : Int) : Bool :=
  let d := date (dayOf l)
  cronMatchField e.mon d.mon 1 && cronMatchField e.mday d.mday 1 &&
    (cronMatchField e.wday d.wday 0 || (d.wday = 0 && cronMatchField e.wday 7 0))

def matchHour (e : Entry) (l : Int) : Bool := cronMatchField e.hour (hourOf l) 0

def matchMin (e : Entry) (l : Int) : Bool := cronMatchField e.minute (minOf l) 0

def matches5 (e : Entry) (l : Int) : Bool := matchDay date e l && matchHour e l && matchMin e l

def epochMinute (l : Int) : Nat := (l - off).toNat % 2 ^ 32

/-- The search of `cronNextRun`. Raising a field of the broken-down time and normalising it
leads to the next midnight, the next full hour or the next minute. -/
def searchFrom (e : Entry) (horizon : Nat) : Nat → Int → Nat
  | 0, _ => uint32Max
  | guard + 1, l =>
    if horizon < epochMinute off l then uint32Max
    else if !matchDay date e l then searchFrom e horizon guard ((dayOf l + 1) * 1440)
    else if !matchHour e l then searchFrom e horizon guard ((l / 60 + 1) * 60)
    else if !matchMin e l then searchFrom e horizon guard (l + 1)
    else epochMinute off l

def cronNextRun (e : Entry) (fromMinute : Nat) : Nat :=
  searchFrom date off e ((fromMinute + 400 * 24 * 60) % 2 ^ 32) 1000 (fromMinute + off)

end Next

/-- A command that goes to the CLI task, with the position of its entry and the minute. -/
structure Emission where
  entry : Nat
  cmd : Name
  minute : Nat
  deriving DecidableEq, Repr

structure State where
  last : Nat
  next : Nat
  wake : Nat
  log : List Emission
  deriving DecidableEq, Repr

section Poll

variable (date : Int → Date) (off : Int) (tab : List Name)

def cronComputeNext (s : State) (fromMinute : Nat) : State :=
  let runs := (tab.filterMap cronParse).map fun e => (e, cronNextRun date off e fromMinute)
  { s with
    next := (runs.map Prod.snd).foldl min uint32Max
    wake := ((runs.filter fun r => !r.1.flags.awake).map Prod.snd).foldl min uint32Max }

def cronAnchorSane (s : State) (nowMin : Nat) : Bool := s.last ≠ 0 && s.last ≤ nowMin && nowMin - s.last ≤ 24 * 60

def cronReschedule (s : State) (nowMin : Nat) : State :=
  let s := if cronAnchorSane s nowMin then s else { s with last := nowMin }
  cronComputeNext date off tab s ((s.last + 1) % 2 ^ 32)

def dueEntry (s : State) (nowMin : Nat) (isDeepSleepWake netUp : Bool) (line : Name) (i : Nat) : Option Emission :=
  (cronParse line).bind fun e =>
    if nowMin < cronNextRun date off e ((s.last + 1) % 2 ^ 32) then none
    else if e.flags.awake && isDeepSleepWake then none
    else if e.flags.network && !netUp then none
    else some ⟨i, e.cmd, nowMin⟩

def dueNow (s : State) (nowMin : Nat) (isDeepSleepWake netUp : Bool) : List Emission :=
  tab.zipIdx.filterMap fun p => dueEntry date off s nowMin isDeepSleepWake netUp p.1 p.2

def cronPoll (s : State) (nowMin : Nat) (isDeepSleepWake netUp : Bool) : State :=
  if !cronAnchorSane s nowMin then cronComputeNext date off tab { s with last := nowMin } ((nowMin + 1) % 2 ^ 32)
  else if nowMin < s.next then s
  else
    cronComputeNext date off tab { s with last := nowMin, log := s.log ++ dueNow date off tab s nowMin isDeepSleepWake netUp }
      ((nowMin + 1) % 2 ^ 32)

end Poll

end Spangap.Cron
