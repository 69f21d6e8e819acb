import Spangap.Notify
import Spangap.Persist
import Spangap.StoreEngine
import Spangap.TypeInference

namespace Spangap.OpLists

open Bytes CJson Fields Commit Browser Persist Registry

open Notify (Row)

open StoreFile (cstr cstr_eq)

def size32 : Nat := 4294967296

/-- The list is malformed, or a value of it is read from behind its end. -/
inductive Fault
  | bad
  | overrun
  deriving DecidableEq, Repr

inductive SubKind
  | sub
  | subd
  | unsub
  deriving DecidableEq, Repr

/-- A value as it stands in a list: four bytes, or the bytes behind a length. -/
inductive Value
  | int (v : Nat)
  | str (s : List UInt8)
  | json (s : List UInt8)
  deriving DecidableEq, Repr

/-- An op, with values of one kind or another. -/
inductive ListOp (α : Type)
  | write (dflt : Bool) (key : Name) (v : α)
  | delete (key : Name)
  | sub (kind : SubKind) (scope : Name) (cb : Nat)
  | save (sem : Nat)
  deriving DecidableEq, Repr

def ListOp.map {α β : Type} (f : α → β) : ListOp α → ListOp β
  | .write dflt key v => .write dflt key (f v)
  | .delete key => .delete key
  | .sub kind scope cb => .sub kind scope cb
  | .save sem => .save sem

section Parse

variable (len : Nat)

/-- The next `n` bytes of a list of `len` bytes. The bound is checked in 32 bits, so a sum that wraps passes. -/
def grab (n : Nat) (rest : List UInt8) : Except Fault (List UInt8 × List UInt8) :=
  if len < (len - rest.length + n) % size32 then .error .bad
  else if rest.length < n then .error .overrun
  else .ok (rest.take n, rest.drop n)

/-- A key or a scope, up to its NUL. -/
def readStr (rest : List UInt8) : Except Fault (Name × List UInt8) :=
  match rest.dropWhile (· ≠ 0) with
  | [] => .error .bad
  | _ :: after => .ok (rest.takeWhile (· ≠ 0), after)

def readValue : List UInt8 → Except Fault (Value × List UInt8)
  | [] => .error .bad
  | vt :: rest =>
    if vt = 73 then do
      let (b, rest) ← grab len 4 rest
      return (.int (le b), rest)
    else if vt = 83 ∨ vt = 74 then do
      let (b, rest) ← grab len 4 rest
      let (s, rest) ← grab len (le b) rest
      return (if vt = 83 then .str s else .json s, rest)
    else .error .bad

def kindOf (op : UInt8) : Option SubKind :=
  if op = 43 then some .sub else if op = 35 then some .subd else if op = 45 then some .unsub else none

def readOp : List UInt8 → Except Fault (ListOp Value × List UInt8)
  | [] => .error .bad
  | op :: rest =>
    if op = 83 ∨ op = 100 then do
      let (key, rest) ← readStr rest
      let (v, rest) ← readValue len rest
      return (.write (op = 100) key v, rest)
    else if op = 68 then do
      let (key, rest) ← readStr rest
      return (.delete key, rest)
    else if op = 87 then do
      let (b, rest) ← grab len 4 rest
      return (.save (le b), rest)
    else
      match kindOf op with
      | none => .error .bad
      | some kind => do
        let (scope, rest) ← readStr rest
        let (b, rest) ← grab len 4 rest
        return (.sub kind scope (le b), rest)

def readOps : Nat → List UInt8 → Except Fault (List (ListOp Value))
  | _, [] => .ok []
  | 0, _ :: _ => .error .bad
  | fuel + 1, op :: rest => do
    let (w, rest) ← readOp len (op :: rest)
    let ws ← readOps fuel rest
    return w :: ws

end Parse

/-- A whole list, whose first byte holds its flags. -/
def readList : List UInt8 → Except Fault (List (ListOp Value))
  | [] => .error .bad
  | _ :: rest => readOps (rest.length + 1) rest.length rest

/-- An op once its value is a cJSON node, or none where the JSON did not parse. -/
abbrev ParsedOp := ListOp (Option Json)

/-- What the storage task owns. -/
structure Actor (S F : Type) where
  st : State
  shelf : Shelf S F
  subs : List Row
  pendingSaveSems : List Nat

section Apply

/- `cJSON_ParseWithLength`, and the record stores. -/
variable (parse : List UInt8 → Option Json) {S F : Type} (E : Schema → Engine S F) (regs : List Reg) (text : Option Json → Name)

def Value.node : Value → Option Json
  | .int v => some (.scalar (.num (Int.bmod v size32)))
  | .str s => some (.scalar (.str (cstr s)))
  | .json s => parse s

def pass1 (p : List UInt8) : Except Fault (List ParsedOp) := (readList p).map (List.map (ListOp.map (Value.node parse)))

def setting : ParsedOp → Option Op
  | .write dflt key v => some ⟨if dflt then .dflt else .set, key, v⟩
  | .delete key => some ⟨.delete, key, none⟩
  | _ => none

def semaphore : ParsedOp → Option Nat
  | .save sem => some sem
  | _ => none

def callback (cb : Nat) : Option Nat := if cb = 0 then none else some cb

def subscribe (sender : Nat) (l : List Row) : ParsedOp → List Row
  | .sub .sub scope cb => Notify.subAdd l ⟨.task sender, callback cb, scope⟩
  | .sub .subd scope cb => Notify.subAdd l ⟨.direct, callback cb, scope⟩
  | .sub .unsub scope cb => Notify.subRemove sender (callback cb) scope l
  | _ => l

/-- Pass 2 and what follows it. -/
def pass2 (sender : Nat) (ops : List ParsedOp) (a : Actor S F) : Actor S F where
  st := applyOps (patterns regs) a.st (ops.filterMap setting)
  shelf := sdbApplyOps E regs text a.shelf (ops.filterMap setting)
  subs := ops.foldl (subscribe sender) a.subs
  pendingSaveSems := a.pendingSaveSems ++ ops.filterMap semaphore

/-- A list that is read from behind its end has no result. -/
def storageApplyOps (p : List UInt8) (sender : Nat) (a : Actor S F) : Option (Actor S F) :=
  match pass1 parse p with
  | .ok ops => some (pass2 E regs text sender ops a)
  | .error .bad => some a
  | .error .overrun => none

end Apply

section Grammar

def opPutStr (s : Name) : List UInt8 := s ++ [0]

def opPutU32 (v : Nat) : List UInt8 := leBytes 4 v

def Value.encode : Value → List UInt8
  | .int v => 73 :: opPutU32 v
  | .str s => 83 :: (opPutU32 s.length ++ s)
  | .json s => 74 :: (opPutU32 s.length ++ s)

def SubKind.byte : SubKind → UInt8
  | .sub => 43
  | .subd => 35
  | .unsub => 45

def writeByte (dflt : Bool) : UInt8 := if dflt then 100 else 83

def encode : ListOp Value → List UInt8
  | .write dflt key v => writeByte dflt :: (opPutStr key ++ v.encode)
  | .delete key => 68 :: opPutStr key
  | .sub kind scope cb => kind.byte :: (opPutStr scope ++ opPutU32 cb)
  | .save sem => 87 :: opPutU32 sem

/-- Keys have no NUL, pointers four bytes, and the value is as it should be. -/
def ListOp.All {α : Type} (P : α → Prop) : ListOp α → Prop
  | .write _ key v => 0 ∉ key ∧ P v
  | .delete key => 0 ∉ key
  | .sub _ scope cb => 0 ∉ scope ∧ cb < size32
  | .save sem => sem < size32

def Value.Framed : Value → Prop
  | .int v => v < size32
  | .str s => s.length < size32
  | .json s => s.length < size32

def Value.Valid (valid : List UInt8 → Prop) : Value → Prop
  | .json s => valid s
  | _ => True

/-- A flags byte and ops of the grammar, whose JSON is valid. -/
def WellFormed (valid : List UInt8 → Prop) (p : List UInt8) : Prop :=
  ∃ flags ws, p = flags :: List.flatMap encode ws ∧ ∀ w ∈ ws, w.All fun v => v.Framed ∧ v.Valid valid

/-- A write with a length that its value does not have, and whose end is small again in 32 bits. -/
inductive Overlong (len : Nat) : List UInt8 → Prop
  | intro (dflt : Bool) (key : Name) (vt : UInt8) (b rest : List UInt8) : 0 ∉ key → vt = 83 ∨ vt = 74 → b.length = 4 →
      size32 ≤ len - rest.length + le b → Overlong len (writeByte dflt :: (opPutStr key ++ vt :: (b ++ rest)))

/-- Behind whole ops there is such a write. -/
def Wraps (p : List UInt8) : Prop :=
  ∃ flags bs ws, p = flags :: (List.flatMap encode ws ++ bs) ∧ (∀ w ∈ ws, w.All Value.Framed) ∧ Overlong p.length bs

/-- What `opAppendKV`, `opAppendKVInt` and `opAppendKVJson` are given. -/
inductive Arg
  | text (val : Name)
  | int (v : Int)
  | json (s : List UInt8)

/-- The four bytes of an `int`, as a number. -/
def int32 (v : Int) : Nat := (v % size32).toNat

def Arg.value : Arg → Value
  | .text val => (inferType val).elim (.str val) fun v => .int (int32 v)
  | .int v => .int (int32 v)
  | .json s => .json s

def opAppend (o : ListOp Arg) : List UInt8 := encode (o.map Arg.value)

def Arg.Ok (valid : List UInt8 → Prop) : Arg → Prop
  | .text val => 0 ∉ val ∧ val.length < size32
  | .int v => -2147483648 ≤ v ∧ v ≤ 2147483647
  | .json s => s.length < size32 ∧ valid s

def Arg.node (parse : List UInt8 → Option Json) : Arg → Option Json
  | .text val => some (textValue val)
  | .int v => some (.scalar (.num v))
  | .json s => parse s

end Grammar

theorem leBytes_le (bs : List UInt8) : leBytes bs.length (le bs) = bs := by
  induction bs with
  | nil => rfl
  | cons b bs ih =>
    have hlow : UInt8.ofNat (b.toNat + 256 * le bs) = b := by
      apply UInt8.toNat_inj.mp
      simp
    have hhigh : (b.toNat + 256 * le bs) / 256 = le bs := by
      have := b.toNat_lt
      omega
    rw [List.length_cons, leBytes, le, hlow, hhigh, ih]

section Words

variable {b : List UInt8} {v : Nat}

theorem opPutU32_le (hb : b.length = 4) : opPutU32 (le b) = b := by rw [opPutU32, ← hb, leBytes_le]

theorem length_opPutU32 (v : Nat) : (opPutU32 v).length = 4 := leBytes_length 4 v

theorem le_opPutU32 (hv : v < size32) : le (opPutU32 v) = v := le_leBytes_of_lt hv

theorem le_lt_size32 (hb : b.length = 4) : le b < size32 := by
  have h := le_lt b
  rwa [hb] at h

theorem kindOf_iff {op : UInt8} {kind : SubKind} : kindOf op = some kind ↔ op = kind.byte := by
  unfold kindOf SubKind.byte
  cases kind <;> split_ifs <;> simp_all

end Words

section Sound

variable {α β : Type} {len : Nat} {rest : List UInt8}

/-- What a reader returns: something of the kind that it reads, with its bytes gone, or why it could not. -/
def Reads (encode : α → List UInt8) (P : α → Prop) (long : Prop) (rest : List UInt8) : Except Fault (α × List UInt8) → Prop
  | .ok (a, r) => P a ∧ rest = encode a ++ r
  | .error .overrun => long
  | .error .bad => True

theorem Reads.bind {e : α → List UInt8} {P : α → Prop} {long long' : Prop} {e' : β → List UInt8} {P' : β → Prop} {rest' : List UInt8}
    {x : Except Fault (α × List UInt8)} {f : α × List UInt8 → Except Fault (β × List UInt8)} (hx : Reads e P long rest x)
    (hlong : long → long') (hf : ∀ a r, P a → rest = e a ++ r → Reads e' P' long' rest' (f (a, r))) :
    Reads e' P' long' rest' (x >>= f) := by
  match x with
  | .ok (a, r) => exact hf a r hx.1 hx.2
  | .error .overrun => exact hlong hx
  | .error .bad => trivial

theorem grab_reads (h : rest.length ≤ len) (n : Nat) :
    Reads id (fun a => a.length = n) (size32 ≤ len - rest.length + n) rest (grab len n rest) := by
  rw [grab]
  split
  next => trivial
  next hpass =>
    split
    next hshort =>
      refine Nat.not_lt.mp fun hsum => hpass ?_
      rw [Nat.mod_eq_of_lt hsum]
      omega
    next hfit => exact ⟨List.length_take_of_le (Nat.not_lt.mp hfit), (List.take_append_drop n rest).symm⟩

theorem readStr_reads (rest : List UInt8) : Reads opPutStr (fun k => 0 ∉ k) False rest (readStr rest) := by
  rw [readStr]
  have hhead := List.head?_dropWhile_not (fun c => decide (c ≠ 0)) rest
  split
  next => trivial
  next x after hd =>
    rw [hd, List.head?_cons] at hhead
    obtain rfl : x = 0 := by simpa using hhead
    refine ⟨fun h => by simpa using List.all_eq_true.mp List.all_takeWhile 0 h, ?_⟩
    rw [opPutStr, List.append_assoc, List.singleton_append, ← hd, List.takeWhile_append_dropWhile]

variable (hlen : len + 4 < size32)
include hlen

theorem word_reads (h : rest.length ≤ len) : Reads id (fun a => a.length = 4) False rest (grab len 4 rest) := by
  have hword := grab_reads h 4
  rwa [eq_false (show ¬size32 ≤ len - rest.length + 4 by omega)] at hword

theorem readValue_reads (h : rest.length ≤ len) :
    Reads Value.encode Value.Framed
      (∃ vt b r, rest = vt :: (b ++ r) ∧ (vt = 83 ∨ vt = 74) ∧ b.length = 4 ∧ size32 ≤ len - r.length + le b) rest (readValue len rest) := by
  cases rest with
  | nil => trivial
  | cons vt rest =>
    have hrest : rest.length ≤ len := Nat.le_of_succ_le h
    rw [readValue]
    split
    next hint =>
      refine (word_reads hlen hrest).bind False.elim fun b r hb hsplit => ⟨le_lt_size32 hb, ?_⟩
      rw [Value.encode, opPutU32_le hb, hint, hsplit]
      rfl
    next =>
      split
      next hvt =>
        refine (word_reads hlen hrest).bind False.elim fun b r hb hsplit => ?_
        have hr : r.length ≤ len := by
          rw [hsplit, id, List.length_append] at hrest
          omega
        refine (grab_reads hr (le b)).bind (fun hs => ⟨vt, b, r, congrArg _ hsplit, hvt, hb, hs⟩) fun s r' hs hsplit' => ?_
        have hbytes : vt :: rest = vt :: (opPutU32 s.length ++ s) ++ r' := by
          rw [hs, opPutU32_le hb, hsplit, hsplit', List.cons_append, List.append_assoc]
          rfl
        have hsize : s.length < size32 := hs ▸ le_lt_size32 hb
        rcases hvt with rfl | rfl <;> exact ⟨hsize, hbytes⟩
      next => trivial

theorem readOp_reads (h : rest.length ≤ len) : Reads encode (ListOp.All Value.Framed) (Overlong len rest) rest (readOp len rest) := by
  cases rest with
  | nil => trivial
  | cons op rest =>
    have hrest : rest.length ≤ len := Nat.le_of_succ_le h
    have hafter : ∀ {k r}, rest = opPutStr k ++ r → r.length ≤ len := by
      intro k r hsplit
      rw [hsplit, List.length_append] at hrest
      omega
    rw [readOp]
    split
    next hop =>
      have hbyte : writeByte (decide (op = 100)) = op := by rcases hop with rfl | rfl <;> rfl
      refine (readStr_reads rest).bind False.elim fun key r hkey hsplit => ?_
      refine (readValue_reads hlen (hafter hsplit)).bind ?_ fun v r' hv hsplit' => ⟨⟨hkey, hv⟩, ?_⟩
      · rintro ⟨vt, b, r', rfl, hvt, hb, hlong⟩
        rw [hsplit, ← hbyte]
        exact .intro _ key vt b r' hkey hvt hb hlong
      · rw [encode, hbyte, hsplit, hsplit', List.cons_append, List.append_assoc]
    next =>
      split
      next hop =>
        refine (readStr_reads rest).bind False.elim fun key r hkey hsplit => ⟨hkey, ?_⟩
        rw [encode, hop, hsplit]
        rfl
      next =>
        split
        next hop =>
          refine (word_reads hlen hrest).bind False.elim fun b r hb hsplit => ⟨le_lt_size32 hb, ?_⟩
          rw [encode, opPutU32_le hb, hop, hsplit]
          rfl
        next =>
          split
          next => trivial
          next kind hkind =>
            obtain rfl := kindOf_iff.mp hkind
            refine (readStr_reads rest).bind False.elim fun scope r hscope hsplit => ?_
            refine (word_reads hlen (hafter hsplit)).bind False.elim fun b r' hb hsplit' => ⟨⟨hscope, le_lt_size32 hb⟩, ?_⟩
            rw [encode, opPutU32_le hb, hsplit, hsplit', List.cons_append, List.append_assoc]
            rfl

end Sound

section Complete

variable {α β : Type} {len n : Nat} {rest r : List UInt8} {w : ListOp Value}

theorem ok_bind (a : α) (f : α → Except Fault β) : (Except.ok a >>= f) = f a := rfl

theorem readValue_int (rest : List UInt8) :
    readValue len (73 :: rest) = grab len 4 rest >>= fun x => .ok (.int (le x.1), x.2) := rfl

theorem readValue_bytes {vt : UInt8} (hvt : vt = 83 ∨ vt = 74) (rest : List UInt8) :
    readValue len (vt :: rest) = grab len 4 rest >>= fun x => grab len (le x.1) x.2 >>= fun y =>
      .ok (if vt = 83 then .str y.1 else .json y.1, y.2) := by
  rcases hvt with rfl | rfl <;> rfl

theorem readOp_write (dflt : Bool) (rest : List UInt8) :
    readOp len (writeByte dflt :: rest) = readStr rest >>= fun x => readValue len x.2 >>= fun y => .ok (.write dflt x.1 y.1, y.2) := by
  cases dflt <;> rfl

theorem readOp_sub (kind : SubKind) (rest : List UInt8) :
    readOp len (kind.byte :: rest) = readStr rest >>= fun x => grab len 4 x.2 >>= fun y => .ok (.sub kind x.1 (le y.1), y.2) := by
  cases kind <;> rfl

theorem readOp_save (rest : List UInt8) : readOp len (87 :: rest) = grab len 4 rest >>= fun x => .ok (.save (le x.1), x.2) := rfl

theorem readOp_delete (rest : List UInt8) : readOp len (68 :: rest) = readStr rest >>= fun x => .ok (.delete x.1, x.2) := rfl

theorem readStr_append {k : Name} (hk : 0 ∉ k) (r : List UInt8) : readStr (opPutStr k ++ r) = .ok (k, r) := by
  have hall : ∀ c ∈ k, decide (c ≠ 0) = true := fun c hc => decide_eq_true fun h => hk (h ▸ hc)
  rw [readStr, opPutStr, List.append_assoc, List.dropWhile_append_of_pos hall, List.takeWhile_append_of_pos hall]
  simp

variable (hlen : len < size32)
include hlen

theorem grab_append {a : List UInt8} (ha : a.length = n) (h : (a ++ r).length ≤ len) : grab len n (a ++ r) = .ok (a, r) := by
  rw [List.length_append, ha] at h
  have hend : len - (a ++ r).length + n ≤ len := by
    rw [List.length_append, ha]
    omega
  have hfit : ¬(a ++ r).length < n := by
    rw [List.length_append, ha]
    omega
  rw [grab, Nat.mod_eq_of_lt (Nat.lt_of_le_of_lt hend hlen), if_neg (Nat.not_lt.mpr hend), if_neg hfit, List.take_left' ha,
    List.drop_left' ha]

theorem readValue_encode {v : Value} (hv : v.Framed) (h : (v.encode ++ r).length ≤ len) :
    readValue len (v.encode ++ r) = .ok (v, r) := by
  have hbytes : ∀ {vt s}, vt = 83 ∨ vt = 74 → s.length < size32 → (vt :: (opPutU32 s.length ++ s) ++ r).length ≤ len →
      readValue len (vt :: (opPutU32 s.length ++ s) ++ r) = .ok (if vt = 83 then .str s else .json s, r) := by
    intro vt s hvt hs h
    rw [List.cons_append, List.append_assoc] at h ⊢
    have hword := Nat.le_of_succ_le h
    have htail : (s ++ r).length ≤ len := by
      rw [List.length_append] at hword
      omega
    rw [readValue_bytes hvt, grab_append hlen (length_opPutU32 _) hword, ok_bind, le_opPutU32 hs, grab_append hlen rfl htail, ok_bind]
  cases v with
  | int v =>
    rw [Value.encode, List.cons_append, readValue_int, grab_append hlen (length_opPutU32 v) (Nat.le_of_succ_le h), ok_bind,
      le_opPutU32 hv]
  | str s => exact hbytes (.inl rfl) hv h
  | json s => exact hbytes (.inr rfl) hv h

theorem readOp_encode (hw : w.All Value.Framed) (h : (encode w ++ r).length ≤ len) : readOp len (encode w ++ r) = .ok (w, r) := by
  have htail : ∀ {x : UInt8} {k : Name} {y : List UInt8}, (x :: (opPutStr k ++ y)).length ≤ len → y.length ≤ len := by
    intro x k y h
    rw [List.length_cons, List.length_append] at h
    omega
  cases w with
  | write dflt key v =>
    rw [encode, List.cons_append, List.append_assoc] at h ⊢
    rw [readOp_write, readStr_append hw.1, ok_bind, readValue_encode hlen hw.2 (htail h), ok_bind]
  | delete key => rw [encode, List.cons_append, readOp_delete, readStr_append hw, ok_bind]
  | sub kind scope cb =>
    rw [encode, List.cons_append, List.append_assoc] at h ⊢
    rw [readOp_sub, readStr_append hw.1, ok_bind, grab_append hlen (length_opPutU32 cb) (htail h), ok_bind, le_opPutU32 hw.2]
  | save sem =>
    rw [encode, List.cons_append, readOp_save, grab_append hlen (length_opPutU32 sem) (Nat.le_of_succ_le h), ok_bind, le_opPutU32 hw]

theorem readOp_overlong (h : Overlong len rest) (hr : rest.length ≤ len) : readOp len rest = .error .overrun := by
  cases h with
  | intro dflt key vt b rest hkey hvt hb hlong =>
    rw [List.length_cons, List.length_append, List.length_cons] at hr
    have hlt := le_lt_size32 hb
    have hgrab : grab len (le b) rest = .error .overrun := by
      have hend : (len - rest.length + le b) % size32 = len - rest.length + le b - size32 := by
        rw [Nat.mod_eq_sub_mod hlong, Nat.mod_eq_of_lt (by omega)]
      rw [grab, if_neg (by omega), if_pos (by rw [List.length_append] at hr; omega)]
    rw [readOp_write, readStr_append hkey, ok_bind, readValue_bytes hvt, grab_append hlen hb (by omega), ok_bind, hgrab]
    rfl

end Complete

section Whole

variable {len fuel : Nat} {p rest bs : List UInt8} {ws : List (ListOp Value)}

theorem readOps_step (hne : rest ≠ []) :
    readOps len (fuel + 1) rest = readOp len rest >>= fun x => readOps len fuel x.2 >>= fun ws => .ok (x.1 :: ws) := by
  cases rest with
  | nil => exact absurd rfl hne
  | cons op rest => rfl

theorem length_encode_pos (w : ListOp Value) : 0 < (encode w).length := by
  cases w <;> exact Nat.succ_pos _

/-- Whole ops are read off the front. -/
theorem readOps_append (hlen : len < size32) (hws : ∀ w ∈ ws, w.All Value.Framed) (h : (ws.flatMap encode ++ bs).length ≤ len)
    (hfuel : (ws.flatMap encode ++ bs).length ≤ fuel) :
    ∃ fuel', bs.length ≤ fuel' ∧ readOps len fuel (ws.flatMap encode ++ bs) = (readOps len fuel' bs).map (ws ++ ·) := by
  induction ws generalizing fuel with
  | nil =>
    refine ⟨fuel, hfuel, ?_⟩
    cases hr : readOps len fuel bs <;> simp [hr, Except.map]
  | cons w ws ih =>
    obtain ⟨hw, hws⟩ := List.forall_mem_cons.mp hws
    have hpos := length_encode_pos w
    rw [List.flatMap_cons, List.append_assoc] at h hfuel ⊢
    have hcount : (encode w ++ (ws.flatMap encode ++ bs)).length = (encode w).length + (ws.flatMap encode ++ bs).length :=
      List.length_append
    obtain ⟨n, rfl⟩ : ∃ n, fuel = n + 1 := ⟨fuel - 1, by omega⟩
    obtain ⟨fuel', hfuel', hread⟩ := ih hws (by omega) (show _ ≤ n by omega)
    refine ⟨fuel', hfuel', ?_⟩
    rw [readOps_step (List.ne_nil_of_length_pos (by omega)), readOp_encode hlen hw h, ok_bind, hread]
    cases readOps len fuel' bs <;> rfl

/-- What the reader of a list returns. -/
def Parses (len : Nat) (rest : List UInt8) : Except Fault (List (ListOp Value)) → Prop
  | .ok ws => (∀ w ∈ ws, w.All Value.Framed) ∧ rest = ws.flatMap encode
  | .error .overrun => ∃ bs, ∃ ws : List (ListOp Value),
      (∀ w ∈ ws, w.All Value.Framed) ∧ Overlong len bs ∧ rest = ws.flatMap encode ++ bs
  | .error .bad => True

theorem readOps_parses (hlen : len + 4 < size32) (fuel : Nat) (h : rest.length ≤ len) : Parses len rest (readOps len fuel rest) := by
  induction fuel generalizing rest with
  | zero =>
    cases rest with
    | nil => exact ⟨by simp, rfl⟩
    | cons op rest => trivial
  | succ fuel ih =>
    rcases eq_or_ne rest [] with rfl | hne
    · exact ⟨by simp, rfl⟩
    rw [readOps_step hne]
    have hop := readOp_reads hlen h
    match hread : readOp len rest with
    | .error .bad => trivial
    | .error .overrun =>
      rw [hread] at hop
      exact ⟨rest, [], by simp, hop, rfl⟩
    | .ok (w, r) =>
      rw [hread] at hop
      obtain ⟨hw, rfl⟩ := hop
      have hr : Parses len r (readOps len fuel r) := ih (by rw [List.length_append] at h; omega)
      rw [ok_bind]
      match hrest : readOps len fuel r with
      | .error .bad => trivial
      | .error .overrun =>
        simp only [hrest] at hr
        obtain ⟨bs, ws, hws, hlong, rfl⟩ := hr
        exact ⟨bs, w :: ws, List.forall_mem_cons.mpr ⟨hw, hws⟩, hlong, by simp⟩
      | .ok ws =>
        simp only [hrest] at hr
        obtain ⟨hws, rfl⟩ := hr
        exact ⟨List.forall_mem_cons.mpr ⟨hw, hws⟩, by simp⟩

variable (hlen : p.length + 4 < size32)
include hlen

theorem readList_ok_iff : readList p = .ok ws ↔ ∃ flags, p = flags :: ws.flatMap encode ∧ ∀ w ∈ ws, w.All Value.Framed := by
  constructor
  · intro hread
    cases p with
    | nil => cases hread
    | cons flags rest =>
      have hparses := readOps_parses hlen rest.length (Nat.le_succ rest.length)
      rw [show readOps (flags :: rest).length rest.length rest = _ from hread] at hparses
      exact ⟨flags, congrArg _ hparses.2, hparses.1⟩
  · rintro ⟨flags, rfl, hws⟩
    have hsmall : (flags :: ws.flatMap encode).length < size32 := by omega
    have hall : (ws.flatMap encode ++ []).length ≤ (flags :: ws.flatMap encode).length := by simp
    obtain ⟨fuel', -, hread⟩ := readOps_append hsmall hws hall (Nat.le_of_eq (congrArg _ (List.append_nil _)))
    rw [List.append_nil] at hread
    rw [readList]
    refine hread.trans ?_
    cases fuel' <;> simp [readOps, Except.map]

theorem readList_overrun_iff : readList p = .error .overrun ↔ Wraps p := by
  constructor
  · intro hread
    cases p with
    | nil => cases hread
    | cons flags rest =>
      have hparses := readOps_parses hlen rest.length (Nat.le_succ rest.length)
      rw [show readOps (flags :: rest).length rest.length rest = _ from hread] at hparses
      obtain ⟨bs, ws, hws, hlong, rfl⟩ := hparses
      exact ⟨flags, bs, ws, rfl, hws, hlong⟩
  · rintro ⟨flags, bs, ws, rfl, hws, hlong⟩
    have hsmall : (flags :: (ws.flatMap encode ++ bs)).length < size32 := by omega
    obtain ⟨fuel', hfuel', hread⟩ := readOps_append hsmall hws (Nat.le_succ _) (Nat.le_refl _)
    refine hread.trans ?_
    have hbs : bs.length ≤ (flags :: (ws.flatMap encode ++ bs)).length := by
      rw [List.length_cons, List.length_append]
      omega
    have hne : bs ≠ [] := by
      rintro rfl
      cases hlong
    obtain ⟨n, rfl⟩ : ∃ n, fuel' = n + 1 := ⟨fuel' - 1, by have := List.length_pos_of_ne_nil hne; omega⟩
    rw [readOps_step hne, readOp_overlong hsmall hlong hbs]
    rfl

end Whole

section Exact

variable {parse : List UInt8 → Option Json} {valid : List UInt8 → Prop} {S F : Type} {E : Schema → Engine S F} {regs : List Reg}
  {text : Option Json → Name} {p : List UInt8} {g : ListOp Arg}

/-- A list is applied if it is well formed, with the ops that its encoders were given, and any other one changes nothing. -/
structure Exact (parse : List UInt8 → Option Json) (valid : List UInt8 → Prop) (E : Schema → Engine S F) (regs : List Reg)
    (text : Option Json → Name) (p : List UInt8) : Prop where
  applied : (∃ ops, pass1 parse p = .ok ops) ↔ WellFormed valid p
  decoded : ∀ flags, ∀ gs : List (ListOp Arg), (∀ g ∈ gs, g.All (Arg.Ok valid)) → p = flags :: gs.flatMap opAppend →
    pass1 parse p = .ok (gs.map (ListOp.map (Arg.node parse)))
  untouched : ¬ WellFormed valid p → ∀ sender (a : Actor S F), storageApplyOps parse E regs text p sender a = some a

/-- No value reaches so far that its end wraps, and where all ops have their shape, what is to be JSON is. -/
def Clean (valid : List UInt8 → Prop) (p : List UInt8) : Prop :=
  ¬ Wraps p ∧ ∀ flags, ∀ ws : List (ListOp Value), p = flags :: ws.flatMap encode → (∀ w ∈ ws, w.All Value.Framed) →
    ∀ w ∈ ws, w.All fun v => v.Framed ∧ v.Valid valid

theorem bmod_int32 {v : Int} (hlo : -2147483648 ≤ v) (hhi : v ≤ 2147483647) : Int.bmod (int32 v) size32 = v := by
  rw [int32, Int.toNat_of_nonneg (Int.emod_nonneg v (by decide)), Int.emod_bmod, Int.bmod_eq_of_le]
  · exact hlo
  · exact Int.lt_of_le_of_lt hhi (by decide)

theorem int32_lt (v : Int) : int32 v < size32 := by
  have := Int.emod_lt_of_pos v (show (0 : Int) < size32 by decide)
  have := Int.emod_nonneg v (show (size32 : Int) ≠ 0 by decide)
  rw [int32]
  omega

theorem framed_value {x : Arg} (h : x.Ok valid) : x.value.Framed := by
  cases x with
  | text val =>
    rw [Arg.value]
    cases inferType val with
    | none => exact h.2
    | some v => exact int32_lt v
  | int v => exact int32_lt v
  | json s => exact h.1

theorem node_value {x : Arg} (h : x.Ok valid) : x.value.node parse = x.node parse := by
  cases x with
  | text val =>
    rw [Arg.value, Arg.node, textValue]
    cases hv : inferType val with
    | none => rw [Option.elim_none, Value.node, cstr_eq h.1]
    | some v =>
      obtain ⟨-, hlo, hhi⟩ := TypeInference.inferType_iff.mp hv
      rw [Option.elim_some, Value.node, bmod_int32 hlo hhi]
  | int v => rw [Arg.value, Value.node, Arg.node, bmod_int32 h.1 h.2]
  | json s => rfl

theorem framed_map (hg : g.All (Arg.Ok valid)) : (g.map Arg.value).All Value.Framed := by
  cases g with
  | write dflt key v => exact ⟨hg.1, framed_value hg.2⟩
  | delete key => exact hg
  | sub kind scope cb => exact hg
  | save sem => exact hg

theorem node_map (hg : g.All (Arg.Ok valid)) : (g.map Arg.value).map (Value.node parse) = g.map (Arg.node parse) := by
  cases g with
  | write dflt key v => exact congrArg (ListOp.write dflt key) (node_value hg.2)
  | delete key => rfl
  | sub kind scope cb => rfl
  | save sem => rfl

theorem pass1_ok_iff : (∃ ops, pass1 parse p = .ok ops) ↔ ∃ ws, readList p = .ok ws := by
  rw [pass1]
  cases readList p <;> simp [Except.map]

theorem ListOp.All.framed {valid : List UInt8 → Prop} {w : ListOp Value} (h : w.All fun v => v.Framed ∧ v.Valid valid) :
    w.All Value.Framed := by
  cases w with
  | write dflt key v => exact ⟨h.1, h.2.1⟩
  | delete key => exact h
  | sub kind scope cb => exact h
  | save sem => exact h

end Exact

section Lists

open StoreEngine (stores plainBoard)

/-- A parser of one digit. -/
def digit : List UInt8 → Option Json
  | [c] => if isDigit c then some (.scalar (.num (c.toNat - 48 : Nat))) else none
  | _ => none

/-- The subtree `a` is set to a text, and `b` is deleted. -/
def twoOps (s : Name) : List (ListOp Value) := [.write false (lit "a") (.json s), .delete (lit "b")]

def listed (s : Name) : List UInt8 := 0 :: (twoOps s).flatMap encode

def oneMember : Actor RecordStore.Store (List UInt8) :=
  ⟨{ empty with cfgRoot := [(some (lit "b"), .scalar (.num 1))] }, ⟨[], [], fun _ => none⟩, [], []⟩

end Lists

end Spangap.OpLists
