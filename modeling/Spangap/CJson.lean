import Spangap.FirstMatch

namespace Spangap.CJson

open List Option FirstMatch

/-- A C string: its bytes up to the terminating zero. -/
abbrev Name := List UInt8

instance : LawfulBEq Name := inferInstance

def lit (s : String) : Name := s.toList.map fun c => c.toNat.toUInt8

def toLower (c : UInt8) : UInt8 := if 65 ≤ c ∧ c ≤ 90 then c + 32 else c

def fold (n : Name) : Name := n.map toLower

inductive Scalar
  | null
  | bool (b : Bool)
  | num (v : Rat)
  | str (s : Name)
  deriving DecidableEq, Repr

/-- A cJSON node. A child keeps the `string` field of its own node, which an
array element has too once it came out of a numeric-keyed patch. -/
inductive Json
  | scalar (s : Scalar)
  | arr (cs : List (Option Name × Json))
  | obj (cs : List (Option Name × Json))

abbrev Child := Option Name × Json

namespace Json

def null : Json := scalar .null

def children : Json → List Child
  | scalar _ => []
  | arr cs => cs
  | obj cs => cs

def isScalar : Json → Bool
  | scalar _ => true
  | _ => false

def isNull : Json → Bool
  | scalar .null => true
  | _ => false

def isObj : Json → Bool
  | obj _ => true
  | _ => false

def isArr : Json → Bool
  | arr _ => true
  | _ => false

end Json

def valueint (v : Rat) : Int :=
  if 2147483647 ≤ v then 2147483647 else if v ≤ -2147483648 then -2147483648 else v.num.tdiv v.den

def named (n : Name) (c : Child) : Bool := c.1.map fold == some (fold n)

def getObjectItem (cs : List Child) (n : Name) : Option Json := (cs.find? (named n)).map Prod.snd

def deleteItemFromObject (cs : List Child) (n : Name) : List Child := cs.eraseP (named n)

def addItemToObject (cs : List Child) (n : Name) (v : Json) : List Child := cs ++ [(some n, v)]

def updateItem (cs : List Child) (n : Name) (v : Json) : List Child :=
  modifyFirst (named n) (fun c => (c.1, v)) cs

def getArrayItem (cs : List Child) (i : Nat) : Option Json := cs[i]?.map Prod.snd

def isDigit (c : UInt8) : Bool := 48 ≤ c && c ≤ 57

def isAllDigits (s : Name) : Bool := !s.isEmpty && s.all isDigit

/-- `atoi` of a string of digits; `strtol` stops at the largest `long`. -/
def atoi (s : Name) : Nat := min (s.foldl (fun a c => a * 10 + (c.toNat - 48)) 0) 2147483647

inductive Step
  | key (n : Option Name)
  | idx (i : Nat)
  deriving DecidableEq, Repr

mutual
/-- Every node that is neither an object nor an array, with the path to it. -/
def leaves : Json → List (List Step × Scalar)
  | .scalar s => [([], s)]
  | .arr cs => elemLeaves 0 cs
  | .obj cs => memberLeaves cs

def memberLeaves : List (Option Name × Json) → List (List Step × Scalar)
  | [] => []
  | (n, v) :: cs => (leaves v).map (fun l => (.key n :: l.1, l.2)) ++ memberLeaves cs

def elemLeaves (i : Nat) : List (Option Name × Json) → List (List Step × Scalar)
  | [] => []
  | (_, v) :: cs => (leaves v).map (fun l => (.idx i :: l.1, l.2)) ++ elemLeaves (i + 1) cs
end

theorem mem_memberLeaves {cs : List Child} {l : List Step × Scalar} :
    l ∈ memberLeaves cs ↔ ∃ c ∈ cs, ∃ m ∈ leaves c.2, l = (.key c.1 :: m.1, m.2) := by
  induction cs with
  | nil => simp [memberLeaves]
  | cons c cs ih =>
    rw [memberLeaves, mem_append, ih, exists_mem_cons_iff]
    simp [eq_comm]

theorem named_iff {n : Name} {c : Child} : named n c = true ↔ c.1.map fold = some (fold n) := by
  simp [named]

theorem named_congr {n m : Name} (h : fold n = fold m) : named n = named m := by
  funext c
  simp [named, h]

theorem named_some {n m : Name} {v : Json} : named n (some m, v) = true ↔ fold m = fold n := by
  simp [named]

theorem named_disjoint {n m : Name} (h : fold n ≠ fold m) (c : Child) (hc : named n c = true) :
    named m c = false := by
  rw [named_iff] at hc
  simp [named, hc, h]

@[simp] theorem named_snd (n : Name) (c : Child) (v : Json) : named n (c.1, v) = named n c := rfl

theorem getObjectItem_congr {n m : Name} (h : fold n = fold m) (cs : List Child) :
    getObjectItem cs n = getObjectItem cs m := by
  rw [getObjectItem, getObjectItem, named_congr h]

theorem updateItem_congr {n m : Name} (h : fold n = fold m) (cs : List Child) (v : Json) :
    updateItem cs n v = updateItem cs m v := by
  rw [updateItem, updateItem, named_congr h]

theorem getObjectItem_of_none {cs : List Child} {n : Name} (h : ∀ c ∈ cs, named n c = false) :
    getObjectItem cs n = none := by
  rw [getObjectItem, find?_of_none h, map_none]

theorem none_of_getObjectItem {cs : List Child} {n : Name} (h : getObjectItem cs n = none) :
    ∀ c ∈ cs, named n c = false := by
  rw [getObjectItem, map_eq_none_iff, find?_eq_none] at h
  intro c hc
  simpa using h c hc

theorem getObjectItem_updateItem {cs : List Child} {n : Name} {u : Json} (v : Json)
    (h : getObjectItem cs n = some u) : getObjectItem (updateItem cs n v) n = some v := by
  obtain ⟨c, hc, -⟩ := map_eq_some_iff.mp h
  rw [getObjectItem, updateItem, find?_modifyFirst (by simp), hc]
  rfl

theorem deleteItemFromObject_of_none {cs : List Child} {n : Name} (h : ∀ c ∈ cs, named n c = false) :
    deleteItemFromObject cs n = cs :=
  eraseP_of_forall_not fun c hc => by simp [h c hc]

theorem eq_of_fold_digits {n m : Name} (hm : isAllDigits m = true) (h : fold n = fold m) : n = m := by
  have hd : ∀ c ∈ m, 48 ≤ c ∧ c ≤ 57 := by
    simpa [isAllDigits, isDigit] using (Bool.and_eq_true_iff.mp hm).2
  have key : ∀ n m : Name, (∀ c ∈ m, (48 : UInt8) ≤ c ∧ c ≤ 57) → fold n = fold m → n = m := by
    intro n
    induction n with
    | nil =>
      intro m _ h
      cases m with
      | nil => rfl
      | cons b m => simp [fold] at h
    | cons a n ih =>
      intro m hm h
      cases m with
      | nil => simp [fold] at h
      | cons b m =>
        simp only [fold, map_cons, List.cons.injEq] at h
        have hb := hm b mem_cons_self
        have hab : a = b := by
          have := h.1
          unfold toLower at this
          grind
        rw [hab, ih m (fun c hc => hm c (mem_cons_of_mem b hc)) h.2]
  exact key n m hd h

end Spangap.CJson
