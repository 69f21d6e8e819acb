import Mathlib.Data.List.Induction
import Spangap.Persist

namespace Spangap.Detach

open List Function CJson DotPath Persist FirstMatch

/-- The nodes of the tree by their addresses, each with its children. The kind of a node and its
value stay as they are. -/
abbrev Heap := Nat → List (Option Name × Nat)

variable {h : Heap} {root p x : Nat} {s leaf k : Name} {q r E : List Name} {c : Option Name × Nat} {e : External} {es : List External}

/-- A child whose name folds to `k`. -/
def named (k : Name) (c : Option Name × Nat) : Bool := c.1.map fold == some k

def getObjectItem (h : Heap) (x : Nat) (n : Name) : Option (Option Name × Nat) := (h x).find? (named (fold n))

/-- The parent of the leaf and the name of the leaf. -/
def navigateLeaf (h : Heap) : Nat → List Name → Option (Nat × Name)
  | _, [] => none
  | x, s :: ss =>
    if s = [] ∨ 96 ≤ s.length then none
    else if ss = [] then some (x, s)
    else (getObjectItem h x s).bind fun c => navigateLeaf h c.2 ss

structure Saved where
  parent : Nat
  leaf : Name
  item : Nat

def detached (h : Heap) (p : Nat) (leaf : Name) : Heap := update h p ((h p).eraseP (named (fold leaf)))

def addItemToObject (h : Heap) (s : Saved) : Heap := update h s.parent (h s.parent ++ [(some s.leaf, s.item)])

/-- The parent, the leaf and the member that an external leads to. -/
def found (h : Heap) (root : Nat) (e : External) : Option (Nat × Name × Option Name × Nat) :=
  if e.pendingDelete then none
  else (navigateLeaf h root (segments e.pre)).bind fun r => (getObjectItem h r.1 r.2).map fun c => (r.1, r.2, c)

def detachAll (root : Nat) : List External → Heap → Heap × List Saved
  | [], h => (h, [])
  | e :: es, h =>
    match found h root e with
    | none => detachAll root es h
    | some (p, leaf, c) =>
      let r := detachAll root es (detached h p leaf)
      (r.1, ⟨p, leaf, c.2⟩ :: r.2)

/-- The last one saved is attached again first, to the parent it was saved with. -/
def withExternalsDetached {α : Type} (fn : Heap → α) (root : Nat) (es : List External) (h : Heap) : α × Heap :=
  let r := detachAll root es h
  (fn r.1, r.2.foldr (fun s h => addItemToObject h s) r.1)

/-- The node that a path of folded names leads to. -/
def lookup (h : Heap) (x : Nat) (q : List Name) : Option Nat := q.foldlM (fun x k => ((h x).find? (named k)).map Prod.snd) x

/-- The member at a path and a folded name below it. -/
def member (h : Heap) (root : Nat) (q : List Name) (k : Name) : Option (Option Name × Nat) :=
  (lookup h root q).bind fun x => (h x).find? (named k)

def path (e : External) : List Name := (segments e.pre).map fold

/-- Segments that fit the buffer. -/
def Walkable (ss : List Name) : Prop := ∀ s ∈ ss, ¬ (s = [] ∨ 96 ≤ s.length)
  deriving Decidable

def Live (e : External) : Prop := e.pendingDelete = false ∧ Walkable (segments e.pre)
  deriving Decidable

/-- A tree below `root`, with member names that differ up to case. -/
structure Tree (h : Heap) (root : Nat) : Prop where
  names : ∀ x k, (h x).countP (named k) ≤ 1
  once : ∀ x y, ∀ c ∈ h x, ∀ d ∈ h y, c.2 = d.2 → x = y ∧ c = d
  top : ∀ x, ∀ c ∈ h x, c.2 ≠ root

theorem tree_detached (ht : Tree h root) (p : Nat) (leaf : Name) : Tree (detached h p leaf) root := by
  have hsub : ∀ x, detached h p leaf x <+ h x := fun x => by
    rw [detached, update_apply]
    split
    next hx => exact hx ▸ eraseP_sublist
    · rfl
  exact ⟨fun x k => ((hsub x).countP_le).trans (ht.names x k),
    fun x y c hc d hd => ht.once x y c ((hsub x).subset hc) d ((hsub y).subset hd), fun x c hc => ht.top x c ((hsub x).subset hc)⟩

theorem lookup_concat (h : Heap) (x : Nat) (q : List Name) (k : Name) : lookup h x (q ++ [k]) = (member h x q k).map Prod.snd := by
  simp [lookup, member, foldlM_append, Option.map_bind]

theorem parent_of_lookup (hq : lookup h root (q ++ [k]) = some x) :
    ∃ y c, lookup h root q = some y ∧ c ∈ h y ∧ c.1.map fold = some k ∧ c.2 = x := by
  rw [lookup_concat, Option.map_eq_some_iff] at hq
  obtain ⟨c, hc, hx⟩ := hq
  obtain ⟨y, hy, hc⟩ := Option.bind_eq_some_iff.mp hc
  exact ⟨y, c, hy, mem_of_find?_eq_some hc, by simpa [named] using find?_some hc, hx⟩

/-- A node is reached on one path only. -/
theorem path_unique (ht : Tree h root) (hq : lookup h root q = some x) (hr : lookup h root r = some x) : q = r := by
  induction q using reverseRecOn generalizing r x with
  | nil =>
    cases hq
    cases r using reverseRecOn with
    | nil => rfl
    | append_singleton r t =>
      obtain ⟨y, c, -, hc, -, hroot⟩ := parent_of_lookup hr
      exact absurd hroot (ht.top y c hc)
  | append_singleton q s ih =>
    obtain ⟨y, c, hy, hc, hs, rfl⟩ := parent_of_lookup hq
    cases r using reverseRecOn with
    | nil =>
      cases hr
      exact absurd rfl (ht.top y c hc)
    | append_singleton r t =>
      obtain ⟨z, d, hz, hd, ht', hsame⟩ := parent_of_lookup hr
      obtain ⟨rfl, rfl⟩ := ht.once z y d hd c hc hsame
      rw [ih hy hz, Option.some.inj (hs.symm.trans ht')]

section Detach

variable (ht : Tree h root) (hp : lookup h root q = some p)

include ht hp

theorem find_detached (hr : lookup h root r = some x) (k : Name) :
    (detached h p leaf x).find? (named k) = if q ++ [fold leaf] = r ++ [k] then none else (h x).find? (named k) := by
  by_cases hx : x = p
  · subst hx
    cases path_unique ht hp hr
    rw [detached, update_self]
    by_cases hk : fold leaf = k
    · rw [if_pos (by rw [hk]), ← hk]
      exact find?_of_none (none_of_eraseP (ht.names x _))
    · rw [if_neg (by simp [hk])]
      refine find?_eraseP_of_disjoint (fun c hc => ?_) _
      rw [named, beq_iff_eq] at hc
      simp [named, hc, hk]
  · rw [detached, update_of_ne hx, if_neg]
    intro hsame
    obtain ⟨rfl, -⟩ := append_inj' hsame rfl
    exact hx (Option.some.inj (hr.symm.trans hp))

theorem member_of_lookup (hr : lookup (detached h p leaf) root r = if q ++ [fold leaf] <+: r then none else lookup h root r) (k : Name) :
    member (detached h p leaf) root r k = if q ++ [fold leaf] <+: r ++ [k] then none else member h root r k := by
  rw [member, member, hr]
  by_cases hc : q ++ [fold leaf] <+: r
  · simp [hc, List.prefix_concat_iff]
  · cases hx : lookup h root r with
    | none => simp
    | some x => simp [hc, List.prefix_concat_iff, find_detached ht hp hx]

theorem lookup_detached (r : List Name) :
    lookup (detached h p leaf) root r = if q ++ [fold leaf] <+: r then none else lookup h root r := by
  induction r using reverseRecOn with
  | nil => simp [lookup]
  | append_singleton r k ih =>
    rw [lookup_concat, lookup_concat, member_of_lookup ht hp ih]
    split <;> rfl

theorem member_detached (r : List Name) (k : Name) :
    member (detached h p leaf) root r k = if q ++ [fold leaf] <+: r ++ [k] then none else member h root r k :=
  member_of_lookup ht hp (lookup_detached ht hp r) k

end Detach

theorem navigateLeaf_concat (h : Heap) (x : Nat) (q : List Name) (s : Name) : navigateLeaf h x (q ++ [s]) =
    if Walkable (q ++ [s]) then (lookup h x (q.map fold)).map fun p => (p, s) else none := by
  have hcons : ∀ t ss, Walkable (t :: ss) ↔ ¬ (t = [] ∨ 96 ≤ t.length) ∧ Walkable ss := fun _ _ => forall_mem_cons
  induction q generalizing x with
  | nil =>
    have hnil : Walkable [] := forall_mem_nil _
    rw [nil_append, navigateLeaf]
    by_cases hs : s = [] ∨ 96 ≤ s.length <;> simp [hs, hcons, hnil, lookup]
  | cons t q ih =>
    have hstep : lookup h x ((t :: q).map fold) = (getObjectItem h x t).bind fun c => lookup h c.2 (q.map fold) := by
      simp [lookup, getObjectItem, Option.bind_map]
    rw [cons_append, navigateLeaf, if_neg (show q ++ [s] ≠ [] by simp), hstep]
    by_cases ht : t = [] ∨ 96 ≤ t.length
    · simp [ht, hcons]
    · by_cases hwalk : Walkable (q ++ [s]) <;> simp [ht, hcons, hwalk, ih, Option.map_bind]

theorem exists_path (e : External) : ∃ q s, segments e.pre = q ++ [s] ∧ path e = q.map fold ++ [fold s] := by
  obtain ⟨q, s, he⟩ : ∃ q s, segments e.pre = q ++ [s] := ⟨_, _, (dropLast_append_getLast (segments_ne_nil e.pre)).symm⟩
  exact ⟨q, s, he, by rw [path, he, map_append, map_singleton]⟩

/-- An external leads to the member at its path, where the path can be walked. -/
theorem found_eq (h : Heap) (root : Nat) (he : segments e.pre = q ++ [s]) : found h root e =
    if Live e then (lookup h root (q.map fold)).bind fun p => (getObjectItem h p s).map fun c => (p, s, c) else none := by
  rw [found, he, navigateLeaf_concat]
  by_cases hd : e.pendingDelete = true
  · simp [hd, Live]
  · by_cases hwalk : Walkable (q ++ [s]) <;> simp [hd, hwalk, Live, he, Option.bind_map]

theorem found_some (hf : found h root e = some (p, leaf, c)) : ∃ q, path e = q ++ [fold leaf] ∧ (segments e.pre).getLast? = some leaf ∧
    Live e ∧ lookup h root q = some p ∧ getObjectItem h p leaf = some c := by
  obtain ⟨q, s, he, hpath⟩ := exists_path e
  rw [found_eq h root he] at hf
  split at hf
  next hlive =>
    obtain ⟨y, hy, hf⟩ := Option.bind_eq_some_iff.mp hf
    obtain ⟨d, hd, hf⟩ := Option.map_eq_some_iff.mp hf
    cases hf
    exact ⟨_, hpath, by rw [he, getLast?_concat], hlive, hy, hd⟩
  · cases hf

/-- Nothing lies at or below a live external that leads nowhere. -/
theorem found_none (hf : found h root e = none) (hlive : Live e) (hcover : path e <+: r ++ [k]) : member h root r k = none := by
  obtain ⟨q, s, he, hpath⟩ := exists_path e
  obtain ⟨u, hu⟩ := hcover
  have hnone : member h root (q.map fold) (fold s) = none := by
    rw [found_eq h root he, if_pos hlive] at hf
    rw [member]
    cases hy : lookup h root (q.map fold) <;> simp_all [getObjectItem]
  have hall : lookup h root (r ++ [k]) = none := by
    rw [← hu, lookup, foldlM_append, ← lookup, hpath, lookup_concat, hnone]
    rfl
  rwa [lookup_concat, Option.map_eq_none_iff] at hall

/-- What `fn` sees: everything but what lies at or below a live external. -/
theorem member_detachAll (ht : Tree h root) (r : List Name) (k : Name) : member (detachAll root es h).1 root r k =
    if ∃ e ∈ es, Live e ∧ path e <+: r ++ [k] then none else member h root r k := by
  induction es generalizing h with
  | nil => simp [detachAll]
  | cons e es ih =>
    rw [detachAll]
    cases hf : found h root e with
    | none =>
      rw [ih ht]
      by_cases hcover : Live e ∧ path e <+: r ++ [k]
      · simp [found_none hf hcover.1 hcover.2]
      · simp [hcover]
    | some f =>
      obtain ⟨p, leaf, c⟩ := f
      obtain ⟨q, hpath, -, hlive, hp, -⟩ := found_some hf
      dsimp only
      rw [ih (tree_detached ht p leaf), member_detached ht hp, ← hpath]
      by_cases hcover : path e <+: r ++ [k]
      · simp [hcover, hlive]
      · simp [hcover]

/-- The live externals that no earlier one lies at or above. -/
def uncovered : List External → List External
  | [] => []
  | e :: es => if Live e then e :: (uncovered es).filter fun e' => ¬ path e <+: path e' else uncovered es

/-- The member an external leads to has exactly the name that the external gives it. -/
def Spells (root : Nat) (h : Heap) (e : External) : Prop :=
  ∀ c ∈ member h root (path e).dropLast ((path e).getLastD []), c.1 = (segments e.pre).getLast?
  deriving Decidable

theorem spells_iff (hpath : path e = q ++ [k]) : Spells root h e ↔ ∀ c ∈ member h root q k, c.1 = (segments e.pre).getLast? := by
  rw [Spells, hpath, dropLast_concat, getLastD_concat]

theorem spelled_of_none (hf : found h root e = none) :
    (∀ e' ∈ uncovered (e :: es), Spells root h e') ↔ ∀ e' ∈ uncovered es, Spells root h e' := by
  rw [uncovered]
  split
  next hlive =>
    have hbelow : ∀ e', path e <+: path e' → Spells root h e' := fun e' hcover => by
      obtain ⟨q, s, -, hpath⟩ := exists_path e'
      rw [hpath] at hcover
      simp [spells_iff hpath, found_none hf hlive hcover]
    simp only [forall_mem_cons, mem_filter, decide_eq_true_eq]
    refine ⟨fun hsp e' he' => ?_, fun hsp => ⟨hbelow e (prefix_refl _), fun e' he' => hsp e' he'.1⟩⟩
    by_cases hcover : path e <+: path e'
    · exact hbelow e' hcover
    · exact hsp.2 e' ⟨he', hcover⟩
  · rfl

theorem spelled_of_some (ht : Tree h root) (hf : found h root e = some (p, leaf, c)) :
    (∀ e' ∈ uncovered (e :: es), Spells root h e') ↔
      c.1 = some leaf ∧ ∀ e' ∈ uncovered es, Spells root (detached h p leaf) e' := by
  obtain ⟨q, hpath, hlast, hlive, hp, hitem⟩ := found_some hf
  have hmember : member h root q (fold leaf) = some c := by rw [member, hp, Option.bind_some, ← hitem, getObjectItem]
  have hself : Spells root h e ↔ c.1 = some leaf := by simp [spells_iff hpath, hmember, hlast]
  have hother : ∀ e', Spells root (detached h p leaf) e' ↔ (¬ path e <+: path e' → Spells root h e') := by
    intro e'
    obtain ⟨r, s, -, hpath'⟩ := exists_path e'
    rw [spells_iff hpath', spells_iff hpath', member_detached ht hp, ← hpath, ← hpath']
    by_cases hcover : path e <+: path e' <;> simp [hcover]
  rw [uncovered, if_pos hlive, forall_mem_cons, hself]
  simp [hother]

theorem perm_detached (hc : getObjectItem h p leaf = some c) : h p ~ c :: detached h p leaf p := by
  obtain ⟨hnamed, as, bs, hh, has⟩ := find?_eq_some_iff_append.mp hc
  rw [detached, update_self, hh, eraseP_append_right _ (by simpa using has), eraseP_cons_of_pos hnamed]
  exact perm_middle

/-- Attaching again undoes one step exactly where the name is kept. -/
theorem perm_addItem (ht : Tree h root) (hc : getObjectItem h p leaf = some c) (A : Heap) :
    (∀ x, addItemToObject A ⟨p, leaf, c.2⟩ x ~ h x) ↔ c.1 = some leaf ∧ ∀ x, A x ~ detached h p leaf x := by
  have hother : ∀ x ≠ p, (addItemToObject A ⟨p, leaf, c.2⟩ x ~ h x ↔ A x ~ detached h p leaf x) := fun x hx => by
    rw [addItemToObject, detached, update_of_ne hx, update_of_ne hx]
  have hname : addItemToObject A ⟨p, leaf, c.2⟩ p ~ h p → c.1 = some leaf := fun hperm => by
    have hmem : (some leaf, c.2) ∈ h p := hperm.subset (by simp [addItemToObject])
    exact congrArg Prod.fst (ht.once p p c (mem_of_find?_eq_some hc) _ hmem rfl).2
  have hself : c.1 = some leaf → (addItemToObject A ⟨p, leaf, c.2⟩ p ~ h p ↔ A p ~ detached h p leaf p) := fun hname => by
    have hsame : (some leaf, c.2) = c := Prod.ext hname.symm rfl
    rw [addItemToObject, update_self, hsame, (perm_detached hc).congr_right, (perm_append_singleton c (A p)).congr_left]
    exact perm_cons c
  have hall : c.1 = some leaf → ∀ x, (addItemToObject A ⟨p, leaf, c.2⟩ x ~ h x ↔ A x ~ detached h p leaf x) := fun hname x => by
    by_cases hx : x = p
    · exact hx ▸ hself hname
    · exact hother x hx
  exact ⟨fun hperm => ⟨hname (hperm p), fun x => (hall (hname (hperm p)) x).mp (hperm x)⟩, fun hperm x => (hall hperm.1 x).mpr (hperm.2 x)⟩

theorem perm_reattached (ht : Tree h root) :
    (∀ x, (detachAll root es h).2.foldr (fun s h => addItemToObject h s) (detachAll root es h).1 x ~ h x) ↔
      ∀ e ∈ uncovered es, Spells root h e := by
  induction es generalizing h with
  | nil => simp [detachAll, uncovered]
  | cons e es ih =>
    rw [detachAll]
    cases hf : found h root e with
    | none => exact (ih ht).trans (spelled_of_none hf).symm
    | some f =>
      obtain ⟨p, leaf, c⟩ := f
      obtain ⟨-, -, -, -, -, hitem⟩ := found_some hf
      rw [spelled_of_some ht hf, ← ih (tree_detached ht p leaf)]
      exact perm_addItem ht hitem _

/-- `{"s": {"A": …}}` -/
def small : Heap
  | 0 => [(some (lit "s"), 1)]
  | 1 => [(some (lit "A"), 2)]
  | _ => []

theorem tree_small : Tree small 0 where
  names x k := countP_le_length.trans (by rcases x with - | - | x <;> simp [small])
  once x y c hc d hd hcd := by
    rcases x with - | - | x <;> rcases y with - | - | y <;> simp_all [small]
  top x c hc := by rcases x with - | - | x <;> simp_all [small]

end Spangap.Detach
