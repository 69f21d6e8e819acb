import Spangap.Browser
import Spangap.FieldValues
import Spangap.MergePatch
import Spangap.Reboot
import Mathlib.Data.List.Induction

namespace Spangap.Mirror

open List Option CJson FirstMatch DotPath Merge Commit Browser FieldValues View Attach MergePatch Bool

variable {V : Vocabulary} {v x : Json} {f : List Name → Json} {ks : List (List Name)}

section LastTouch

variable {α : Type} [DecidableEq α] {ks : List (List α)} {k k' r q : List α}

def Touches (q k : List α) : Prop := k <+: q ∨ q <+: k

instance (q k : List α) : Decidable (Touches q k) := inferInstanceAs (Decidable (_ ∨ _))

def lastTouch (ks : List (List α)) (q : List α) : Option (List α) := ks.reverse.find? fun k => Touches q k

theorem lastTouch_concat (ks : List (List α)) (k q : List α) :
    lastTouch (ks ++ [k]) q = if Touches q k then some k else lastTouch ks q := by
  rw [lastTouch, reverse_append, reverse_singleton, singleton_append, find?_cons]
  split <;> simp_all [lastTouch]

theorem mem_of_lastTouch (h : lastTouch ks q = some k) : k ∈ ks :=
  mem_reverse.mp (mem_of_find?_eq_some h)

theorem not_touches_of_lastTouch (h : lastTouch ks q = none) (hk : k ∈ ks) : ¬ Touches q k := by
  have hnone := find?_eq_none.mp h k (mem_reverse.mpr hk)
  simpa using hnone

theorem find?_eq_of_both {β : Type} {l : List β} {p p' : β → Bool} {a b : β} (ha : l.find? p = some a)
    (hb : l.find? p' = some b) (hpa : p' a = true) (hpb : p b = true) : a = b := by
  induction l with
  | nil => cases ha
  | cons c l ih =>
    rw [find?_cons] at ha hb
    cases hc : p c with
    | true =>
      rw [hc] at ha
      cases ha
      rw [hpa] at hb
      exact some_inj.mp hb
    | false =>
      rw [hc] at ha
      cases hc' : p' c with
      | true =>
        rw [hc'] at hb
        cases hb
        rw [hpb] at hc
        cases hc
      | false =>
        rw [hc'] at hb
        exact ih ha hb

theorem lastTouch_between (h : lastTouch ks q = some k) (hkr : k <+: r) (hrq : r <+: q) :
    lastTouch ks r = some k ∨ ∃ k', lastTouch ks r = some k' ∧ ¬ k' <+: r := by
  cases hr : lastTouch ks r with
  | none => exact absurd (.inl hkr) (not_touches_of_lastTouch hr (mem_of_lastTouch h))
  | some k' =>
    by_cases hk' : k' <+: r
    · left
      have hq : Touches q k' := .inl (hk'.trans hrq)
      have hk : Touches r k := .inl hkr
      rw [find?_eq_of_both hr h (by simpa using hq) (by simpa using hk)]
    · exact .inr ⟨k', rfl, hk'⟩

end LastTouch

mutual
def changesAt (path : Name) : Json → List Name
  | .obj cs => collectChanges path 0 cs
  | .arr _ => [path]
  | .scalar (.bool _) => []
  | .scalar _ => [path]

/-- The leaves of a patch, up to the 128 bytes of the path buffer. -/
def collectChanges (path : Name) (idx : Nat) : List (Option Name × Json) → List Name
  | [] => []
  | (n, v) :: cs =>
    (if 128 ≤ (extend path (n.getD (decimal idx))).length then [] else changesAt (extend path (n.getD (decimal idx))) v) ++
      collectChanges path (idx + 1) cs
end

/-- `dcDirtyKeys`, each key once, and `dcMirrorLost`. -/
structure Dirty where
  keys : List Name
  mirrorLost : Bool

def dcAccumulateChange (d : Dirty) (key : Name) : Dirty :=
  if isSecret key then d
  else if d.mirrorLost then d
  else if 4096 ≤ d.keys.length then ⟨[], true⟩
  else if key ∈ d.keys then d
  else { d with keys := d.keys ++ [key] }

/-- The committed tree and what the browser has not been told of it. -/
structure Sys where
  tree : List Child
  dirty : Dirty

structure OpList where
  silent : Bool
  ops : List Op

/-- A committed op list with a browser connected. Its changes are noted for the
browser unless it is silent. -/
def storageApplyOps (pats : List (List Name)) (s : Sys) (l : OpList) : Sys :=
  let patch := buildPatch pats (.obj s.tree) l.ops
  ⟨deepMerge s.tree patch,
    if l.silent then s.dirty else (collectChanges [] 0 patch).foldl dcAccumulateChange s.dirty⟩

/-- The op lists since a flush that left nothing to tell. -/
def commits (pats : List (List Name)) (old : List Child) (ls : List OpList) : Sys :=
  ls.foldl (storageApplyOps pats) ⟨old, ⟨[], false⟩⟩

/-- The node sent for a key: what the record stores give for a key of theirs, and
else the node of the tree, or a null. -/
def dcResolveKey (pats : List (List Name)) (stored : Name → Option Json) (tree : List Child) (key : Name) :
    Option Json :=
  if (sdbRoute pats key).isSome then stored key else some ((navigatePath (.obj tree) key).getD .null)

def placeKey (pats : List (List Name)) (stored : Name → Option Json) (tree patch : List Child) (key : Name) :
    List Child :=
  match dcResolveKey pats stored tree key with
  | none => patch
  | some v => navigateOrCreate (putLeaf v) (segments key) patch

/-- The largest message of the link and the room it has now. -/
structure Link where
  maxMsg : Nat
  room : Nat

def Link.Takes (k : Link) (len : Nat) : Prop := k.room ≠ 0 ∧ len ≤ k.maxMsg ∧ len ≤ k.room

instance (k : Link) (len : Nat) : Decidable (k.Takes len) := inferInstanceAs (Decidable (_ ∧ _))

/-- The messages of a flush that goes through the dirty keys in the order `ks`,
as the browser parses them. `len` is the length of a printed patch. -/
def dcFlushPatch (pats : List (List Name)) (stored : Name → Option Json) (len : List Child → Nat) (link : Link)
    (s : Sys) (ks : List Name) : List (List Child) :=
  let patch := ks.foldl (placeKey pats stored s.tree) []
  if s.dirty.mirrorLost = false ∧ link.Takes (len patch) ∧ patch.isEmpty = false then [printedMembers patch] else []

/-- A browser that has the tree, which it never gets the secrets of. -/
def mirrorOf (tree : List Child) : List Child := printedMembers (deleteItemFromObject tree (lit "secrets"))

def merged (mirror : List Child) (messages : List (List Child)) : List Child := messages.foldl mergeMembers mirror

/-- The paths on which a mirror is compared: those that do not lead into the secrets. -/
def Compared (V : Vocabulary) (q : List Name) : Prop := Spelled V q ∧ q.head? ≠ some (lit "secrets")

/-- The mirror has the tree: the same object or the same value wherever a path leads. -/
def Mirrors (V : Vocabulary) (mirror tree : List Child) : Prop :=
  Tidy V (.obj mirror) ∧ ∀ q, Compared V q → view (.obj mirror) q = view (printed (.obj tree)) q

section Placed

variable {P T : List Child} {k q r : List Name} {w w' : Option (Option Json)}

instance (P : List Child) (k : List Name) : Decidable (Open P k) :=
  decidable_of_iff (∀ r ∈ k.inits, r ≠ k → (valueAt (.obj P) r).all (fun v => !v.isArr) = true) <| by
    simp only [mem_inits, Open]
    refine forall₃_congr fun r _ _ => ?_
    rcases valueAt (.obj P) r with - | x | es | cs <;> simp [Json.isArr]

def place (f : List Name → Json) (P : List Child) (k : List Name) : List Child := navigateOrCreate (putLeaf (f k)) k P

def placed (f : List Name → Json) (ks : List (List Name)) : List Child := ks.foldl (place f) []

/-- The keys that lead below no array of the patch when their turn comes. Any
other key changes that array only. -/
def counted (f : List Name → Json) (P : List Child) : List (List Name) → List (List Name)
  | [] => []
  | k :: ks => if Open P k then k :: counted f (place f P k) ks else counted f (place f P k) ks

theorem counted_concat (f : List Name → Json) (P : List Child) (ks : List (List Name)) (k : List Name) :
    counted f P (ks ++ [k]) = counted f P ks ++ if Open (ks.foldl (place f) P) k then [k] else [] := by
  induction ks generalizing P with
  | nil => rfl
  | cons k' ks ih =>
    rw [cons_append, counted, counted, ih, foldl_cons]
    split <;> rfl

theorem counted_sublist (f : List Name → Json) (P : List Child) (ks : List (List Name)) : (counted f P ks).Sublist ks := by
  induction ks generalizing P with
  | nil => exact List.Sublist.refl []
  | cons k ks ih =>
    rw [counted]
    split
    · exact (ih _).cons_cons k
    · exact (ih _).cons k

def leftAt (f : List Name → Json) (q : List Name) : Option (List Name) → Option (Option Json)
  | none => if q = [] then some none else none
  | some k => if k <+: q then view (f k) (q.drop k.length) else some none

/-- A key leads below the path. -/
def Entered (ks : List (List Name)) (q : List Name) : Prop := ∃ k ∈ ks, q <+: k ∧ q ≠ k

/-- The same is found, but for the elements of an array that a key leads into. -/
def Alike (ks : List (List Name)) (q : List Name) (w w' : Option (Option Json)) : Prop :=
  w = w' ∨ Entered ks q ∧ (∃ es, w = some (some (.arr es))) ∧ ∃ es, w' = some (some (.arr es))

theorem Alike.concat (h : Alike ks q w w') (k : List Name) : Alike (ks ++ [k]) q w w' := by
  rcases h with h | ⟨⟨k', hk', hq⟩, h⟩
  · exact .inl h
  · exact .inr ⟨⟨k', mem_append_left _ hk', hq⟩, h⟩

theorem Alike.eq (h : Alike ks q w w') (hw : ∀ es, w' ≠ some (some (.arr es))) : w = w' := by
  rcases h with h | ⟨-, -, es, hes⟩
  · exact h
  · exact absurd hes (hw es)

theorem alike_printed (h : Alike ks q w w') : Alike ks q (w.map (Option.map printed)) (w'.map (Option.map printed)) := by
  rcases h with rfl | ⟨hq, ⟨es, rfl⟩, es', rfl⟩
  · exact .inl rfl
  · refine .inr ⟨hq, ?_, ?_⟩ <;> simp [printed]

theorem placed_spec (hks : ∀ k ∈ ks, Spelled V k ∧ k ≠ [] ∧ Tidy V (f k)) :
    Tidy V (.obj (placed f ks)) ∧ ∀ q, Spelled V q →
      Alike ks q (view (.obj (placed f ks)) q) (leftAt f q (lastTouch (counted f [] ks) q)) := by
  induction ks using List.reverseRecOn with
  | nil =>
    refine ⟨tidy_nil, fun q _ => .inl ?_⟩
    cases q <;> rfl
  | append_singleton ks k ih =>
    obtain ⟨hsp, hne, hval⟩ := hks k (by simp)
    obtain ⟨htidy, hview⟩ := ih fun k hk => hks k (mem_append_left _ hk)
    rw [placed, foldl_append, foldl_cons, foldl_nil, counted_concat, ← placed, place]
    refine ⟨tidy_write htidy hsp hval, fun q hq => ?_⟩
    by_cases hopen : Open (placed f ks) k
    · rw [if_pos hopen, view_write htidy hsp hne hopen hq, lastTouch_concat]
      by_cases h1 : k <+: q
      · rw [if_pos h1, if_pos (.inl h1), leftAt, if_pos h1]
        exact .inl rfl
      · rw [if_neg h1]
        by_cases h2 : q <+: k
        · rw [if_pos h2, if_pos (.inr h2), leftAt, if_neg h1]
          exact .inl rfl
        · rw [if_neg h2, if_neg (show ¬ Touches q k from not_or_intro h1 h2)]
          exact (hview q hq).concat k
    · rw [if_neg hopen, append_nil]
      unfold Open at hopen
      push Not at hopen
      obtain ⟨r, hr, hrk, es, hes⟩ := hopen
      rcases view_write_shut (v := f k) htidy hsp hne hr hrk hes hq with heq | ⟨hqk, ⟨es, hnew⟩, es', hbefore⟩
      · rw [heq]
        exact (hview q hq).concat k
      · -- the array that the key leads into was left by a key that counts
        refine .inr ⟨⟨k, by simp, hqk⟩, ⟨es, hnew⟩, ?_⟩
        rcases hview q hq with heq | ⟨-, -, hleft⟩
        · exact ⟨es', heq ▸ hbefore⟩
        · exact hleft

end Placed

section Found

variable {P T : List Child} {k q r : List Name}

/-- What a lookup in the current tree gives for a key, or a null. -/
def found (T : List Child) (k : List Name) : Json := (navigate (.obj T) k).getD .null

theorem view_eq_none_iff : view v k = none ↔ node v k = none := by
  rw [view, map_eq_none_iff]

theorem view_found (hk : Spelled V k) (ho : Open T k) (h : view (.obj T) k ≠ none) (hkq : k <+: q) :
    view (found T k) (q.drop k.length) = view (.obj T) q := by
  obtain ⟨t, rfl⟩ := hkq
  obtain ⟨w, hw⟩ := ne_none_iff_exists'.mp (mt view_eq_none_iff.mpr h)
  rw [found, navigate_of_open hk ho, hw, drop_left, view_append, hw]
  rfl

theorem found_absent (hk : Spelled V k) (ho : Open T k) (h : view (.obj T) k = none) : found T k = .null := by
  rw [found, navigate_of_open hk ho, view_eq_none_iff.mp h]
  rfl

theorem view_none_mono (h : view v r = none) (hrq : r <+: q) : view v q = none := by
  obtain ⟨t, rfl⟩ := hrq
  rw [view_append, view_eq_none_iff.mp h]
  rfl

theorem no_value_above (h : view v q = some none) (hrq : r <+: q) : valueAt v r = none := by
  obtain ⟨t, rfl⟩ := hrq
  cases hv : valueAt v r with
  | none => rfl
  | some x =>
    by_cases ht : t = []
    · rw [ht, append_nil] at h
      rw [valueAt, h] at hv
      cases hv
    · rw [view_append_of_valueAt hv ht] at h
      cases h

theorem view_of_valueAt (h : valueAt v q = some x) : view v q = some (some x) := by
  rw [valueAt] at h
  exact join_eq_some_iff.mp h

theorem node_of_valueAt (h : valueAt v q = some x) : node v q = some x := by
  obtain ⟨w, hw, hshape⟩ := map_eq_some_iff.mp (view_of_valueAt h)
  rw [shape] at hshape
  split at hshape
  · cases hshape
  · cases hshape
    exact hw

theorem prefix_dropLast (h : r <+: q) (hne : r ≠ q) : r <+: q.dropLast := by
  obtain ⟨t, rfl⟩ := h
  have ht : t ≠ [] := by
    rintro rfl
    simp at hne
  rw [dropLast_append_of_ne_nil ht]
  exact prefix_append r _

theorem first_absent (hk : view v k ≠ none) (hq : view v q = none) (hkq : k <+: q) :
    ∃ r s, k <+: r ∧ r ++ [s] <+: q ∧ view v r ≠ none ∧ view v (r ++ [s]) = none := by
  obtain ⟨t, rfl⟩ := hkq
  induction t generalizing k with
  | nil =>
    rw [append_nil] at hq
    exact absurd hq hk
  | cons s t ih =>
    have hassoc : k ++ s :: t = (k ++ [s]) ++ t := by simp
    by_cases hs : view v (k ++ [s]) = none
    · exact ⟨k, s, prefix_rfl, hassoc ▸ prefix_append _ _, hk, hs⟩
    · rw [hassoc] at hq ⊢
      obtain ⟨r, s', hkr, hrest⟩ := ih hs hq
      exact ⟨r, s', (prefix_append k [s]).trans hkr, hrest⟩

end Found

section Exact

variable {old T M P : List Child} {k q r : List Name}

theorem Compared.mono (h : Compared V q) (hr : r <+: q) : Compared V r := by
  refine ⟨h.1.mono hr, ?_⟩
  cases r with
  | nil => simp
  | cons s r =>
    obtain ⟨t, rfl⟩ := hr
    exact h.2

theorem printed_obj_iff : view (printed v) q = some none ↔ view v q = some none := by
  rw [view_printed]
  rcases view v q with - | - | x <;> simp

theorem printed_none_iff : view (printed v) q = none ↔ view v q = none := by
  rw [view_printed, map_eq_none_iff]

theorem printed_eq_null : printed v = .null ↔ v = .null := by
  cases v with
  | scalar x => rw [printed]
  | arr cs => simp [printed, Json.null]
  | obj cs => simp [printed, Json.null]

theorem printed_null_iff : view (printed v) q = some (some .null) ↔ view v q = some (some .null) := by
  rw [view_printed]
  rcases view v q with - | - | x <;> simp [printed_eq_null]

theorem isNull_iff : v.isNull = true ↔ v = .null := by
  rcases v with (- | b | n | s) | cs | cs <;> simp [Json.isNull, Json.null]

/-- A path on which the patch brings the mirror of the old tree to the current
one, by the last dirty key that touches it. -/
structure Right (old T : List Child) (ks : List (List Name)) (q : List Name) : Prop where
  untouched : lastTouch ks q = none → view (printed (.obj old)) q = view (printed (.obj T)) q
  above : ∀ k, lastTouch ks q = some k → ¬ k <+: q → view (.obj T) q = some none
  below : ∀ k, lastTouch ks q = some k → k <+: q → view (.obj T) q ≠ some (some .null) ∧
    (k ≠ q → view (.obj T) q = none → view (.obj T) q.dropLast = some none → view (.obj old) q = none)

/-- The patch message of the dirty keys, as the browser gets it. -/
structure Message (V : Vocabulary) (T : List Child) (ks cs : List (List Name)) (P : List Child) : Prop where
  tidy : Tidy V (.obj P)
  spelled : ∀ k ∈ cs, Spelled V k
  left : ∀ q, Spelled V q →
    Alike ks q (view (.obj P) q) ((leftAt (found T) q (lastTouch cs q)).map (Option.map printed))

/-- An array of the message that dirty keys lead into has the text of the tree's. -/
def ArraysKept (V : Vocabulary) (T : List Child) (ks : List (List Name)) (P : List Child) : Prop :=
  ∀ q es, Compared V q → Entered ks q → valueAt (.obj P) q = some (.arr es) →
    valueAt (printed (.obj T)) q = some (.arr es)

theorem open_of_above {cs : List (List Name)}
    (habove : ∀ q, Compared V q → ∀ k, lastTouch cs q = some k → ¬ k <+: q → view (.obj T) q = some none)
    (hq : Compared V q) (h : lastTouch cs q = some k) (hkq : k <+: q) : Open T k := by
  intro a hak hne es hes
  cases ha : lastTouch cs a with
  | none => exact not_touches_of_lastTouch ha (mem_of_lastTouch h) (.inr hak)
  | some k' =>
    by_cases hk' : k' <+: a
    · -- both keys touch both paths, so they are one key, and it does not lie above itself
      have ht : Touches a k := .inr hak
      have ht' : Touches q k' := .inl ((hk'.trans hak).trans hkq)
      obtain rfl := find?_eq_of_both ha h (by simpa using ht') (by simpa using ht)
      exact hne (hak.eq_of_length_le hk'.length_le)
    · have hobj := habove a (hq.mono (hak.trans hkq)) k' ha hk'
      rw [valueAt, hobj] at hes
      cases hes

section Message

variable {cs : List (List Name)} (hP : Message V T ks cs P)

include hP

theorem Message.view_untouched (hq : Spelled V q) (h : lastTouch cs q = none) :
    view (.obj P) q = if q = [] then some none else none := by
  have hleft := hP.left q hq
  rw [h, leftAt] at hleft
  split at hleft
  next hnil =>
    rw [if_pos hnil]
    exact hleft.eq nofun
  next hnil =>
    rw [if_neg hnil]
    exact hleft.eq nofun

theorem Message.view_above (hq : Spelled V q) (h : lastTouch cs q = some k) (hkq : ¬ k <+: q) :
    view (.obj P) q = some none := by
  have hleft := hP.left q hq
  rw [h, leftAt, if_neg hkq] at hleft
  exact hleft.eq nofun

theorem Message.view_below (harr : ArraysKept V T ks P) (hq : Compared V q) (h : lastTouch cs q = some k)
    (hkq : k <+: q) (ho : Open T k) (hpresent : view (.obj T) k ≠ none) :
    view (.obj P) q = view (printed (.obj T)) q := by
  have hleft := hP.left q hq.1
  rw [h, leftAt, if_pos hkq, view_found (hP.spelled k (mem_of_lastTouch h)) ho hpresent hkq, ← view_printed] at hleft
  rcases hleft with heq | ⟨hentered, ⟨es, hes⟩, -⟩
  · exact heq
  · rw [hes, view_of_valueAt (harr q es hq hentered (by rw [valueAt, hes]; rfl))]

theorem Message.view_absent (hq : Spelled V q) (h : lastTouch cs q = some k) (hkq : k <+: q) (ho : Open T k)
    (habsent : view (.obj T) k = none) : view (.obj P) q = if q = k then some (some .null) else none := by
  have hleft := hP.left q hq
  rw [h, leftAt, if_pos hkq, found_absent (hP.spelled k (mem_of_lastTouch h)) ho habsent] at hleft
  obtain ⟨t, rfl⟩ := hkq
  rw [drop_left] at hleft
  cases t with
  | nil =>
    rw [append_nil] at hleft ⊢
    rw [if_pos rfl]
    exact hleft.eq nofun
  | cons s t =>
    rw [if_neg (by simp)]
    exact hleft.eq nofun

theorem Message.key_of_value (hq : Spelled V q) (h : valueAt (.obj P) q = some v) :
    ∃ k, lastTouch cs q = some k ∧ k <+: q := by
  cases hl : lastTouch cs q with
  | none =>
    rw [valueAt, hP.view_untouched hq hl] at h
    split at h <;> cases h
  | some k =>
    by_cases hkq : k <+: q
    · exact ⟨k, rfl, hkq⟩
    · rw [valueAt, hP.view_above hq hl hkq] at h
      cases h

theorem Message.way_untouched (hq : Spelled V q) (h : lastTouch cs q = none) (hr : r <+: q) : valueAt (.obj P) r = none := by
  cases hv : valueAt (.obj P) r with
  | none => rfl
  | some x =>
    obtain ⟨k, hk, hkr⟩ := hP.key_of_value (hq.mono hr) hv
    exact absurd (.inl (hkr.trans hr)) (not_touches_of_lastTouch h (mem_of_lastTouch hk))

section Mirrored

variable (hM : Tidy V (.obj M)) (h : ∀ q, Compared V q → view (.obj (mergeMembers M P)) q = view (printed (.obj T)) q)

include hM h

theorem arraysKept_of_mirrors : ArraysKept V T ks P := by
  intro q es hq _ hes
  have hmerged := view_mergeMembers_value hM hP.tidy hq.1 hes []
  rw [append_nil, h q hq] at hmerged
  rw [valueAt, hmerged]
  rfl

theorem above_of_mirrors (hq : Compared V q) (hk : lastTouch cs q = some k) (hkq : ¬ k <+: q) : view (.obj T) q = some none := by
  have hobj := hP.view_above hq.1 hk hkq
  rw [← printed_obj_iff, ← h q hq, view_mergeMembers hM hP.tidy hq.1 fun r hr => no_value_above hobj hr, hobj]
  rfl

theorem not_null_of_mirrors (hq : Compared V q) (hk : lastTouch cs q = some k) (hkq : k <+: q) :
    view (.obj T) q ≠ some (some .null) := by
  intro hnull
  have ho := open_of_above (fun q hq k => above_of_mirrors hP hM h hq) hq hk hkq
  have hpresent : view (.obj T) k ≠ none := by
    intro hk'
    rw [view_none_mono hk' hkq] at hnull
    cases hnull
  have hvalue := hP.view_below (arraysKept_of_mirrors hP hM h) hq hk hkq ho hpresent
  rw [printed_null_iff.mpr hnull] at hvalue
  have hgone := view_mergeMembers_value hM hP.tidy hq.1 (v := .null) (by rw [valueAt, hvalue]; rfl) []
  rw [append_nil, h q hq, printed_null_iff.mpr hnull] at hgone
  cases hgone

variable (hold : ∀ q, Compared V q → view (.obj M) q = view (printed (.obj old)) q)

include hold

theorem untouched_of_mirrors (hq : Compared V q) (hnone : lastTouch cs q = none) :
    view (printed (.obj old)) q = view (printed (.obj T)) q := by
  rw [← h q hq, ← hold q hq, view_mergeMembers hM hP.tidy hq.1 fun r hr => hP.way_untouched hq.1 hnone hr,
    hP.view_untouched hq.1 hnone]
  by_cases hnil : q = []
  · subst hnil
    rfl
  · rw [if_neg hnil]
    rfl

/-- What is missing in an object of the patch stays in the mirror. -/
theorem absent_of_mirrors (hq : Compared V q) (hk : lastTouch cs q = some k) (hkq : k <+: q) (hne : k ≠ q)
    (hnone : view (.obj T) q = none) (hparent : view (.obj T) q.dropLast = some none) : view (.obj old) q = none := by
  have harr : ArraysKept V T ks P := arraysKept_of_mirrors hP hM h
  have ho := open_of_above (fun q hq k => above_of_mirrors hP hM h hq) hq hk hkq
  have hkp := prefix_dropLast hkq hne
  have hpq : q.dropLast <+: q := dropLast_prefix q
  have hpresent : view (.obj T) k ≠ none := by
    intro hk'
    rw [view_none_mono hk' hkp] at hparent
    cases hparent
  have hobj : view (.obj P) q.dropLast = some none := by
    rcases lastTouch_between hk hkp hpq with hl | ⟨k', hl, hk'⟩
    · rw [hP.view_below harr (hq.mono hpq) hl hkp ho hpresent, printed_obj_iff.mpr hparent]
    · exact hP.view_above (hq.1.mono hpq) hl hk'
  have hempty : view (.obj P) q = none := by
    rw [hP.view_below harr hq hk hkq ho hpresent, printed_none_iff.mpr hnone]
  have hway : ∀ r, r <+: q → valueAt (.obj P) r = none := by
    intro r hr
    by_cases hrq : r = q
    · rw [hrq, valueAt, hempty]
      rfl
    · exact no_value_above hobj (prefix_dropLast hr hrq)
  have hkept := h q hq
  rw [view_mergeMembers hM hP.tidy hq.1 hway, hempty, hold q hq, printed_none_iff.mpr hnone] at hkept
  exact printed_none_iff.mp hkept

theorem right_of_mirrors (hq : Compared V q) : Right old T cs q where
  untouched := untouched_of_mirrors hP hM h hold hq
  above _ := above_of_mirrors hP hM h hq
  below _ hk hkq := ⟨not_null_of_mirrors hP hM h hq hk hkq, absent_of_mirrors hP hM h hold hq hk hkq⟩

end Mirrored

section Told

variable (h : ∀ q, Compared V q → Right old T cs q) (harr : ArraysKept V T ks P)

include h

omit hP in
theorem open_of_right (hr : Compared V r) (hk : lastTouch cs r = some k) (hkr : k <+: r) : Open T k :=
  open_of_above (fun q hq => (h q hq).above) hr hk hkr

/-- Where no value of the patch is on the way, the last key names something. -/
theorem present_of_way (hway : ∀ r, r <+: q → valueAt (.obj P) r = none) (hq : Compared V q) (hl : lastTouch cs q = some k)
    (hkq : k <+: q) : view (.obj T) k ≠ none := by
  intro hk
  rcases lastTouch_between hl prefix_rfl hkq with hlk | ⟨k', hlk, hk'⟩
  · have hnull := hP.view_absent (hq.1.mono hkq) hlk prefix_rfl (open_of_right h hq hl hkq) hk
    rw [if_pos rfl] at hnull
    have hval := hway k hkq
    rw [valueAt, hnull] at hval
    cases hval
  · rw [(h k (hq.mono hkq)).above k' hlk hk'] at hk
    cases hk

include harr

/-- What the tree does not have below the key was not there before: the first
absent path on the way has an object above it, in the patch too. -/
theorem absent_before (hway : ∀ r, r <+: q → valueAt (.obj P) r = none) (hq : Compared V q) (hl : lastTouch cs q = some k)
    (hkq : k <+: q) (hnone : view (.obj T) q = none) : view (.obj old) q = none := by
  have hpresent := present_of_way hP h hway hq hl hkq
  obtain ⟨r, s, hkr, hrq, hr, hrs⟩ := first_absent hpresent hnone hkq
  have hrq' : r <+: q := (prefix_append r [s]).trans hrq
  have hks : k <+: r ++ [s] := hkr.trans (prefix_append r [s])
  have hparent : view (.obj T) r = some none := by
    rcases lastTouch_between hl hkr hrq' with hlr | ⟨k', hlr, hk'⟩
    · have hval := hway r hrq'
      rw [valueAt, hP.view_below harr (hq.mono hrq') hlr hkr (open_of_right h hq hl hkq) hpresent, view_printed] at hval
      rcases hT : view (.obj T) r with - | - | x
      · exact absurd hT hr
      · rfl
      · rw [hT] at hval
        cases hval
    · exact (h r (hq.mono hrq')).above k' hlr hk'
  rcases lastTouch_between hl hks hrq with hlr | ⟨k', hlr, hk'⟩
  · have hne : k ≠ r ++ [s] := by
      rintro rfl
      exact hpresent hrs
    refine view_none_mono (((h _ (hq.mono hrq)).below k hlr hks).2 hne hrs ?_) hrq
    rw [dropLast_concat]
    exact hparent
  · rw [(h _ (hq.mono hrq)).above k' hlr hk'] at hrs
    cases hrs

variable (hM : Tidy V (.obj M))

include hM

/-- A path that ends at a value of the patch or leads below one. -/
theorem merged_value {t : List Name} (hq : Compared V (r ++ t)) (hx : valueAt (.obj P) r = some x) :
    view (.obj (mergeMembers M P)) (r ++ t) = view (printed (.obj T)) (r ++ t) := by
  have hr : Compared V r := hq.mono (prefix_append r t)
  obtain ⟨k, hl, hkr⟩ := hP.key_of_value hr.1 hx
  have hopen := open_of_right h hr hl hkr
  rw [view_mergeMembers_value hM hP.tidy hr.1 hx]
  have hview := view_of_valueAt hx
  by_cases hk : view (.obj T) k = none
  · rw [hP.view_absent hr.1 hl hkr hopen hk] at hview
    split at hview
    · cases hview
      exact (printed_none_iff.mpr (view_none_mono hk (hkr.trans (prefix_append r t)))).symm
    · cases hview
  · rw [hP.view_below harr hr hl hkr hopen hk] at hview
    have hnull : x.isNull = false := by
      cases hx' : x.isNull with
      | false => rfl
      | true =>
        rw [isNull_iff.mp hx'] at hview
        exact absurd (printed_null_iff.mp hview) ((h r hr).below k hl hkr).1
    have hnode : node (printed (.obj T)) r = some x := node_of_valueAt (by rw [valueAt, hview]; rfl)
    rw [hnull, view_append, hnode]
    rfl

variable (hold : ∀ q, Compared V q → view (.obj M) q = view (printed (.obj old)) q)

include hold

/-- A path on which the patch has no value. -/
theorem merged_way (hway : ∀ r, r <+: q → valueAt (.obj P) r = none) (hq : Compared V q) :
    view (.obj (mergeMembers M P)) q = view (printed (.obj T)) q := by
  rw [view_mergeMembers hM hP.tidy hq.1 hway]
  cases hl : lastTouch cs q with
  | none =>
    rw [hP.view_untouched hq.1 hl, hold q hq, (h q hq).untouched hl]
    by_cases hnil : q = []
    · subst hnil
      rfl
    · rw [if_neg hnil]
      rfl
  | some k =>
    by_cases hkq : k <+: q
    · have hbelow := hP.view_below harr hq hl hkq (open_of_right h hq hl hkq) (present_of_way hP h hway hq hl hkq)
      rw [hbelow]
      rcases hT : view (printed (.obj T)) q with - | - | x
      · rw [hold q hq]
        exact printed_none_iff.mpr (absent_before hP h harr hway hq hl hkq (printed_none_iff.mp hT))
      · rfl
      · have hval := hway q prefix_rfl
        rw [valueAt, hbelow, hT] at hval
        cases hval
    · rw [hP.view_above hq.1 hl hkq, printed_obj_iff.mpr ((h q hq).above k hl hkq)]
      rfl

theorem mirrors_of_right (hq : Compared V q) : view (.obj (mergeMembers M P)) q = view (printed (.obj T)) q := by
  by_cases hway : ∀ r, r <+: q → valueAt (.obj P) r = none
  · exact merged_way hP h harr hM hold hway hq
  · push Not at hway
    obtain ⟨r, ⟨t, rfl⟩, hv⟩ := hway
    obtain ⟨x, hx⟩ := ne_none_iff_exists'.mp hv
    exact merged_value hP h harr hM hq hx

end Told

end Message

end Exact

mutual
/-- Every object of a tree, those in its arrays too, has members named from the
vocabulary, each name once. -/
def neat (V : Vocabulary) : Json → Bool
  | .scalar _ => true
  | .arr cs => neatElems V cs
  | .obj cs => decide ((cs.map Prod.fst).Nodup) && neatMembers V cs

def neatMembers (V : Vocabulary) : List (Option Name × Json) → Bool
  | [] => true
  | (n, v) :: cs => n.any V.mem && neat V v && neatMembers V cs

def neatElems (V : Vocabulary) : List (Option Name × Json) → Bool
  | [] => true
  | (_, v) :: cs => neat V v && neatElems V cs
end

section Neat

variable {cs : List Child} {w : Json} {k : List Name}

theorem neatMembers_iff : neatMembers V cs = true ↔ ∀ c ∈ cs, c.1.any V.mem = true ∧ neat V c.2 = true := by
  induction cs with
  | nil => simp [neatMembers]
  | cons c cs ih =>
    obtain ⟨n, v⟩ := c
    rw [neatMembers, and_eq_true, and_eq_true, ih, forall_mem_cons]

theorem neatElems_iff : neatElems V cs = true ↔ ∀ c ∈ cs, neat V c.2 = true := by
  induction cs with
  | nil => simp [neatElems]
  | cons c cs ih =>
    obtain ⟨n, v⟩ := c
    rw [neatElems, and_eq_true, ih, forall_mem_cons]

theorem neat_values (h : neat V v = true) : ∀ c ∈ v.children, neat V c.2 = true := by
  cases v with
  | scalar x => exact fun c hc => nomatch hc
  | arr cs =>
    rw [neat] at h
    exact neatElems_iff.mp h
  | obj cs =>
    rw [neat, and_eq_true] at h
    exact fun c hc => (neatMembers_iff.mp h.2 c hc).2

mutual
theorem tidy_of_neat (v : Json) (h : neat V v = true) : Tidy V v := by
  cases v with
  | scalar x => exact .scalar x
  | arr cs => exact .arr cs
  | obj cs =>
    rw [neat, and_eq_true, decide_eq_true_iff] at h
    refine .obj cs (fun c hc => ?_) h.1 (tidy_of_neatMembers cs h.2)
    exact (any_eq_true _ _).mp (neatMembers_iff.mp h.2 c hc).1

theorem tidy_of_neatMembers (cs : List (Option Name × Json)) (h : neatMembers V cs = true) : ∀ c ∈ cs, Tidy V c.2 := by
  cases cs with
  | nil => exact fun c hc => nomatch hc
  | cons c cs =>
    obtain ⟨n, v⟩ := c
    rw [neatMembers, and_eq_true, and_eq_true] at h
    exact forall_mem_cons.mpr ⟨tidy_of_neat v h.1.2, tidy_of_neatMembers cs h.2⟩
end

theorem mem_children_of_child {s : Name} (h : child v s = some w) : ∃ c ∈ v.children, c.2 = w := by
  have hobj : ∀ {cs : List Child}, getObjectItem cs s = some w → ∃ c ∈ cs, c.2 = w := by
    intro cs hg
    obtain ⟨c, hc, hw⟩ := map_eq_some_iff.mp hg
    exact ⟨c, mem_of_find?_eq_some hc, hw⟩
  cases v with
  | scalar x => cases h
  | obj cs => exact hobj h
  | arr cs =>
    rw [child] at h
    split at h
    · obtain ⟨c, hc, hw⟩ := map_eq_some_iff.mp h
      exact ⟨c, mem_of_getElem? hc, hw⟩
    · exact hobj h

theorem neat_navigate (h : neat V v = true) (hw : navigate v k = some w) : neat V w = true := by
  induction k generalizing v with
  | nil =>
    cases hw
    exact h
  | cons s k ih =>
    rw [navigate] at hw
    split at hw
    · exact ih h hw
    · split at hw
      · cases hw
      · obtain ⟨u, hu, hw⟩ := bind_eq_some_iff.mp hw
        obtain ⟨c, hc, rfl⟩ := mem_children_of_child hu
        exact ih (neat_values h c hc) hw

theorem tidy_found (h : neat V (.obj cs) = true) (k : List Name) : Tidy V (found cs k) := by
  rw [found]
  cases hn : navigate (.obj cs) k with
  | none => exact tidy_null
  | some w => exact tidy_of_neat w (neat_navigate h hn)

end Neat

/-- The dirty keys that a flush gets across, in the order `ks`. -/
def carried (pats : List (List Name)) (stored : Name → Option Json) (len : List Child → Nat) (link : Link) (s : Sys)
    (ks : List Name) : List Name :=
  if s.dirty.mirrorLost = false ∧ link.Takes (len (ks.foldl (placeKey pats stored s.tree) [])) then ks else []

/-- The patch of the keys `ks` brings the mirror of the old tree to `T`: it is right
on every path outside the secrets by the keys that lead below no array of it, and
the other keys leave those arrays as `T` has them. -/
structure Tells (V : Vocabulary) (pats : List (List Name)) (stored : Name → Option Json) (old T : List Child)
    (ks : List Name) : Prop where
  right : ∀ q, Compared V q → Right old T (counted (found T) [] (ks.map segments)) q
  arrays : ArraysKept V T (ks.map segments) (printedMembers (ks.foldl (placeKey pats stored T) []))

section Flush

variable {pats : List (List Name)} {stored : Name → Option Json} {len : List Child → Nat}
  {link : Link} {s : Sys} {old T M P : List Child} {ks : List Name} {q : List Name}

theorem merged_dcFlushPatch (M : List Child) : merged M (dcFlushPatch pats stored len link s ks) =
    mergeMembers M (printedMembers ((carried pats stored len link s ks).foldl (placeKey pats stored s.tree) [])) := by
  rw [dcFlushPatch, carried]
  by_cases h : s.dirty.mirrorLost = false ∧ link.Takes (len (ks.foldl (placeKey pats stored s.tree) []))
  · rw [if_pos h]
    by_cases hempty : (ks.foldl (placeKey pats stored s.tree) []).isEmpty = false
    · rw [if_pos ⟨h.1, h.2, hempty⟩]
      rfl
    · have hnil : ks.foldl (placeKey pats stored s.tree) [] = [] := by simpa using hempty
      rw [if_neg fun hand => hempty hand.2.2, hnil, printedMembers, mergeMembers]
      rfl
  · rw [if_neg fun hand => h ⟨hand.1, hand.2.1⟩, if_neg h, foldl_nil, printedMembers, mergeMembers]
    rfl

theorem foldl_placeKey (hks : ∀ k ∈ ks, Spelled V (segments k) ∧ sdbRoute pats k = none) (P : List Child) :
    ks.foldl (placeKey pats stored T) P = (ks.map segments).foldl (place (found T)) P := by
  induction ks generalizing P with
  | nil => rfl
  | cons k ks ih =>
    obtain ⟨⟨hsp, hroute⟩, hrest⟩ := forall_mem_cons.mp hks
    have hne : k ≠ [] := by
      rintro rfl
      exact (V.plain [] (hsp [] (by simp [segments]))).1 rfl
    rw [foldl_cons, map_cons, foldl_cons, ih hrest, placeKey, dcResolveKey, hroute, navigatePath,
      if_neg hne]
    rfl

theorem message_flush (stored : Name → Option Json) (hT : neat V (.obj T) = true)
    (hks : ∀ k ∈ ks, Spelled V (segments k) ∧ sdbRoute pats k = none) :
    Message V T (ks.map segments) (counted (found T) [] (ks.map segments))
      (printedMembers (ks.foldl (placeKey pats stored T) [])) := by
  have hpaths : ∀ k ∈ ks.map segments, Spelled V k ∧ k ≠ [] ∧ Tidy V (found T k) := by
    intro k hk
    obtain ⟨key, hkey, rfl⟩ := mem_map.mp hk
    exact ⟨(hks key hkey).1, segments_ne_nil key, tidy_found hT _⟩
  obtain ⟨htidy, hview⟩ := placed_spec hpaths
  rw [foldl_placeKey hks, ← placed]
  refine ⟨tidy_printed htidy, fun k hk => (hpaths k ((counted_sublist _ _ _).subset hk)).1, fun q hq => ?_⟩
  have hprinted := alike_printed (hview q hq)
  rwa [← view_printed, printed] at hprinted

theorem view_mirrorOf (hV : V.mem (lit "secrets")) (hq : Compared V q) :
    view (.obj (mirrorOf old)) q = view (printed (.obj old)) q := by
  have hdel : view (.obj (deleteItemFromObject old (lit "secrets"))) q = view (.obj old) q := by
    cases q with
    | nil => rfl
    | cons s q =>
      have hne : fold (lit "secrets") ≠ fold s := by
        intro h
        have heq := V.inj _ _ hV hq.1.head h
        exact hq.2 (by rw [heq, head?_cons])
      rw [view_cons, view_cons]
      exact congrArg (fun u : Option Json => u.bind fun v => view v q) (getObjectItem_apply hne .erase old)
  have hmirror : Json.obj (mirrorOf old) = printed (.obj (deleteItemFromObject old (lit "secrets"))) := by
    rw [printed, mirrorOf]
  rw [hmirror, view_printed, hdel, view_printed]

end Flush

def wide : Link := ⟨65536, 65536⟩

def oneLeaf : List Child := [(some (lit "a"), .obj [(some (lit "x"), .scalar (.str (lit "1")))])]

def arrayNames : Vocabulary := vocabularyOf [lit "secrets", lit "a", lit "x", lit "0"] (by decide) (by decide)

/-- An array that is set and gets an element before the flush. -/
def filled : List OpList :=
  [⟨false, [⟨.set, lit "x", some (.arr [])⟩]⟩, ⟨false, [setText "x.0" "2", ⟨.delete, lit "a.x", none⟩]⟩]

/-- A subtree that is deleted and set again before the flush. -/
def remade : List OpList := [⟨false, [⟨.delete, lit "a", none⟩]⟩, ⟨false, [setText "a.b" "2"]⟩]

end Spangap.Mirror
