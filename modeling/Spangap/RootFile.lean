import Spangap.Worker

namespace Spangap.RootFile

open List Option CJson FirstMatch DotPath Merge Commit Persist Worker Runs

variable {pats : List (List Name)} {P : List Child} {ops : List Op} {v : Json} {n path : Name}

/-- `root.json` holds the saved namespaces of the committed tree. -/
def Saved (σ : State) : Prop :=
  ∀ p ∈ savedNames, getObjectItem (σ.rootFile.getD []) p = getObjectItem σ.cfgRoot p

mutual
def fits (path : Name) : Json → Bool
  | .obj cs => fitsMember path cs
  | _ => true

def fitsMember (path : Name) : List (Option Name × Json) → Bool
  | [] => false
  | (none, _) :: cs => fitsMember path cs
  | (some n, v) :: cs =>
    (decide ((extend path n).length < 128) && fits (extend path n) v) || fitsMember path cs
end

def Dropped (root : Json) (o : Op) : Prop :=
  ∀ v ∈ o.written, skipped o.code v (navigatePath root o.key) = true
  deriving Decidable

def Avoids (pats : List (List Name)) (o : Op) : Prop := ∀ p ∈ savedNames, ¬ Touches pats p o
  deriving Decidable

/-- The key spells a saved namespace and goes on below it, within the buffer of
the dirty walk, and its value is not an object without leaves. -/
def Marking (o : Op) : Prop :=
  Plain (segments o.key) ∧ 2 ≤ (segments o.key).length ∧ (∀ s ∈ (segments o.key).head?, s ∈ savedNames) ∧
    o.key.length < 128 ∧ ∀ v ∈ o.written, fits o.key v = true
  deriving Decidable

def Calm (pats : List (List Name)) (root : Json) (o : Op) : Prop := Dropped root o ∨ Avoids pats o ∨ Marking o
  deriving Decidable

def Quiet (pats : List (List Name)) (root : Json) (o : Op) : Prop := Dropped root o ∨ Avoids pats o
  deriving Decidable

/-- The steps of a schedule with no external files in which the flag tells. -/
def Allowed (pats : List (List Name)) (s : Sys) : Action → Prop
  | .apply ops =>
    (∀ o ∈ ops, Calm pats (.obj s.st.cfgRoot) o) ∧
      (inWindow s.phase = true → ∀ o ∈ ops, Quiet pats (.obj s.st.cfgRoot) o)
  | .register _ => False
  | _ => True

instance (pats : List (List Name)) (s : Sys) (a : Action) : Decidable (Allowed pats s a) := by
  cases a <;> unfold Allowed <;> infer_instance

/-- No update of `root.json` is lost: between two passes a clean flag means that
the file is up to date. -/
def UpToDate (s : Sys) : Prop := s.phase = .idle → s.st.rootDirty = false → Saved s.st

theorem persistent_extend (h : path ∈ savedNames ∨ persistent path = true) (n : Name) :
    persistent (extend path n) = true := by
  have happ : ∀ {a b : Name}, a.isPrefixOf b = true → a.isPrefixOf (b ++ 46 :: n) = true := by
    intro a b ha
    rw [List.isPrefixOf_iff_prefix] at ha ⊢
    exact ha.trans (prefix_append b _)
  rcases h with h | h
  · simp only [savedNames, mem_cons, not_mem_nil, or_false] at h
    rcases h with rfl | rfl <;> rfl
  · have hne : path ≠ [] := by
      rintro rfl
      exact absurd h (by decide)
    rw [extend, if_neg hne]
    simp only [persistent, Bool.or_eq_true] at h ⊢
    rcases h with h | h
    · exact .inl (happ h)
    · exact .inr (happ h)

mutual
theorem root_mem_routePatchDirty (path : Name) (v : Json) (hp : persistent path = true) (h : fits path v = true) :
    Mark.root ∈ routePatchDirty [] path v := by
  cases v with
  | scalar x => simp [routePatchDirty, hp]
  | arr cs => simp [routePatchDirty, hp]
  | obj cs =>
    rw [routePatchDirty, if_neg (by simp)]
    exact root_mem_routeMembers path cs (.inr hp) h

theorem root_mem_routeMembers (path : Name) (cs : List (Option Name × Json))
    (hp : path ∈ savedNames ∨ persistent path = true) (h : fitsMember path cs = true) :
    Mark.root ∈ routeMembers [] path cs := by
  cases cs with
  | nil => simp [fitsMember] at h
  | cons c cs =>
    obtain ⟨n, v⟩ := c
    cases n with
    | none =>
      rw [routeMembers]
      exact root_mem_routeMembers path cs hp (by simpa [fitsMember] using h)
    | some n =>
      rw [fitsMember, Bool.or_eq_true, Bool.and_eq_true, decide_eq_true_eq] at h
      rw [routeMembers, mem_append]
      rcases h with ⟨hlen, h⟩ | h
      · left
        rw [if_neg (by omega)]
        exact root_mem_routePatchDirty (extend path n) v (persistent_extend hp n) h
      · right
        exact root_mem_routeMembers path cs hp h
end

mutual
theorem fits_congr (p q : Name) (hp : p ≠ []) (hq : q ≠ []) (hlen : p.length = q.length) (v : Json) :
    fits p v = fits q v := by
  cases v with
  | scalar x => rfl
  | arr cs => rfl
  | obj cs => exact fitsMember_congr p q hp hq hlen cs

theorem fitsMember_congr (p q : Name) (hp : p ≠ []) (hq : q ≠ []) (hlen : p.length = q.length)
    (cs : List (Option Name × Json)) : fitsMember p cs = fitsMember q cs := by
  cases cs with
  | nil => rfl
  | cons c cs =>
    obtain ⟨n, v⟩ := c
    cases n with
    | none => exact fitsMember_congr p q hp hq hlen cs
    | some n =>
      have he : (extend p n).length = (extend q n).length := by simp [extend, hp, hq, hlen]
      rw [fitsMember, fitsMember, he, fitsMember_congr p q hp hq hlen cs,
        fits_congr (extend p n) (extend q n) (extend_ne_nil n hp) (extend_ne_nil n hq) he v]
end

theorem mem_updateItem {cs : List Child} {s : Name} {u : Json} (h : getObjectItem cs s = some u) (y : Json) :
    ∃ n, fold n = fold s ∧ (some n, y) ∈ updateItem cs s y := by
  obtain ⟨⟨n, x⟩, hc, rfl⟩ := map_eq_some_iff.mp h
  obtain ⟨hn, A, B, rfl, hA⟩ := find?_eq_some_iff_append.mp hc
  have hfn := named_iff.mp hn
  cases n with
  | none => simp at hfn
  | some n =>
    refine ⟨n, by simpa using hfn, ?_⟩
    rw [updateItem, modifyFirst_append_of_none _ (fun c hc => by simpa using hA c hc),
      modifyFirst_cons_of_pos _ hn]
    simp

theorem length_fold (n : Name) : (fold n).length = n.length := by simp [fold]

theorem root_mem_write {segs : List Name} (hs : Plain segs)
    (hpath : path ∈ savedNames ∨ persistent path = true) (hne : path ≠ [])
    (hlen : (segs.foldl extend path).length < 128) (hv : fits (segs.foldl extend path) v = true)
    (cs : List Child) : Mark.root ∈ routeMembers [] path (navigateOrCreate (putLeaf v) segs cs) := by
  induction segs generalizing path cs with
  | nil => exact absurd rfl hs.1
  | cons s ss ih =>
    have hshort : ∀ n, fold n = fold s → (extend path n).length < 128 := by
      intro n hn
      have hl : n.length = s.length := by rw [← length_fold n, hn, length_fold]
      rw [foldl_cons, length_foldl_extend (extend_ne_nil s hne)] at hlen
      simp only [extend, if_neg hne, length_append, length_cons] at hlen ⊢
      omega
    by_cases hss : ss = []
    · subst ss
      rw [navigateOrCreate_leaf hs]
      apply mem_routeMembers (n := s) (x := v) (by simp [putLeaf, addItemToObject]) (hshort s rfl)
      exact root_mem_routePatchDirty _ v (persistent_extend hpath s) hv
    · have hrest : ∀ n, fold n = fold s → ∀ ks, Mark.root ∈
          routePatchDirty [] (extend path n) (.obj (navigateOrCreate (putLeaf v) ss ks)) := by
        intro n hn ks
        have hl : (ss.foldl extend (extend path n)).length = (ss.foldl extend (extend path s)).length := by
          have : n.length = s.length := by rw [← length_fold n, hn, length_fold]
          rw [length_foldl_extend (extend_ne_nil n hne), length_foldl_extend (extend_ne_nil s hne)]
          simp [extend, hne, this]
        have hne' : ∀ m, ss.foldl extend (extend path m) ≠ [] := by
          intro m
          rw [foldl_extend (extend_ne_nil m hne)]
          simp [extend_ne_nil m hne]
        rw [routePatchDirty, if_neg (by simp)]
        apply ih (plain_tail hs hss) (.inr (persistent_extend hpath n)) (extend_ne_nil n hne)
        · rw [hl]
          exact hlen
        · rw [fits_congr _ _ (hne' n) (hne' s) hl]
          exact hv
      obtain ⟨hsne, hsl⟩ := hs.2 s mem_cons_self
      rw [navigateOrCreate, if_neg hsne, if_neg (by omega), if_neg hss]
      rcases hc : getObjectItem cs s with - | x | e | d
      · exact mem_routeMembers (by simp [addItemToObject]) (hshort s rfl) (hrest s rfl [])
      · exact mem_routeMembers (by simp [addItemToObject]) (hshort s rfl) (hrest s rfl [])
      · obtain ⟨n, hn, hm⟩ := mem_updateItem hc (.arr (navigateOrCreate (putLeaf v) ss e))
        apply mem_routeMembers hm (hshort n hn)
        simp [routePatchDirty, persistent_extend hpath n]
      · obtain ⟨n, hn, hm⟩ := mem_updateItem hc (.obj (navigateOrCreate (putLeaf v) ss d))
        exact mem_routeMembers hm (hshort n hn) (hrest n hn d)

section Patch

variable {root : List Child}

/-- Every member of the patch that a saved namespace can name spells it and
sets the dirty flag. -/
def Marked (P : List Child) : Prop :=
  ∀ p ∈ savedNames, ∀ c ∈ P, named p c = true → ∃ n ∈ savedNames, c.1 = some n ∧ Mark.root ∈ routePatchDirty [] n c.2

theorem not_marked_of_not_obj (hn : n ∈ savedNames) (hv : v.isObj = false) : Mark.root ∉ routePatchDirty [] n v := by
  have hp : persistent n = false := by
    revert n
    decide
  cases v with
  | scalar x => simp [routePatchDirty, hp]
  | arr cs => simp [routePatchDirty, hp]
  | obj cs => simp [Json.isObj] at hv

theorem savedNames_ne_nil (hn : n ∈ savedNames) : n ≠ [] := by
  revert n
  decide

theorem length_savedNames : ∀ n ∈ savedNames, n.length < 128 := by decide

theorem fold_savedNames : ∀ n ∈ savedNames, ∀ m ∈ savedNames, fold n = fold m → n = m := by decide

theorem marked_put {o : Op} (ho : Marking o) (hv : o.written = some v) (hP : Marked P) :
    Marked (navigateOrCreate (putLeaf v) (segments o.key) P) := by
  obtain ⟨hplain, hlen2, hhead, hlen, hfit⟩ := ho
  have hkey := foldl_extend_segments hplain
  obtain ⟨s, ss, hs⟩ := exists_cons_of_ne_nil (segments_ne_nil o.key)
  rw [hs] at hplain hlen2 hhead hkey ⊢
  have hss : ss ≠ [] := by
    rintro rfl
    simp at hlen2
  have hsaved : s ∈ savedNames := hhead s (by simp)
  have hsne := savedNames_ne_nil hsaved
  rw [foldl_cons, extend, if_pos rfl] at hkey
  -- below the namespace the write has put a leaf that the dirty walk finds
  have hroot : ∀ ks, Mark.root ∈ routePatchDirty [] s (.obj (navigateOrCreate (putLeaf v) ss ks)) := by
    intro ks
    rw [routePatchDirty, if_neg (by simp)]
    exact root_mem_write (plain_tail hplain hss) (.inl hsaved) hsne (by rwa [hkey]) (by rw [hkey]; exact hfit v hv) ks
  intro p hp c hc hcp
  obtain ⟨-, hsl⟩ := hplain.2 s mem_cons_self
  rw [navigateOrCreate, if_neg hsne, if_neg (by omega), if_neg hss] at hc
  rcases hg : getObjectItem P s with - | u
  · rw [hg] at hc
    rcases mem_append.mp hc with hm | hm
    · exact hP p hp c hm hcp
    · rw [mem_singleton.mp hm]
      exact ⟨s, hsaved, rfl, hroot []⟩
  · have hname : ∀ a ∈ P, named s a = true → a.1 = some s ∧ Mark.root ∈ routePatchDirty [] s a.2 := by
      intro a ha has
      obtain ⟨n, hn, han, hm⟩ := hP s hsaved a ha has
      have hns : n = s := fold_savedNames n hn s hsaved (by simpa [han] using named_iff.mp has)
      subst hns
      exact ⟨han, hm⟩
    obtain ⟨d, hd, rfl⟩ := map_eq_some_iff.mp hg
    obtain ⟨-, hm⟩ := hname d (mem_of_find?_eq_some hd) (find?_some hd)
    have hobj : d.2.isObj = true := by
      by_contra hn
      exact not_marked_of_not_obj hsaved (by simpa using hn) hm
    obtain ⟨n, x⟩ := d
    cases x with
    | scalar y => simp [Json.isObj] at hobj
    | arr cs => simp [Json.isObj] at hobj
    | obj ks =>
      rw [hg] at hc
      rcases mem_modifyFirst hc with hm | ⟨a, ha, has, rfl⟩
      · exact hP p hp c hm hcp
      · exact ⟨s, hsaved, (hname a ha has).1, hroot ks⟩

theorem marked_foldl (hroute : ∀ o ∈ ops, sdbRoute pats o.key = none)
    (h : ∀ o ∈ ops, Calm pats (.obj root) o) (hP : Marked P) :
    Marked (ops.foldl (foldOp (.obj root)) P) := by
  induction ops generalizing P with
  | nil => exact hP
  | cons o ops ih =>
    obtain ⟨ho, hops⟩ := forall_mem_cons.mp h
    obtain ⟨hr, hroute⟩ := forall_mem_cons.mp hroute
    rw [foldl_cons]
    apply ih hroute hops
    unfold foldOp
    split
    · exact hP
    next v hv =>
      split
      · exact hP
      next hskip =>
        rcases ho with hd | ha | hm
        · exact absurd (hd v hv) hskip
        · intro p hp c hc hcp
          rcases mem_navigateOrCreate hc hcp with hc | ⟨s, hs, hsp⟩
          · exact hP p hp c hc hcp
          · exact absurd ⟨hr, s, hs, hsp⟩ (ha p hp)
        · exact marked_put hm hv hP

theorem none_of_quiet (hroute : ∀ o ∈ ops, sdbRoute pats o.key = none)
    (h : ∀ o ∈ ops, Quiet pats (.obj root) o) {p : Name} (hp : p ∈ savedNames)
    (hP : ∀ c ∈ P, named p c = false) : ∀ c ∈ ops.foldl (foldOp (.obj root)) P, named p c = false := by
  induction ops generalizing P with
  | nil => exact hP
  | cons o ops ih =>
    obtain ⟨ho, hops⟩ := forall_mem_cons.mp h
    obtain ⟨hr, hroute⟩ := forall_mem_cons.mp hroute
    rw [foldl_cons]
    apply ih hroute hops
    unfold foldOp
    split
    · exact hP
    next v hv =>
      split
      · exact hP
      next hskip =>
        intro c hc
        by_contra hn
        have hcp : named p c = true := by simpa using hn
        rcases mem_navigateOrCreate hc hcp with hc | ⟨s, hs, hsp⟩
        · exact hn (hP c hc)
        · rcases ho with hd | ha
          · exact hskip (hd v hv)
          · exact ha p hp ⟨hr, s, hs, hsp⟩

end Patch

section Step

variable {σ : State}

theorem applyOps_externals (he : σ.externals = []) : (applyOps pats σ ops).externals = [] := by
  have hnil : ∀ l : List Op, l.foldl markDeleted [] = [] := by
    intro l
    induction l with
    | nil => rfl
    | cons o l ih =>
      rw [foldl_cons]
      cases hc : o.code <;> simpa [markDeleted, hc, markExternalsDeletedUnder] using ih
  simp [applyOps, he, hnil]

theorem unrouted_filter (o : Op) (ho : o ∈ ops.filter fun o => (sdbRoute pats o.key).isNone) :
    o ∈ ops ∧ sdbRoute pats o.key = none := by
  simpa using ho

theorem applyOps_calm (he : σ.externals = []) (h : ∀ o ∈ ops, Calm pats (.obj σ.cfgRoot) o) :
    (applyOps pats σ ops).rootDirty = true ∨
      ∀ p ∈ savedNames, getObjectItem (applyOps pats σ ops).cfgRoot p = getObjectItem σ.cfgRoot p := by
  have hmarked : Marked (buildPatch pats (.obj σ.cfgRoot) ops) :=
    marked_foldl (fun o ho => (unrouted_filter o ho).2) (fun o ho => h o (unrouted_filter o ho).1)
      (by simp [Marked])
  by_cases hex : ∃ p ∈ savedNames, ∃ c ∈ buildPatch pats (.obj σ.cfgRoot) ops, named p c = true
  · left
    obtain ⟨p, hp, c, hc, hcp⟩ := hex
    obtain ⟨n, hn, hcn, hroot⟩ := hmarked p hp c hc hcp
    have harmed : armed (buildPatch pats (.obj σ.cfgRoot) ops) = true := by
      have hsome : (getObjectItem (buildPatch pats (.obj σ.cfgRoot) ops) p).isSome = true := by
        by_contra hnone
        have := none_of_getObjectItem (by simpa using hnone) c hc
        simp [hcp] at this
      simp only [savedNames, mem_cons, not_mem_nil, or_false] at hp
      rcases hp with rfl | rfl <;> simp [armed, hsome]
    have hmem : Mark.root ∈ marksOf [] (buildPatch pats (.obj σ.cfgRoot) ops) := by
      rw [marksOf, if_pos harmed, map_nil, routePatchDirty, if_neg (by simp)]
      obtain ⟨k, x⟩ := c
      dsimp only at hcn hroot
      subst hcn
      apply mem_routeMembers hc
      · rw [extend, if_pos rfl]
        exact length_savedNames n hn
      · rwa [extend, if_pos rfl]
    have hext : (ops.filter fun o => (sdbRoute pats o.key).isNone).foldl markDeleted σ.externals = [] := by
      have : (applyOps pats σ ops).externals = [] := applyOps_externals he
      simpa [applyOps] using this
    simp [applyOps, hext, hmem]
  · right
    intro p hp
    apply getObjectItem_deepMerge
    intro c hc
    by_contra hn
    exact hex ⟨p, hp, c, hc, by simpa using hn⟩

theorem applyOps_quiet (h : ∀ o ∈ ops, Quiet pats (.obj σ.cfgRoot) o) :
    ∀ p ∈ savedNames, getObjectItem (applyOps pats σ ops).cfgRoot p = getObjectItem σ.cfgRoot p := by
  intro p hp
  apply getObjectItem_deepMerge
  exact none_of_quiet (fun o ho => (unrouted_filter o ho).2) (fun o ho => h o (unrouted_filter o ho).1) hp (by simp)

def Held (s : Sys) : Prop :=
  s.st.externals = [] ∧
    match s.phase with
    | .writeRoot snap => ∀ p ∈ savedNames, getObjectItem snap p = getObjectItem s.st.cfgRoot p
    | .clearRoot => Saved s.st
    | _ => s.st.rootDirty = false → Saved s.st

end Step

theorem held_work {s t : Sys} (h : Held s) (hs : work s = some t) : Held t := by
  obtain ⟨σ, ph, poked, sems, given⟩ := s
  obtain ⟨he, h⟩ := h
  dsimp only at he h
  cases ph with
  | idle =>
    simp only [work] at hs
    split at hs
    · cases hs
      exact ⟨he, h⟩
    · simp at hs
  | scan i =>
    simp only [work, he, getElem?_nil] at hs
    cases hs
    exact ⟨he, h⟩
  | snapExternal i p =>
    simp only [work] at hs
    split at hs <;> (cases hs; exact ⟨he, h⟩)
  | writeExternal i p v | remove p | collect =>
    cases hs
    exact ⟨he, h⟩
  | testRoot =>
    simp only [work] at hs
    cases hs
    refine ⟨he, ?_⟩
    dsimp only
    split <;> rename_i heq <;> split at heq <;> first | exact h | simp at heq
  | snapRoot =>
    simp only [work, he, withExternalsDetached] at hs
    cases hs
    exact ⟨rfl, getObjectItem_savedMembers σ.cfgRoot⟩
  | writeRoot snap =>
    cases hs
    exact ⟨he, h⟩
  | clearRoot =>
    cases hs
    exact ⟨he, fun _ => h⟩
  | deletes =>
    simp only [work, he, find?_nil] at hs
    cases hs
    exact ⟨he, h⟩

theorem held_step {s t : Sys} {a : Action} (h : Held s) (ha : Allowed pats s a) (hs : step pats s a = some t) :
    Held t := by
  cases a with
  | apply ops =>
    cases hs
    obtain ⟨he, h⟩ := h
    obtain ⟨hcalm, hquiet⟩ := ha
    refine ⟨applyOps_externals he, ?_⟩
    have hfile : (applyOps pats s.st ops).rootFile = s.st.rootFile := rfl
    -- the flag of an earlier update stays set
    have hdirty : (applyOps pats s.st ops).rootDirty = false → s.st.rootDirty = false := by
      simp only [applyOps, Bool.or_eq_false_iff]
      exact fun hd => hd.1
    have hother : (s.st.rootDirty = false → Saved s.st) →
        (applyOps pats s.st ops).rootDirty = false → Saved (applyOps pats s.st ops) := by
      intro hsaved hclean p hp
      rcases applyOps_calm he hcalm with hd | hsame
      · rw [hd] at hclean
        simp at hclean
      · rw [hsame p hp, hfile]
        exact hsaved (hdirty hclean) p hp
    dsimp only
    cases hph : s.phase with
    | writeRoot snap =>
      rw [hph] at h hquiet
      intro p hp
      rw [applyOps_quiet (hquiet rfl) p hp]
      exact h p hp
    | clearRoot =>
      rw [hph] at h hquiet
      intro p hp
      rw [applyOps_quiet (hquiet rfl) p hp, hfile]
      exact h p hp
    | idle | scan | snapExternal | writeExternal | testRoot | snapRoot | deletes | remove | collect =>
      rw [hph] at h
      exact hother h
  | register key => exact ha.elim
  | save call | poke =>
    cases hs
    exact h
  | work => exact held_work h hs

def loaded (f : Option (List Child)) : State := ⟨f.getD [], [], false, false, f, []⟩

theorem held_boot (f : Option (List Child)) : Held (boot (loaded f)) := ⟨rfl, fun _ _ _ => rfl⟩

/-- Wherever a schedule ends, `root.json` is up to date if the flag says so. -/
def NeverLost (pats : List (List Name)) (f : Option (List Child)) (as : List Action) : Prop :=
  ∀ t, run (step pats) (boot (loaded f)) as = some t → UpToDate t

/-- No update of `root.json` is lost in a schedule whose op lists set the flag
and leave the saved namespaces alone between the snapshot and the clear. -/
theorem rootFile_neverLost (pats : List (List Name)) (f : Option (List Child)) (as : List Action)
    (h : Meets (step pats) (Allowed pats) (boot (loaded f)) as) : NeverLost pats f as := by
  intro t ht hph
  obtain ⟨-, hheld⟩ := run_invariant (fun _ _ _ hi ha hs => held_step hi ha hs) (held_boot f) h ht
  rw [hph] at hheld
  exact hheld

/-- Two updates, each before a pass takes its snapshot. -/
def twoPasses : List Action :=
  [.apply [setText "s.a" "1"], .poke, .work, .apply [setText "s.a" "2"], .work, .work, .work, .work, .work, .work, .work,
    .apply [setText "s.b" "3"], .poke, .work, .work, .work, .work, .work, .work, .work, .work]

theorem rootFile_neverLost_twoPasses :
    (run (step []) (boot (loaded none)) twoPasses).isSome = true ∧ NeverLost [] none twoPasses :=
  ⟨by decide +kernel, rootFile_neverLost [] none twoPasses (by decide +kernel)⟩

/-- An update that arrives after the snapshot and before the clear. -/
def lateUpdate : List Action :=
  [.apply [setText "s.a" "1"], .poke, .work, .work, .work, .work, .apply [setText "s.a" "2"], .work, .work, .work, .work]

/-- The file says 1, the tree says 2, and the flag is clean. -/
theorem rootFile_loses_update : ¬ ∀ pats f as, (∀ a ∈ as, ∀ key, a ≠ .register key) → NeverLost pats f as := by
  intro h
  have hend : (run (step []) (boot (loaded none)) lateUpdate).any (fun t => isIdle t.phase && !t.st.rootDirty &&
      decide ((getObjectItem (t.st.rootFile.getD []) (lit "s")).map leaves ≠
        (getObjectItem t.st.cfgRoot (lit "s")).map leaves)) = true := by decide +kernel
  cases ht : run (step []) (boot (loaded none)) lateUpdate with
  | none => simp [ht] at hend
  | some t =>
    simp only [ht, any_some, Bool.and_eq_true, Bool.not_eq_true', decide_eq_true_eq] at hend
    obtain ⟨⟨hidle, hclean⟩, hne⟩ := hend
    have hphase : t.phase = .idle := by
      cases hp : t.phase <;> simp [hp, isIdle] at hidle ⊢
    have hsaved := h [] none lateUpdate (by simp [lateUpdate]) t ht hphase hclean
    exact hne (congrArg (Option.map leaves) (hsaved (lit "s") (.head _)))

end Spangap.RootFile
