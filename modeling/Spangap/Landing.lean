import Spangap.Attach

namespace Spangap.Landing

open List Option CJson FirstMatch DotPath Merge Commit Persist View Attach Bool

variable {V : Vocabulary} {cs : List Child} {A : Op → Prop} {p s n : Name} {v : Json} {r : List Name} {ops : List Op}

mutual
def valuePaths : Json → List (List Name)
  | .obj cs => memberPaths cs
  | _ => [[]]

def memberPaths : List (Option Name × Json) → List (List Name)
  | [] => []
  | (none, _) :: cs => memberPaths cs
  | (some n, v) :: cs => (valuePaths v).map (n :: ·) ++ memberPaths cs
end

def landings (o : Op) : List (List Name) :=
  match o.written with
  | none => []
  | some v => (valuePaths v).map (segments o.key ++ ·)

mutual
def sound (V : Vocabulary) : Json → Bool
  | .scalar x => x ≠ .null
  | .arr _ => true
  | .obj cs => !cs.isEmpty && decide ((cs.map Prod.fst).Nodup) && soundMembers V cs

def soundMembers (V : Vocabulary) : List (Option Name × Json) → Bool
  | [] => true
  | (none, _) :: _ => false
  | (some n, v) :: cs => V.mem n && sound V v && soundMembers V cs
end

theorem soundMembers_iff (h : soundMembers V cs = true) : ∀ c ∈ cs, (∃ n, c.1 = some n ∧ V.mem n) ∧ sound V c.2 = true := by
  induction cs with
  | nil => simp
  | cons c cs ih =>
    obtain ⟨n, v⟩ := c
    cases n with
    | none => simp [soundMembers] at h
    | some n =>
      simp only [soundMembers, and_eq_true] at h
      exact forall_mem_cons.mpr ⟨⟨⟨n, rfl, h.1.1⟩, h.1.2⟩, ih h.2⟩

mutual
theorem tidy_of_sound (v : Json) (h : sound V v = true) : Tidy V v ∧ Full v := by
  cases v with
  | scalar x => exact ⟨.scalar x, .scalar x⟩
  | arr cs => exact ⟨.arr cs, .arr cs⟩
  | obj cs =>
    simp only [sound, and_eq_true, not_eq_true', decide_eq_true_eq] at h
    have hval := tidy_of_soundMembers cs h.2
    refine ⟨.obj cs (fun c hc => (soundMembers_iff h.2 c hc).1) h.1.2 (fun c hc => (hval c hc).1),
      .obj cs ?_ (fun c hc => (hval c hc).2)⟩
    simpa using h.1.1

theorem tidy_of_soundMembers (cs : List (Option Name × Json)) (h : soundMembers V cs = true) :
    ∀ c ∈ cs, Tidy V c.2 ∧ Full c.2 := by
  cases cs with
  | nil => simp
  | cons c cs =>
    obtain ⟨n, v⟩ := c
    cases n with
    | none => simp [soundMembers] at h
    | some n =>
      simp only [soundMembers, and_eq_true] at h
      exact forall_mem_cons.mpr ⟨tidy_of_sound v h.1.2, tidy_of_soundMembers cs h.2⟩
end

theorem valueAt_ne_null (h : sound V v = true) (r : List Name) : valueAt v r ≠ some .null := by
  induction r generalizing v with
  | nil =>
    cases v with
    | obj cs => simp [valueAt_nil_obj]
    | arr cs => simp [valueAt_nil_of_not_obj (v := .arr cs) rfl, Json.null]
    | scalar x =>
      rw [valueAt_nil_of_not_obj rfl]
      simpa [sound, Json.null] using h
  | cons s r ih =>
    cases v with
    | scalar x => simp [valueAt_below (v := .scalar x) rfl]
    | arr cs => simp [valueAt_below (v := .arr cs) rfl]
    | obj cs =>
      rw [valueAt_cons]
      rcases hc : getObjectItem cs s with - | w
      · simp
      · obtain ⟨c, hfind, rfl⟩ := map_eq_some_iff.mp hc
        simp only [sound, and_eq_true] at h
        exact ih (soundMembers_iff h.2 c (mem_of_find?_eq_some hfind)).2

theorem mem_memberPaths (hc : (some n, v) ∈ cs) (hr : r ∈ valuePaths v) : n :: r ∈ memberPaths cs := by
  induction cs with
  | nil => simp at hc
  | cons c cs ih =>
    rcases mem_cons.mp hc with rfl | hc'
    · rw [memberPaths, mem_append]
      exact .inl (mem_map_of_mem hr)
    · obtain ⟨k, w⟩ := c
      cases k with
      | none =>
        exact ih hc'
      | some k =>
        rw [memberPaths, mem_append]
        exact .inr (ih hc')

theorem mem_of_getObjectItem (hcs : Tidy V (.obj cs)) (hs : V.mem s) (h : getObjectItem cs s = some v) :
    (some s, v) ∈ cs := by
  obtain ⟨c, hc, rfl⟩ := map_eq_some_iff.mp h
  have hmem := mem_of_find?_eq_some hc
  obtain ⟨a, ha, haV⟩ := hcs.names c hmem
  have hnamed := find?_some hc
  rw [named_iff, ha] at hnamed
  have has : a = s := V.inj a s haV hs (by simpa using hnamed)
  rw [← has, ← ha]
  exact hmem

theorem mem_valuePaths (hv : Tidy V v) (hr : Spelled V r) (h : valueAt v r ≠ none) : r ∈ valuePaths v := by
  have hflat : ∀ {w : Json}, w.isObj = false → valueAt w r ≠ none → r = [] := by
    intro w hw hne
    by_contra hn
    exact hne (valueAt_below hw hn)
  induction r generalizing v with
  | nil =>
    cases v with
    | obj cs => exact absurd rfl h
    | scalar x => simp [valuePaths]
    | arr cs => simp [valuePaths]
  | cons s r ih =>
    cases v with
    | scalar x => exact absurd (hflat rfl h) (by simp)
    | arr cs => exact absurd (hflat rfl h) (by simp)
    | obj cs =>
      rw [valueAt_cons] at h
      rcases hc : getObjectItem cs s with - | w
      · simp [hc] at h
      · rw [hc, bind_some] at h
        apply mem_memberPaths (mem_of_getObjectItem hv hr.head hc)
        refine ih (hv.child hc) hr.tail h ?_
        intro u hu hne
        by_contra hn
        exact hne (valueAt_below hu hn)

def Proper (V : Vocabulary) (o : Op) : Prop :=
  Spelled V (segments o.key) ∧ o.code ≠ .dflt ∧ (o.code = .set → o.val.all (sound V) = true)

section Patch

variable {P : List Child} {k q : List Name} {o : Op}

theorem valueAt_write_apart (hP : Tidy V (.obj P)) (hk : Spelled V k) (hq : Spelled V q) (h : Apart k q) :
    valueAt (.obj (navigateOrCreate (putLeaf v) k P)) q = valueAt (.obj P) q := by
  induction k generalizing P q with
  | nil => rfl
  | cons s ss ih =>
    cases q with
    | nil => exact absurd nil_prefix h.2
    | cons t q =>
      rw [valueAt_cons, valueAt_cons, getObjectItem_write hP (plain_of_spelled hk (by simp))]
      split
      case isFalse => rfl
      case isTrue hst =>
          obtain rfl : s = t := V.inj s t hk.head hq.head hst
          have hap : Apart ss q := by
            refine ⟨fun h' => h.1 ?_, fun h' => h.2 ?_⟩
            · exact cons_prefix_cons.mpr ⟨rfl, h'⟩
            · exact cons_prefix_cons.mpr ⟨rfl, h'⟩
          have hss : ss ≠ [] := fun h' => hap.1 (h' ▸ nil_prefix)
          have hqne : q ≠ [] := fun h' => hap.2 (h' ▸ nil_prefix)
          -- an object created for the write holds nothing at the other path
          have hnew := (ih tidy_nil hk.tail hq.tail hap).trans (valueAt_obj_nil q)
          rcases hc : getObjectItem P s with - | x | ks | ks
          all_goals simp only [written, if_neg hss, bind_some, bind_none]
          · exact hnew
          · rw [hnew, valueAt_below (v := .scalar x) rfl hqne]
          · rw [valueAt_below rfl hqne, valueAt_below rfl hqne]
          · exact ih (hP.child hc) hk.tail hq.tail hap

theorem landings_delete (h : o.code = .delete) : landings o = [segments o.key] := by
  simp [landings, Op.written, h, Json.null, valuePaths]

theorem key_prefix_of_landing (h : r ∈ landings o) : segments o.key <+: r := by
  unfold landings at h
  split at h
  · simp at h
  · obtain ⟨p, -, rfl⟩ := mem_map.mp h
    exact prefix_append _ _

/-- What is known of a patch built from some ops. -/
structure Patched (V : Vocabulary) (A : Op → Prop) (P : List Child) : Prop where
  tidy : Tidy V (.obj P)
  full : ∀ c ∈ P, Full c.2
  origin : ∀ r x, Spelled V r → valueAt (.obj P) r = some x →
    ∃ o, A o ∧ r ∈ landings o ∧ (x = .null → o.code = .delete)

theorem patched_nil : Patched V (fun _ => False) [] := by
  refine ⟨tidy_nil, by simp, ?_⟩
  intro r x _ hx
  rw [valueAt_obj_nil] at hx
  cases hx

theorem Patched.mono {B : Op → Prop} (h : Patched V A P) (hAB : ∀ o, A o → B o) : Patched V B P := by
  refine ⟨h.tidy, h.full, ?_⟩
  intro r x hr hx
  obtain ⟨o, ho, hlands⟩ := h.origin r x hr hx
  exact ⟨o, hAB o ho, hlands⟩

theorem Proper.value (h : Proper V o) (hv : o.written = some v) :
    Tidy V v ∧ Full v ∧ ∀ r, valueAt v r = some .null → o.code = .delete := by
  cases hc : o.code with
  | dflt => exact absurd hc h.2.1
  | delete =>
    rw [Op.written, hc] at hv
    cases hv
    exact ⟨.scalar .null, .scalar .null, fun _ _ => rfl⟩
  | set =>
    have hval : o.val = some v := by simpa [Op.written, hc] using hv
    have hsound : sound V v = true := by simpa [hval] using h.2.2 hc
    exact ⟨(tidy_of_sound v hsound).1, (tidy_of_sound v hsound).2,
      fun r hr => absurd hr (valueAt_ne_null hsound r)⟩

theorem patched_foldOp (h : Patched V A P) (ho : Proper V o) (root : Json) :
    Patched V (fun a => A a ∨ a = o) (foldOp root P o) := by
  have hold : Patched V (fun a => A a ∨ a = o) P := h.mono fun a ha => .inl ha
  unfold foldOp
  cases hv : o.written with
  | none => exact hold
  | some v =>
    by_cases hskip : skipped o.code v (navigatePath root o.key) = true
    · simp only [hskip, if_true]
      exact hold
    · simp only [hskip, if_false, false_eq_true]
      obtain ⟨htidy, hfull, hnull⟩ := ho.value hv
      refine ⟨tidy_write h.tidy ho.1 htidy, full_write h.full ho.1 hfull, ?_⟩
      intro r x hr hx
      rcases valueAt_write_cases h.tidy ho.1 (segments_ne_nil _) hr hx with ⟨⟨t, rfl⟩, hx'⟩ | ⟨y, hy, hxy⟩
      · rw [drop_left] at hx'
        have ht : Spelled V t := fun s hs => hr s (mem_append_right _ hs)
        have hmem := mem_valuePaths htidy ht (by simp [hx'])
        refine ⟨o, .inr rfl, ?_, ?_⟩
        · simp only [landings, hv]
          exact mem_map_of_mem hmem
        · rintro rfl
          exact hnull t hx'
      · obtain ⟨a, ha, hlands, hcode⟩ := h.origin r y hr hy
        refine ⟨a, .inl ha, hlands, ?_⟩
        rintro rfl
        rcases hxy with rfl | hxy
        · exact hcode rfl
        · cases hxy

theorem patched_foldl (h : Patched V A P) (hops : ∀ o ∈ ops, Proper V o) (root : Json) :
    Patched V (fun a => A a ∨ a ∈ ops) (ops.foldl (foldOp root) P) := by
  induction ops generalizing A P with
  | nil => exact h.mono fun a ha => .inl ha
  | cons o ops ih =>
    obtain ⟨ho, hops⟩ := forall_mem_cons.mp hops
    refine (ih (patched_foldOp h ho root) hops).mono ?_
    rintro a ((ha | rfl) | ha)
    · exact .inl ha
    · exact .inr mem_cons_self
    · exact .inr (mem_cons_of_mem o ha)

theorem valueAt_foldOp_apart (hP : Tidy V (.obj P)) (ho : Proper V o) (hq : Spelled V q)
    (h : Apart (segments o.key) q) (root : Json) :
    valueAt (.obj (foldOp root P o)) q = valueAt (.obj P) q := by
  unfold foldOp
  cases o.written with
  | none => rfl
  | some v =>
    dsimp only
    split
    · rfl
    · exact valueAt_write_apart hP ho.1 hq h

theorem valueAt_foldl_apart (hP : Patched V A P) (hops : ∀ o ∈ ops, Proper V o ∧ Apart (segments o.key) q)
    (hq : Spelled V q) (root : Json) : valueAt (.obj (ops.foldl (foldOp root) P)) q = valueAt (.obj P) q := by
  induction ops generalizing A P with
  | nil => rfl
  | cons o ops ih =>
    obtain ⟨ho, hops⟩ := forall_mem_cons.mp hops
    rw [foldl_cons, ih (patched_foldOp hP ho.1 root) hops, valueAt_foldOp_apart hP.tidy ho.1 hq ho.2]

theorem valueAt_delete {A B : List Op} (hops : ∀ a ∈ A ++ B, Proper V a ∧ Apart (segments a.key) (segments o.key))
    (ho : Proper V o) (hdel : o.code = .delete) (root : Json) :
    valueAt (.obj ((A ++ o :: B).foldl (foldOp root) [])) (segments o.key) = some .null := by
  have hA := patched_foldl patched_nil (fun a ha => (hops a (mem_append_left B ha)).1) root
  have hclear : View.Clear (A.foldl (foldOp root) []) (segments o.key) := by
    intro r hr _
    by_contra hval
    obtain ⟨x, hx⟩ := ne_none_iff_exists'.mp hval
    obtain ⟨a, ha, hlands, -⟩ := hA.origin r x (fun s hs => ho.1 s (hr.subset hs)) hx
    have ha : a ∈ A := ha.resolve_left id
    exact (hops a (mem_append_left B ha)).2.1 ((key_prefix_of_landing hlands).trans hr)
  have hwrite : valueAt (.obj (foldOp root (A.foldl (foldOp root) []) o)) (segments o.key) = some .null := by
    have hskip : skipped o.code .null (navigatePath root o.key) = false := by
      rw [hdel]
      cases navigatePath root o.key <;> rfl
    have hnull : o.written = some .null := by simp [Op.written, hdel]
    rw [foldOp, hnull]
    simp only [hskip, false_eq_true, if_false]
    rw [valueAt_write hA.tidy ho.1 (segments_ne_nil _) hclear ho.1, if_pos (prefix_refl _), drop_length]
    rfl
  rw [foldl_append, foldl_cons, valueAt_foldl_apart (patched_foldOp hA ho root)
    (fun b hb => hops b (mem_append_right A hb)) ho.1, hwrite]

end Patch

section Routing

variable {pres : List Name} {path : Name}

theorem length_le_foldl_extend (r : List Name) (path : Name) : path.length ≤ (r.foldl extend path).length := by
  induction r generalizing path with
  | nil => exact le_rfl
  | cons s r ih =>
    refine le_trans ?_ (ih (extend path s))
    unfold extend
    split
    case isTrue h => simp [h]
    case isFalse => simp

def Passed (pres : List Name) (path : Name) : Prop := path = [] ∨ path ∉ pres

theorem Passed.neg (h : Passed pres path) : ¬ (path ≠ [] ∧ path ∈ pres) := by
  rintro ⟨hne, hmem⟩
  rcases h with h | h
  · exact hne h
  · exact h hmem

theorem mem_routePatchDirty_step (hv : Tidy V v) (hs : V.mem s) (hval : valueAt v (s :: r) ≠ none)
    (hpass : Passed pres path) (hlen : ((s :: r).foldl extend path).length < 128) {m : Mark}
    (hm : ∀ w, Tidy V w → valueAt w r ≠ none → m ∈ routePatchDirty pres (extend path s) w) :
    m ∈ routePatchDirty pres path v := by
  cases v with
  | scalar x => exact absurd (valueAt_below rfl (by simp)) hval
  | arr cs => exact absurd (valueAt_below rfl (by simp)) hval
  | obj cs =>
    rw [valueAt_cons] at hval
    rcases hc : getObjectItem cs s with - | w
    · simp [hc] at hval
    · rw [hc, bind_some] at hval
      rw [routePatchDirty, if_neg hpass.neg]
      refine mem_routeMembers (mem_of_getObjectItem hv hs hc) ?_ (hm w (hv.child hc) hval)
      exact lt_of_le_of_lt (length_le_foldl_extend r _) hlen

theorem external_mem_routePatchDirty {a b : List Name} (hv : Tidy V v) (ha : Spelled V a)
    (hval : valueAt v (a ++ b) ≠ none) (hlen : ((a ++ b).foldl extend path).length < 128)
    (hpass : ∀ c, c <+: a → c ≠ a → Passed pres (c.foldl extend path))
    (hne : a.foldl extend path ≠ []) (hmem : a.foldl extend path ∈ pres) :
    Mark.external (a.foldl extend path) ∈ routePatchDirty pres path v := by
  induction a generalizing v path with
  | nil =>
    cases v with
    | _ => simp_all [routePatchDirty]
  | cons s a ih =>
    refine mem_routePatchDirty_step hv ha.head hval (hpass [] nil_prefix (by simp)) hlen ?_
    intro w hw hwval
    refine ih hw ha.tail hwval hlen ?_ hne hmem
    intro c hc hca
    exact hpass (s :: c) (cons_prefix_cons.mpr ⟨rfl, hc⟩) (by simpa using hca)

theorem root_mem_routePatchDirty_value (hv : Tidy V v) (hr : Spelled V r) (hval : valueAt v r ≠ none)
    (hlen : (r.foldl extend path).length < 128) (hpass : ∀ c, c <+: r → Passed pres (c.foldl extend path))
    (hper : persistent (r.foldl extend path) = true) : Mark.root ∈ routePatchDirty pres path v := by
  induction r generalizing v path with
  | nil =>
    have hneg := (hpass [] nil_prefix).neg
    rw [foldl_nil] at hneg hper
    cases v with
    | obj cs => exact absurd (valueAt_nil_obj cs) hval
    | scalar x => simp [routePatchDirty, hneg, hper]
    | arr cs => simp [routePatchDirty, hneg, hper]
  | cons s r ih =>
    refine mem_routePatchDirty_step hv hr.head hval (hpass [] nil_prefix) hlen ?_
    intro w hw hwval
    refine ih hw hr.tail hwval hlen ?_ hper
    intro c hc
    exact hpass (s :: c) (cons_prefix_cons.mpr ⟨rfl, hc⟩)

theorem of_mem_routeMembers {m : Mark} (h : m ∈ routeMembers pres path cs) :
    ∃ n w, (some n, w) ∈ cs ∧ m ∈ routePatchDirty pres (extend path n) w := by
  induction cs with
  | nil => simp [routeMembers] at h
  | cons c cs ih =>
    obtain ⟨n, w⟩ := c
    cases n with
    | none =>
      obtain ⟨n, u, hu, hm⟩ := ih h
      exact ⟨n, u, mem_cons_of_mem _ hu, hm⟩
    | some n =>
      rw [routeMembers, mem_append] at h
      rcases h with h | h
      · split at h
        · simp at h
        · exact ⟨n, w, mem_cons_self, h⟩
      · obtain ⟨n, u, hu, hm⟩ := ih h
        exact ⟨n, u, mem_cons_of_mem _ hu, hm⟩

def Reaches (V : Vocabulary) (pres : List Name) (path p : Name) : Prop :=
  ∃ a, Spelled V a ∧ p = a.foldl extend path ∧ ∀ c, c <+: a → c ≠ a → Passed pres (c.foldl extend path)

theorem reaches_self (pres : List Name) (path : Name) : Reaches V pres path path := by
  refine ⟨[], by simp [Spelled], rfl, ?_⟩
  intro c hc hne
  exact absurd (prefix_nil.mp hc) hne

theorem reaches_of_stop {l : List Mark} (hl : Mark.external p ∉ l)
    (h : Mark.external p ∈ (if path ≠ [] ∧ path ∈ pres then [.external path] else l)) : Reaches V pres path p := by
  split at h
  · obtain rfl : p = path := by simpa using h
    exact reaches_self pres p
  · exact absurd h hl

theorem reaches_member (hn : V.mem n) (hpass : Passed pres path) (h : Reaches V pres (extend path n) p) :
    Reaches V pres path p := by
  obtain ⟨a, ha, rfl, hpass'⟩ := h
  refine ⟨n :: a, forall_mem_cons.mpr ⟨hn, ha⟩, rfl, ?_⟩
  intro c hc hne
  cases c with
  | nil => exact hpass
  | cons t c =>
    obtain ⟨rfl, hca⟩ := cons_prefix_cons.mp hc
    exact hpass' c hca (by simpa using hne)

theorem reaches_of_external_mem (hv : Tidy V v) (h : Mark.external p ∈ routePatchDirty pres path v) : Reaches V pres path p := by
  induction hv generalizing path with
  | scalar x => exact reaches_of_stop (by split <;> simp) h
  | arr cs => exact reaches_of_stop (by split <;> simp) h
  | obj cs hname hnodup hval ih =>
    by_cases hpath : path ≠ [] ∧ path ∈ pres
    · rw [routePatchDirty, if_pos hpath] at h
      obtain rfl : p = path := by simpa using h
      exact reaches_self pres p
    · rw [routePatchDirty, if_neg hpath] at h
      obtain ⟨n, w, hw, hm⟩ := of_mem_routeMembers h
      obtain ⟨k, hk, hkV⟩ := hname _ hw
      cases hk
      refine reaches_member hkV ?_ (ih _ hw hm)
      by_contra hp
      exact hpath ⟨fun he => hp (.inl he), by_contra fun he => hp (.inr he)⟩

end Routing

end Spangap.Landing
