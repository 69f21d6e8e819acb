import Spangap.SlashPath

namespace Spangap.RemoveTree

open List CJson SlashPath

/-- The directories there are and the names in them. An entry's name fits the
64 bytes of a directory entry. -/
structure Dirs where
  entries : List Name → Option (List Name)
  names : ∀ {p l}, entries p = some l → ∀ n ∈ l, n ≠ [] ∧ 47 ∉ n ∧ n.length ≤ 63

def rmDotSkip (n : Name) : Bool := n == lit "." || n == lit ".."

/-- `"%.150s/%.80s"` -/
def rmChild (path name : Name) : Name := path.take 150 ++ 47 :: name.take 80

structure Frame where
  path : Name
  rest : List Name

/-- The open directories, the deepest first, and the paths handed to `fs_remove`. -/
structure Walk where
  stack : List Frame
  log : List Name

/-- What the file system answers about one child: whether it is removed,
whether it is a directory, and the entries it opens with. -/
structure Answer where
  removed : Bool
  isDir : Bool
  opened : Option (List Name)

def rmStep (a : Answer) : Walk → Walk
  | ⟨[], log⟩ => ⟨[], log⟩
  | ⟨⟨path, []⟩ :: fs, log⟩ => ⟨fs, log ++ [path]⟩
  | ⟨⟨path, n :: ns⟩ :: fs, log⟩ =>
    if rmDotSkip n then ⟨⟨path, ns⟩ :: fs, log⟩
    else if a.removed then ⟨⟨path, ns⟩ :: fs, log ++ [rmChild path n]⟩
    else if a.isDir && fs.length < 15 then
      match a.opened with
      | some l => ⟨⟨rmChild path n, l⟩ :: ⟨path, ns⟩ :: fs, log ++ [rmChild path n]⟩
      | none => ⟨⟨path, ns⟩ :: fs, log ++ [rmChild path n]⟩
    else ⟨⟨path, ns⟩ :: fs, log ++ [rmChild path n]⟩

/-- A directory opens with entries it has: some may have been removed since. -/
def Opens (F : Dirs) (path : Name) (l : List Name) : Prop :=
  ∃ l', F.entries (normal path) = some l' ∧ ∀ n ∈ l, n ∈ l'

def Answer.Fits (F : Dirs) (a : Answer) : Walk → Prop
  | ⟨⟨path, n :: _⟩ :: _, _⟩ => ∀ l, a.opened = some l → Opens F (rmChild path n) l
  | _ => True

/-- The states the loop can be in, whichever removals fail. -/
inductive Reached (F : Dirs) (target : Name) : Walk → Prop
  | opened {l : List Name} (hopen : F.entries (normal target) = some l) :
      Reached F target ⟨[⟨target.take 255, l⟩], []⟩
  | step {w : Walk} {a : Answer} (hw : Reached F target w) (ha : a.Fits F w) : Reached F target (rmStep a w)

/-- Every path handed to `fs_remove` is the target or below it. -/
def StaysInside (F : Dirs) (target : Name) : Prop :=
  ∀ w, Reached F target w → ∀ p ∈ w.log, Inside target p

/-- All entries lead back to the target when they are joined to a path. -/
def Turns (target path : Name) (l : List Name) : Prop :=
  ∀ n ∈ l, rmDotSkip n = false → normal (path ++ 47 :: n) = normal target

/-- No path that the cut at 150 bytes makes of the target's entries leads out of it. -/
def Confined (F : Dirs) (target : Name) : Prop :=
  ∀ l, F.entries (normal target) = some l →
    (150 < target.length → Turns target (target.take 150) l) ∧
    (target.length = 147 → ∀ n ∈ l, lit ".." <+: n → n ≠ lit ".." →
      ∀ l', F.entries (normal target ++ [n]) = some l' →
        Turns target (target ++ lit "/..") l' ∧
          ((∃ m ∈ l', rmDotSkip m = false) → Turns target (target ++ lit "/..") l))

variable {F : Dirs} {target path n : Name} {l ns : List Name}

theorem proper_of_entry (hopen : Opens F path l) (hn : n ∈ l) (hdot : rmDotSkip n = false) : Proper n := by
  obtain ⟨l', hl', hsub⟩ := hopen
  obtain ⟨hne, hslash, -⟩ := F.names hl' n (hsub n hn)
  rw [rmDotSkip, Bool.or_eq_false_iff, beq_eq_false_iff_ne, beq_eq_false_iff_ne] at hdot
  exact ⟨hne, hslash, hdot.1, hdot.2⟩

theorem rmChild_eq (hopen : Opens F path l) (hn : n ∈ l) (p : Name) : rmChild p n = p.take 150 ++ 47 :: n := by
  obtain ⟨l', hl', hsub⟩ := hopen
  obtain ⟨-, -, hlen⟩ := F.names hl' n (hsub n hn)
  have hall : n.take 80 = n := take_of_length_le (by omega)
  rw [rmChild, hall]

theorem take_child (p n : Name) (h : 150 ≤ p.length) : (p.take 150 ++ 47 :: n).take 150 = p.take 150 :=
  take_left' (by rw [length_take]; omega)

theorem take_up (hlen : path.length = 147) (hup : lit ".." <+: n) :
    (path ++ 47 :: n).take 150 = path ++ lit "/.." := by
  obtain ⟨r, rfl⟩ := hup
  have hassoc : path ++ 47 :: (lit ".." ++ r) = (path ++ lit "/..") ++ r := by simp [lit]
  rw [hassoc]
  refine take_left' ?_
  rw [length_append, hlen]
  rfl

/-- The cut of a path leads into the target, and short paths lead strictly below it. -/
structure Below (target path : Name) : Prop where
  cut : Inside target (path.take 150)
  strict : path.length < 150 → path = target ∨ normal path ≠ normal target

theorem inside_child (p : Name) (h : Inside target p) (hn : Proper n) : Inside target (p ++ 47 :: n) := by
  rw [Inside, normal_proper p hn]
  exact h.trans (prefix_append _ _)

theorem inside_dropLast (h : Inside target path) (hne : normal path ≠ normal target) :
    normal target <+: (normal path).dropLast := by
  obtain ⟨t, ht⟩ := h
  have htne : t ≠ [] := by
    rintro rfl
    exact hne (by rw [← ht, append_nil])
  rw [← ht, dropLast_append_of_ne_nil htne]
  exact prefix_append _ _

/-- Only an entry of the target itself whose name begins with two dots is cut to
a path that leads out of it. -/
theorem below_child (hb : Below target path) (hn : Proper n) :
    Below target (path.take 150 ++ 47 :: n) ∨ path = target ∧ target.length = 147 ∧ lit ".." <+: n := by
  by_cases hlong : 150 ≤ path.length
  · refine .inl ⟨by rw [take_child _ _ hlong]; exact hb.cut, fun hlt => ?_⟩
    rw [length_append, length_take, length_cons] at hlt
    omega
  have hall : path.take 150 = path := take_of_length_le (by omega)
  have hin := hb.cut
  rw [hall] at hin ⊢
  have hstrict : (path ++ 47 :: n).length < 150 → path ++ 47 :: n = target ∨ normal (path ++ 47 :: n) ≠ normal target := by
    refine fun _ => .inr fun heq => ?_
    have hle := hin.length_le
    rw [← heq, normal_proper _ hn, length_append, length_singleton] at hle
    omega
  obtain ⟨k, hk⟩ : ∃ k, k = 149 - path.length := ⟨_, rfl⟩
  have hcut : (path ++ 47 :: n).take 150 = path ++ 47 :: n.take k := by
    rw [take_append, take_of_length_le (by omega), show 150 - path.length = k + 1 by omega, take_succ_cons]
  have hslash : 47 ∉ n.take k := fun h => hn.no_slash (mem_of_mem_take h)
  by_cases hup : n.take k = lit ".."
  · by_cases heq : normal path = normal target
    · rcases hb.strict (by omega) with rfl | hne
      · have hlen : k = 2 := by
          have hlen2 := congrArg length hup
          rw [length_take] at hlen2
          have hshort : ¬ n.length ≤ k := fun hle => hn.not_up (by rwa [take_of_length_le hle] at hup)
          have htwo : (lit "..").length = 2 := rfl
          omega
        exact .inr ⟨rfl, by omega, hup ▸ take_prefix k n⟩
      · exact absurd heq hne
    · refine .inl ⟨?_, hstrict⟩
      rw [hcut, Inside, normal_child _ hslash, hup, resolve_up]
      exact inside_dropLast hin heq
  · refine .inl ⟨?_, hstrict⟩
    rw [hcut, Inside, normal_child _ hslash, resolve]
    split
    · exact hin
    · exact hin.trans (prefix_append _ _)

/-- All entries lead back to the target, where the same entries are met. -/
structure Sealed (F : Dirs) (target : Name) (f : Frame) : Prop where
  long : 150 ≤ f.path.length
  turns : Turns target (f.path.take 150) f.rest
  again : (∃ m ∈ f.rest, rmDotSkip m = false) →
    ∀ l, F.entries (normal target) = some l → Turns target (f.path.take 150) l

/-- What the loop keeps of every open directory. -/
structure Held (F : Dirs) (target : Name) (f : Frame) : Prop where
  inside : Inside target f.path
  opens : Opens F f.path f.rest
  confined : Below target f.path ∨ Sealed F target f

theorem held_tail (h : Held F target ⟨path, n :: ns⟩) : Held F target ⟨path, ns⟩ := by
  obtain ⟨l', hl', hsub⟩ := h.opens
  refine ⟨h.inside, ⟨l', hl', fun m hm => hsub m (mem_cons_of_mem n hm)⟩, h.confined.imp_right fun hs => ?_⟩
  exact ⟨hs.long, fun m hm => hs.turns m (mem_cons_of_mem n hm),
    fun ⟨m, hm, hdot⟩ => hs.again ⟨m, mem_cons_of_mem n hm, hdot⟩⟩

theorem inside_rmChild (h : Held F target ⟨path, n :: ns⟩) (hdot : rmDotSkip n = false) :
    Inside target (rmChild path n) := by
  have hn : n ∈ n :: ns := mem_cons_self
  rw [rmChild_eq h.opens hn]
  rcases h.confined with hb | hs
  · exact inside_child _ hb.cut (proper_of_entry h.opens hn hdot)
  · rw [Inside, hs.turns n hn hdot]

theorem held_rmChild (hc : Confined F target) (h : Held F target ⟨path, n :: ns⟩) (hdot : rmDotSkip n = false)
    (hopen : Opens F (rmChild path n) l) : Held F target ⟨rmChild path n, l⟩ := by
  have hn : n ∈ n :: ns := mem_cons_self
  have hproper := proper_of_entry h.opens hn hdot
  refine ⟨inside_rmChild h hdot, hopen, ?_⟩
  rw [rmChild_eq h.opens hn] at hopen ⊢
  obtain ⟨l', hl', hsub⟩ := hopen
  have hconf : Below target path ∨ Sealed F target ⟨path, n :: ns⟩ := h.confined
  rcases hconf with hb | hs
  · rcases below_child hb hproper with hbelow | ⟨rfl, hlen, hup⟩
    · exact .inl hbelow
    · -- the child is cut to the parent of the target
      have hall : path.take 150 = path := take_of_length_le (by omega)
      rw [hall] at hl' ⊢
      rw [normal_proper _ hproper] at hl'
      obtain ⟨l₀, hl₀, hsub₀⟩ := h.opens
      obtain ⟨hturns, hagain⟩ := (hc l₀ hl₀).2 hlen n (hsub₀ n hn) hup hproper.not_up l' hl'
      have hcut := take_up hlen hup
      refine .inr ⟨?_, ?_, ?_⟩
      · have htwo := hup.length_le
        have hdots : (lit "..").length = 2 := rfl
        rw [length_append, length_cons]
        omega
      · rw [hcut]
        exact fun m hm => hturns m (hsub m hm)
      · rintro ⟨m, hm, hmdot⟩ l₁ hl₁
        cases hl₀.symm.trans hl₁
        rw [hcut]
        exact hagain ⟨m, hsub m hm, hmdot⟩
  · have hagain := hs.again ⟨n, hn, hdot⟩
    rw [hs.turns n hn hdot] at hl'
    refine .inr ⟨?_, ?_, ?_⟩
    · have hlong : 150 ≤ path.length := hs.long
      rw [length_append, length_take]
      omega
    · rw [take_child _ _ hs.long]
      exact fun m hm => hagain l' hl' m (hsub m hm)
    · rw [take_child _ _ hs.long]
      exact fun _ => hagain

structure WalkHeld (F : Dirs) (target : Name) (w : Walk) : Prop where
  stack : ∀ f ∈ w.stack, Held F target f
  log : ∀ p ∈ w.log, Inside target p

theorem held_step (hc : Confined F target) {w : Walk} {a : Answer} (hw : WalkHeld F target w) (ha : a.Fits F w) :
    WalkHeld F target (rmStep a w) := by
  obtain ⟨stack, log⟩ := w
  obtain ⟨hstack, hlog⟩ := hw
  cases stack with
  | nil => exact ⟨hstack, hlog⟩
  | cons f fs =>
    obtain ⟨path, rest⟩ := f
    obtain ⟨hf, hfs⟩ := forall_mem_cons.mp hstack
    cases rest with
    | nil => exact ⟨hfs, forall_mem_append.mpr ⟨hlog, forall_mem_singleton.mpr hf.inside⟩⟩
    | cons n ns =>
      have hrest : ∀ f ∈ (⟨path, ns⟩ : Frame) :: fs, Held F target f :=
        forall_mem_cons.mpr ⟨held_tail hf, hfs⟩
      rw [rmStep]
      split
      · exact ⟨hrest, hlog⟩
      next hdot =>
        rw [Bool.not_eq_true] at hdot
        have hlog' : ∀ p ∈ log ++ [rmChild path n], Inside target p :=
          forall_mem_append.mpr ⟨hlog, forall_mem_singleton.mpr (inside_rmChild hf hdot)⟩
        split
        · exact ⟨hrest, hlog'⟩
        · split
          · split
            next hopen => exact ⟨forall_mem_cons.mpr ⟨held_rmChild hc hf hdot (ha _ hopen), hrest⟩, hlog'⟩
            · exact ⟨hrest, hlog'⟩
          · exact ⟨hrest, hlog'⟩

theorem held_reached (hlen : target.length ≤ 255) (hc : Confined F target) {w : Walk} (hw : Reached F target w) :
    WalkHeld F target w := by
  induction hw with
  | opened hopen =>
    rw [take_of_length_le hlen]
    refine ⟨forall_mem_singleton.mpr ⟨prefix_rfl, ⟨_, hopen, fun _ hn => hn⟩, ?_⟩, nofun⟩
    by_cases hlong : 150 < target.length
    · have hturns := (hc _ hopen).1 hlong
      refine .inr ⟨le_of_lt hlong, hturns, fun _ l hl => ?_⟩
      cases hopen.symm.trans hl
      exact hturns
    · have hall : target.take 150 = target := take_of_length_le (by omega)
      refine .inl ⟨?_, fun _ => .inl rfl⟩
      rw [hall]
      exact prefix_rfl
  | step _ ha ih => exact held_step hc ih ha

section Necessary

variable {fs : List Frame} {log : List Name}

theorem reached_entry {before after : List Name} (h : Reached F target ⟨⟨path, before ++ n :: after⟩ :: fs, log⟩) :
    ∃ log', Reached F target ⟨⟨path, n :: after⟩ :: fs, log'⟩ := by
  induction before generalizing log with
  | nil => exact ⟨log, h⟩
  | cons m ms ih =>
    have hstep := h.step (a := ⟨true, false, none⟩) nofun
    rw [cons_append, rmStep] at hstep
    split at hstep
    · exact ih hstep
    · exact ih hstep

theorem inside_of_staysInside (hstay : StaysInside F target) (h : Reached F target ⟨⟨path, l⟩ :: fs, log⟩)
    (hn : n ∈ l) (hdot : rmDotSkip n = false) : Inside target (rmChild path n) := by
  obtain ⟨before, after, rfl⟩ := append_of_mem hn
  obtain ⟨log', h'⟩ := reached_entry h
  have hstep := h'.step (a := ⟨true, false, none⟩) nofun
  refine hstay _ hstep _ ?_
  simp [rmStep, hdot]

theorem reached_child (h : Reached F target ⟨⟨path, l⟩ :: fs, log⟩) (hn : n ∈ l) (hdot : rmDotSkip n = false)
    (hdepth : fs.length < 15) {l' : List Name} (hopen : F.entries (normal (rmChild path n)) = some l') :
    ∃ fs' log', fs'.length = fs.length + 1 ∧ Reached F target ⟨⟨rmChild path n, l'⟩ :: fs', log'⟩ := by
  obtain ⟨before, after, rfl⟩ := append_of_mem hn
  obtain ⟨log', h'⟩ := reached_entry h
  have hfits : Answer.Fits F ⟨false, true, some l'⟩ ⟨⟨path, n :: after⟩ :: fs, log'⟩ := by
    intro l'' hl''
    cases hl''
    exact ⟨l', hopen, fun _ hm => hm⟩
  have hstep := h'.step hfits
  refine ⟨⟨path, after⟩ :: fs, log' ++ [rmChild path n], rfl, ?_⟩
  simpa [rmStep, hdot, hdepth] using hstep

theorem turns_of_cut (ht : Absolute target) (hlong : 150 < target.length) (hn : Proper n)
    (hin : Inside target (target.take 150 ++ 47 :: n)) : normal (target.take 150 ++ 47 :: n) = normal target := by
  rcases ht with rfl | ⟨segs, -, hsegs, rfl⟩
  · simp at hlong
  obtain ⟨cut, hcut⟩ : ∃ cut, cut = (rooted segs).take 150 := ⟨_, rfl⟩
  have hlen : cut.length = 150 := by
    rw [hcut, length_take]
    omega
  rw [Inside, normal_rooted hsegs, normal_proper _ hn, ← hcut] at hin
  rw [normal_rooted hsegs, normal_proper _ hn, ← hcut]
  rcases cut_rooted (hcut ▸ take_prefix 150 (rooted segs)) with hnil | ⟨A, s, B, t, rfl, hts, hcut'⟩
  · rw [hnil] at hlen
    cases hlen
  have hA : ∀ s ∈ A, Proper s := fun s hs => hsegs s (by simp [hs])
  have hslash : 47 ∉ t := fun h => (hsegs s (by simp)).no_slash (hts.subset h)
  have hnormal : normal cut = resolve A t := by rw [hcut', normal_child _ hslash, normal_rooted hA]
  refine (List.IsPrefix.eq_of_length_le hin ?_).symm
  rw [hnormal] at hin ⊢
  rw [length_append, length_append, length_singleton, length_cons]
  by_cases hdot : t = [] ∨ t = lit "."
  · rw [resolve, if_pos hdot]
    omega
  by_cases hup : t = lit ".."
  · rw [hup, resolve_up, length_dropLast]
    omega
  -- the last name of the cut is whole, so at least one more name was cut off
  rw [resolve, if_neg hdot, if_neg hup] at hin ⊢
  rw [append_assoc, prefix_append_right_inj, singleton_append, cons_prefix_cons] at hin
  obtain ⟨rfl, hB⟩ := hin
  have hne : B ≠ [] := by
    rintro rfl
    rw [rooted_concat, ← hcut'] at hlong
    omega
  have hpos := length_pos_of_ne_nil hne
  rw [length_append, length_singleton]
  omega

theorem turns_of_parent (ht : Absolute target) (hlen : target.length = 147) (hn : Proper n)
    (hin : Inside target (target ++ lit "/.." ++ 47 :: n)) :
    normal (target ++ lit "/.." ++ 47 :: n) = normal target := by
  have hparent : normal (target ++ lit "/..") = (normal target).dropLast := by
    have hup : target ++ lit "/.." = target ++ 47 :: lit ".." := rfl
    rw [hup, normal_child _ (by decide), resolve_up]
  have hne : normal target ≠ [] := by
    rcases ht with rfl | ⟨segs, hne, hsegs, rfl⟩
    · simp at hlen
    · rwa [normal_rooted hsegs]
  have hpos := length_pos_of_ne_nil hne
  refine (List.IsPrefix.eq_of_length_le hin ?_).symm
  rw [normal_proper _ hn, hparent, length_append, length_dropLast, length_singleton]
  omega

theorem turns_of_reached (ht : Absolute target) (hlen : target.length = 147) (hstay : StaysInside F target)
    (h : Reached F target ⟨⟨path, l⟩ :: fs, log⟩) (hcut : path.take 150 = target ++ lit "/..")
    (hopen : F.entries (normal path) = some l) : Turns target (target ++ lit "/..") l := by
  intro n hn hdot
  have hopens : Opens F path l := ⟨l, hopen, fun _ hm => hm⟩
  have hin := inside_of_staysInside hstay h hn hdot
  rw [rmChild_eq hopens hn, hcut] at hin
  exact turns_of_parent ht hlen (proper_of_entry hopens hn hdot) hin

theorem confined_of_staysInside (ht : Absolute target) (hmax : target.length ≤ 255) (hstay : StaysInside F target) :
    Confined F target := by
  intro l hl
  have hopens : Opens F target l := ⟨l, hl, fun _ hm => hm⟩
  have hstart : Reached F target ⟨[⟨target, l⟩], []⟩ := by
    have hopened := Reached.opened hl
    rwa [take_of_length_le hmax] at hopened
  refine ⟨fun hlong n hn hdot => ?_, fun hlen n hn hup hne l' hl' => ?_⟩
  · have hin := inside_of_staysInside hstay hstart hn hdot
    rw [rmChild_eq hopens hn] at hin
    exact turns_of_cut ht hlong (proper_of_entry hopens hn hdot) hin
  have hdot : rmDotSkip n = false := by
    rw [rmDotSkip, Bool.or_eq_false_iff, beq_eq_false_iff_ne, beq_eq_false_iff_ne]
    refine ⟨?_, hne⟩
    rintro rfl
    exact absurd hup (by decide)
  have hproper := proper_of_entry hopens hn hdot
  have hall : target.take 150 = target := take_of_length_le (by omega)
  have hchild : rmChild target n = target ++ 47 :: n := by rw [rmChild_eq hopens hn, hall]
  have hl'' : F.entries (normal (rmChild target n)) = some l' := by rw [hchild, normal_proper _ hproper, hl']
  have hcut : (rmChild target n).take 150 = target ++ lit "/.." := by
    rw [hchild, take_up hlen hup]
  obtain ⟨fs, log, hfs, hreached⟩ := reached_child hstart hn hdot (by simp) hl''
  have hturns := turns_of_reached ht hlen hstay hreached hcut hl''
  refine ⟨hturns, ?_⟩
  -- an entry named as the target leads to the target again, this time by way of its parent
  rintro ⟨m, hm, hmdot⟩
  have hopens' : Opens F (rmChild target n) l' := ⟨l', hl'', fun _ h => h⟩
  have hback := rmChild_eq hopens' hm (rmChild target n)
  have hl₀ : F.entries (normal (rmChild (rmChild target n) m)) = some l := by
    rw [hback, hcut, hturns m hm hmdot, hl]
  obtain ⟨fs', log', -, hreached'⟩ := reached_child hreached hm hmdot (by rw [hfs]; simp) hl₀
  refine turns_of_reached ht hlen hstay hreached' ?_ hl₀
  have hlong : 150 ≤ (rmChild target n).length := by
    have := congrArg length hcut
    have hthree : (lit "/..").length = 3 := rfl
    rw [length_take, length_append] at this
    omega
  rw [hback, take_child _ _ hlong, hcut]

end Necessary

/-- Recursive deletion stays inside its target if and only if the cut at 150 bytes
makes no path of the target's own entries that leads out of it. -/
theorem rmRecursive_staysInside_iff (ht : Absolute target) (hmax : target.length ≤ 255) :
    StaysInside F target ↔ Confined F target :=
  ⟨confined_of_staysInside ht hmax, fun hc _ hw => (held_reached hmax hc hw).log⟩

/-- Two directories beside each other, the name of one being the beginning of the other's. -/
def beside : Dirs where
  entries p :=
    if p = [replicate 100 97, replicate 60 98] ∨ p = [replicate 100 97, replicate 48 98] then
      some [lit "x"]
    else none
  names h n hn := by
    split at h
    · cases h
      obtain rfl := mem_singleton.mp hn
      decide
    · cases h

def longTarget : Name := rooted [replicate 100 97, replicate 60 98]

def shortTarget : Name := rooted [replicate 100 97, replicate 48 98]

theorem rmRecursive_staysInside_shortTarget : StaysInside beside shortTarget := by
  have hlen : shortTarget.length = 150 := by decide +kernel
  have hproper : ∀ s ∈ [replicate 100 97, replicate 48 98], Proper s := by
    intro s hs
    simp only [mem_cons, not_mem_nil, or_false] at hs
    rcases hs with rfl | rfl <;> exact ⟨by decide, by decide, by decide, by decide⟩
  have habs : Absolute shortTarget := .inr ⟨_, by simp, hproper, rfl⟩
  refine (rmRecursive_staysInside_iff habs (by omega)).mpr fun l _ => ⟨fun h => ?_, fun h => ?_⟩ <;> omega

/-- Of the longer directory's entry, the path of the other's is made. -/
theorem rmRecursive_leaves_target :
    ∃ w, Reached beside longTarget w ∧ shortTarget ++ lit "/x" ∈ w.log ∧ ¬ Inside longTarget (shortTarget ++ lit "/x") := by
  have hopen : beside.entries (normal longTarget) = some [lit "x"] := by decide +kernel
  have hstep := (Reached.opened hopen).step (a := ⟨true, false, none⟩) nofun
  refine ⟨_, hstep, ?_, ?_⟩
  · decide +kernel
  · rw [Inside]
    decide +kernel

end Spangap.RemoveTree
