import Spangap.GzReader

namespace Spangap.ReaderCuts

open List Bytes Codec Crc32 TarReader GzReader

section Head

variable {ι κ : Type} {r : Reader ι κ} {a b : List UInt8}

def Headed (r : Reader ι κ) : Prop := r.err ≠ .ok ∨ r.gz = .deflate ∨ r.gz = .footer
  deriving Decidable

def HeadReady (r : Reader ι κ) : Prop := r.gz = .extra → 0 < r.extraLeft

theorem afterComment_ne (flags : UInt8) : afterComment flags ≠ .extra ∧ afterComment flags ≠ .footer := by
  unfold afterComment
  split <;> simp

theorem afterName_ne (flags : UInt8) : afterName flags ≠ .extra ∧ afterName flags ≠ .footer := by
  unfold afterName
  split
  · simp
  · exact afterComment_ne flags

theorem afterExtra_ne (flags : UInt8) : afterExtra flags ≠ .extra ∧ afterExtra flags ≠ .footer := by
  unfold afterExtra
  split
  · simp
  · exact afterName_ne flags

theorem afterFixed_ne (flags : UInt8) : afterFixed flags ≠ .extra ∧ afterFixed flags ≠ .footer := by
  unfold afterFixed
  split
  · simp
  · exact afterExtra_ne flags

/-- The header loop only touches its own fields. -/
structure SameBody (r s : Reader ι κ) : Prop where
  inf : s.inf = r.inf
  dictOfs : s.dictOfs = r.dictOfs
  hold : s.hold = r.hold
  crc : s.crc = r.crc
  rawLen : s.rawLen = r.rawLen
  tar : s.tar = r.tar

/-- What every turn of the loop keeps. -/
structure Turned (r s : Reader ι κ) : Prop extends SameBody r s where
  ready : HeadReady r → HeadReady s
  unfooted : r.gz ≠ .footer → s.gz ≠ .footer

theorem Turned.refl (r : Reader ι κ) : Turned r r := ⟨⟨rfl, rfl, rfl, rfl, rfl, rfl⟩, id, id⟩

theorem Turned.trans {r s t : Reader ι κ} (h : Turned r s) (h' : Turned s t) : Turned r t :=
  ⟨⟨h'.inf.trans h.inf, h'.dictOfs.trans h.dictOfs, h'.hold.trans h.hold, h'.crc.trans h.crc, h'.rawLen.trans h.rawLen,
    h'.tar.trans h.tar⟩, h'.ready ∘ h.ready, h'.unfooted ∘ h.unfooted⟩

theorem turned_on {s : Reader ι κ} (hb : SameBody r s) (hs : s.gz ≠ .extra ∧ s.gz ≠ .footer) : Turned r s :=
  ⟨hb, fun _ h => absurd h hs.1, fun _ => hs.2⟩

theorem turned_extra {s : Reader ι κ} (hb : SameBody r s) (hs : s.gz = if s.extraLeft ≠ 0 then .extra else afterExtra r.gzFlags) :
    Turned r s := by
  split at hs
  next hne => exact ⟨hb, fun _ _ => Nat.pos_of_ne_zero hne, fun _ => by simp [hs]⟩
  · exact turned_on hb (hs ▸ afterExtra_ne _)

theorem turn_turned (c : UInt8) (cs : List UInt8) : Turned r (gzTurn r c cs).1 := by
  have hbody : ∀ s : Reader ι κ, s = { r with
      gz := s.gz, gzBuf := s.gzBuf, gzFlags := s.gzFlags, extraLeft := s.extraLeft, err := s.err } → SameBody r s := by
    intro s hs
    rw [hs]
    exact ⟨rfl, rfl, rfl, rfl, rfl, rfl⟩
  unfold gzTurn
  split
  · dsimp only
    split
    · exact ⟨hbody _ rfl, id, id⟩
    · split
      · exact ⟨hbody _ rfl, id, id⟩
      · exact turned_on (hbody _ rfl) (afterFixed_ne _)
  · dsimp only
    split
    · exact ⟨hbody _ rfl, id, id⟩
    · exact turned_extra (hbody _ rfl) rfl
  · exact turned_extra (hbody _ rfl) rfl
  · refine turned_on (hbody _ rfl) ?_
    split
    · simp
    · exact afterName_ne _
  · refine turned_on (hbody _ rfl) ?_
    dsimp only
    split
    · simp
    · exact afterComment_ne _
  · dsimp only
    split
    · exact ⟨hbody _ rfl, id, id⟩
    · exact turned_on (hbody _ rfl) (by simp)
  · exact Turned.refl r
  · exact Turned.refl r

theorem turn_short (c : UInt8) (cs : List UInt8) (hr : HeadReady r) (hhead : ¬ (r.gz = .deflate ∨ r.gz = .footer)) :
    (gzTurn r c cs).2.length < (c :: cs).length := by
  have hone : cs.length < (c :: cs).length := Nat.lt_succ_self _
  unfold gzTurn
  split
  · dsimp only
    split
    · exact hone
    · split <;> exact hone
  · dsimp only
    split <;> exact hone
  next hs =>
    have hpos := hr hs
    rw [length_drop, length_cons]
    omega
  · exact hone
  · exact hone
  · dsimp only
    split <;> exact hone
  next hs => exact absurd (.inl hs) hhead
  next hs => exact absurd (.inr hs) hhead

theorem turn_append (c : UInt8) (cs : List UInt8) (h : r.gz = .extra → r.extraLeft ≤ (c :: cs).length) :
    gzTurn r c (cs ++ b) = ((gzTurn r c cs).1, (gzTurn r c cs).2 ++ b) := by
  unfold gzTurn
  split
  · dsimp only
    split
    · rfl
    · split <;> rfl
  · dsimp only
    split <;> rfl
  next hs =>
    have hle := h hs
    have hle' : r.extraLeft ≤ (c :: (cs ++ b)).length := by
      rw [length_cons] at hle ⊢
      rw [length_append]
      omega
    dsimp only
    rw [min_eq_right hle, min_eq_right hle', ← cons_append, drop_append_of_le_length hle]
  · rfl
  · rfl
  · dsimp only
    split <;> rfl
  · rfl
  · rfl

theorem gzTurns_fuel (hr : HeadReady r) {f g : Nat} (hf : a.length ≤ f) (hg : a.length ≤ g) : gzTurns f r a = gzTurns g r a := by
  induction f generalizing r a g with
  | zero =>
    obtain rfl : a = [] := length_eq_zero_iff.mp (Nat.le_zero.mp hf)
    cases g <;> rfl
  | succ f ih =>
    cases a with
    | nil => cases g <;> rfl
    | cons c cs =>
      cases g with
      | zero => simp at hg
      | succ g =>
        rw [gzTurns, gzTurns]
        split
        · rfl
        next hhead =>
          have hshort := turn_short c cs hr hhead
          dsimp only
          split
          · rfl
          · exact ih ((turn_turned c cs).ready hr) (by omega) (by omega)

theorem header_nil : gzHeader r [] = (r, []) := rfl

theorem header_done (h : r.gz = .deflate ∨ r.gz = .footer) (a : List UInt8) : gzHeader r a = (r, a) := by
  cases a with
  | nil => rfl
  | cons c cs => rw [gzHeader, gzTurns, if_pos h]

theorem header_cons (hr : HeadReady r) (hhead : ¬ (r.gz = .deflate ∨ r.gz = .footer)) (c : UInt8) (cs : List UInt8) :
    gzHeader r (c :: cs) =
      if (gzTurn r c cs).1.err ≠ .ok then gzTurn r c cs else gzHeader (gzTurn r c cs).1 (gzTurn r c cs).2 := by
  have hshort := turn_short c cs hr hhead
  rw [gzHeader, gzTurns, if_neg hhead]
  dsimp only
  split
  · rfl
  · exact gzTurns_fuel ((turn_turned c cs).ready hr) (by omega) (by omega)

theorem gzTurns_turned (fuel : Nat) (r : Reader ι κ) (a : List UInt8) : Turned r (gzTurns fuel r a).1 := by
  induction fuel generalizing r a with
  | zero => exact Turned.refl r
  | succ fuel ih =>
    cases a with
    | nil => exact Turned.refl r
    | cons c cs =>
      rw [gzTurns]
      split
      · exact Turned.refl r
      · dsimp only
        split
        · exact turn_turned c cs
        · exact (turn_turned c cs).trans (ih _ _)

theorem header_turned (r : Reader ι κ) (a : List UInt8) : Turned r (gzHeader r a).1 := gzTurns_turned _ r a

theorem header_rest (hr : HeadReady r) (a : List UInt8) : Headed (gzHeader r a).1 ∨ (gzHeader r a).2 = [] := by
  induction h : a.length using Nat.strong_induction_on generalizing r a with
  | _ n ih =>
    by_cases hhead : r.gz = .deflate ∨ r.gz = .footer
    · rw [header_done hhead]
      exact .inl (.inr hhead)
    · cases a with
      | nil => exact .inr rfl
      | cons c cs =>
        have hshort := turn_short c cs hr hhead
        rw [header_cons hr hhead]
        split
        next hbad => exact .inl (.inl hbad)
        next hgood => exact ih _ (by omega) ((turn_turned c cs).ready hr) (gzTurn r c cs).2 rfl

theorem turn_extra (c : UInt8) (cs : List UInt8) (hs : r.gz = .extra) (hlt : (c :: cs).length < r.extraLeft) :
    gzTurn r c cs = ({ r with extraLeft := r.extraLeft - (c :: cs).length }, []) := by
  unfold gzTurn
  rw [hs]
  dsimp only
  rw [min_eq_left (le_of_lt hlt), if_pos (by omega), drop_length]

theorem turn_extra_append (c d : UInt8) (cs ds : List UInt8) (hs : r.gz = .extra) (hlt : (c :: cs).length < r.extraLeft) :
    gzTurn r c (cs ++ d :: ds) = gzTurn { r with extraLeft := r.extraLeft - (c :: cs).length } d ds := by
  unfold gzTurn
  rw [hs]
  dsimp only
  have hmin : min (c :: (cs ++ d :: ds)).length r.extraLeft =
      (c :: cs).length + min (d :: ds).length (r.extraLeft - (c :: cs).length) := by
    simp only [length_cons, length_append] at hlt ⊢
    omega
  rw [hmin, Nat.sub_add_eq, ← cons_append, drop_length_add_append]

theorem header_append (hr : HeadReady r) (hok : r.err = .ok) (a b : List UInt8) :
    gzHeader r (a ++ b) =
      if Headed (gzHeader r a).1 then ((gzHeader r a).1, (gzHeader r a).2 ++ b) else gzHeader (gzHeader r a).1 b := by
  induction h : a.length using Nat.strong_induction_on generalizing r a with
  | _ n ih =>
    by_cases hhead : r.gz = .deflate ∨ r.gz = .footer
    · rw [header_done hhead, header_done hhead, if_pos (.inr hhead)]
    have hnot : ¬ Headed r := not_or.mpr ⟨not_not.mpr hok, hhead⟩
    cases a with
    | nil => rw [header_nil, if_neg hnot, nil_append]
    | cons c cs =>
      cases b with
      | nil =>
        have hrest := header_rest hr (c :: cs)
        rw [append_nil, append_nil, header_nil]
        split
        · rfl
        next hgo => exact Prod.ext rfl (hrest.resolve_left hgo)
      | cons d ds =>
        rw [cons_append, header_cons hr hhead, header_cons hr hhead]
        by_cases hlong : r.gz = .extra ∧ (c :: cs).length < r.extraLeft
        · obtain ⟨hs, hlt⟩ := hlong
          -- The extra field goes on: the second piece is read as the rest of the first.
          rw [turn_extra_append c d cs ds hs hlt, turn_extra c cs hs hlt, if_neg (not_not.mpr hok), header_nil,
            if_neg (show ¬ Headed { r with extraLeft := r.extraLeft - (c :: cs).length } from hnot)]
          have hready : HeadReady { r with extraLeft := r.extraLeft - (c :: cs).length } := fun _ => Nat.sub_pos_of_lt hlt
          exact (header_cons hready hhead d ds).symm
        · rw [turn_append c cs (fun hs => Nat.not_lt.mp fun hlt => hlong ⟨hs, hlt⟩)]
          split
          next hbad => rw [if_pos (.inl hbad)]
          next hgood =>
            exact ih _ (h ▸ turn_short c cs hr hhead) ((turn_turned c cs).ready hr) (not_not.mp hgood) _ rfl

end Head

section Body

variable {ι κ : Type} {I : Inflater ι} (S : Streaming I) (cb : κ → Event → κ × Bool) (t₀ : Tar κ)

structure Sums (r : Reader ι κ) (o : List UInt8) : Prop where
  crc : r.crc = crc32 0 o
  rawLen : r.rawLen = o.length

/-- In the middle of the data: the decompressor has taken `x` and put out `o`. -/
structure Live (more : Bool) (x o : List UInt8) (r : Reader ι κ) : Prop where
  err : r.err = .ok
  gz : r.gz = .deflate
  tar : tarConsume cb t₀ o = (r.tar, .ok)
  sums : Sums r o
  rep : S.Rep more r.inf x o
  room : r.dictOfs < dictSize

def Follows (more : Bool) (x : List UInt8) (r : Reader ι κ) : Prop :=
  r.tar = (tarConsume cb t₀ (S.plain more x)).1 ∧
    if (tarConsume cb t₀ (S.plain more x)).2 ≠ .ok then r.err = (tarConsume cb t₀ (S.plain more x)).2
    else
      match S.verdict more x with
      | .failed => r.err = .deflate
      | .done => r.err = .ok ∧ r.gz = .footer ∧ Sums r (S.plain more x)
      | .wants => r.err = .ok ∧ r.gz = .deflate ∧ (more = true → Live S cb t₀ true x (S.plain more x) r)

variable {S cb t₀} {more : Bool} {x o p : List UInt8} {r : Reader ι κ}

theorem deliver_spec (hcb : Smooth cb) (ht : Ready t₀) (htar : tarConsume cb t₀ o = (r.tar, .ok)) (hsums : Sums r o) (herr : r.err = .ok)
    (hroom : r.dictOfs < dictSize) (out : List UInt8) :
    (deliver cb r out).tar = (tarConsume cb t₀ (o ++ out)).1 ∧ (deliver cb r out).err = (tarConsume cb t₀ (o ++ out)).2 ∧
      Sums (deliver cb r out) (o ++ out) ∧ (deliver cb r out).dictOfs < dictSize ∧ (deliver cb r out).gz = r.gz ∧
      (deliver cb r out).inf = r.inf ∧ (deliver cb r out).hold = r.hold := by
  rw [consume_append hcb ht, htar, if_neg (by simp)]
  unfold deliver
  split
  next hnil =>
    subst hnil
    rw [consume_nil, append_nil]
    exact ⟨rfl, herr, hsums, hroom, rfl, rfl, rfl⟩
  · refine ⟨rfl, ?_, ⟨?_, ?_⟩, ?_, rfl, rfl, rfl⟩
    · dsimp only
      split
      · rfl
      next hgood => exact herr.trans (not_not.mp hgood).symm
    · rw [crc32_append, hsums.crc]
    · dsimp only
      rw [length_append, hsums.rawLen]
    · dsimp only
      split
      · exact hroom
      · exact Nat.mod_lt _ (by decide)

theorem consume_bad (hcb : Smooth cb) (ht : Ready t₀) {o o' : List UInt8} (hpre : o <+: o') (hbad : (tarConsume cb t₀ o).2 ≠ .ok) :
    tarConsume cb t₀ o' = tarConsume cb t₀ o := by
  obtain ⟨w, rfl⟩ := hpre
  rw [consume_append hcb ht, if_pos hbad]

theorem call_spec {m : Bool} (hrep : S.Rep m r.inf x o) (hcase : more = true ∧ m = true ∨ more = false ∧ p = []) {room : Nat} (hroom : 0 < room) :
    Answers S.plain S.verdict more x o p (I.decompress r.inf p room more) ∧
      ((I.decompress r.inf p room more).status = .needsMoreInput ∨ (I.decompress r.inf p room more).status = .hasMoreOutput →
        S.Rep more (I.decompress r.inf p room more).state (x ++ p.take (I.decompress r.inf p room more).used)
          (o ++ (I.decompress r.inf p room more).out)) := by
  rcases hcase with ⟨rfl, rfl⟩ | ⟨rfl, rfl⟩
  · exact ⟨S.feed _ _ _ _ _ hrep hroom, S.fed _ _ _ _ _ hrep hroom⟩
  · refine ⟨S.close _ _ _ _ _ hrep hroom, fun h => ?_⟩
    rw [take_nil, append_nil]
    exact S.closing _ _ _ _ _ hrep hroom h

theorem follows_settled (hplain : o = S.plain more x) (htar : tarConsume cb t₀ o = (r.tar, .ok)) :
    Follows S cb t₀ more x r ↔
      match S.verdict more x with
      | .failed => r.err = .deflate
      | .done => r.err = .ok ∧ r.gz = .footer ∧ Sums r o
      | .wants => r.err = .ok ∧ r.gz = .deflate ∧ (more = true → Live S cb t₀ true x o r) := by
  subst hplain
  unfold Follows
  rw [htar, if_neg (by simp)]
  exact ⟨fun h => h.2, fun h => ⟨rfl, h⟩⟩

theorem turns_follow (hcb : Smooth cb) (ht : Ready t₀) (fuel : Nat) {m : Bool} (hlive : Live S cb t₀ m x o r)
    (hcase : more = true ∧ m = true ∨ more = false ∧ p = []) (hfuel : I.credit r.inf + (I.rate + 1) * p.length < fuel) :
    Follows S cb t₀ more (x ++ p) (inflateTurns I cb more fuel r p).1 ∧ (inflateTurns I cb more fuel r p).1.hold = r.hold ∧
      ((inflateTurns I cb more fuel r p).1.err = .ok → (inflateTurns I cb more fuel r p).1.gz = .deflate →
        (inflateTurns I cb more fuel r p).2 = []) := by
  induction fuel generalizing m x o p r with
  | zero => exact absurd hfuel (Nat.not_lt_zero _)
  | succ fuel ih =>
    have hroom : 0 < dictSize - r.dictOfs := Nat.sub_pos_of_lt hlive.room
    obtain ⟨hans, hnext⟩ := call_spec hlive.rep hcase hroom
    have hless := fun hprog => fuel_less (I.used_le r.inf p (dictSize - r.dictOfs) more)
      (I.bounded r.inf p (dictSize - r.dictOfs) more) hprog hfuel
    rw [inflateTurns, if_neg (not_not.mpr hlive.gz)]
    generalize I.decompress r.inf p (dictSize - r.dictOfs) more = c at *
    dsimp only
    obtain ⟨htar, herr, hsums, hofs, hgz, hinf, hhold⟩ :=
      deliver_spec (r := { r with inf := c.state }) hcb ht hlive.tar ⟨hlive.sums.crc, hlive.sums.rawLen⟩ hlive.err hlive.room c.out
    generalize deliver cb { r with inf := c.state } c.out = r' at *
    have hpre : o ++ c.out <+: S.plain more (x ++ p) := by
      unfold Answers at hans
      split at hans
      · exact hans.1
      · exact hans.1 ▸ prefix_rfl
      · exact hans.1 ▸ prefix_rfl
      · exact hans.1 ▸ prefix_rfl
    split
    next hbad =>
      have hsame := consume_bad hcb ht hpre (herr ▸ hbad)
      refine ⟨?_, hhold, fun h => absurd h hbad⟩
      unfold Follows
      rw [hsame, if_pos (herr ▸ hbad)]
      exact ⟨htar, herr⟩
    next hgood =>
      have herr' : r'.err = .ok := not_not.mp hgood
      have htar' : tarConsume cb t₀ (o ++ c.out) = (r'.tar, .ok) := Prod.ext htar.symm (herr ▸ herr')
      have hlive' : c.status = .needsMoreInput ∨ c.status = .hasMoreOutput →
          Live S cb t₀ more (x ++ p.take c.used) (o ++ c.out) r' := fun h =>
        ⟨herr', hgz.trans hlive.gz, htar', hsums, hinf ▸ hnext h, hofs⟩
      have hgo : c.status = .needsMoreInput ∨ c.status = .hasMoreOutput → ¬ (c.used = 0 ∧ c.out = []) →
          Follows S cb t₀ more (x ++ p) (inflateTurns I cb more fuel r' (p.drop c.used)).1 ∧
            (inflateTurns I cb more fuel r' (p.drop c.used)).1.hold = r.hold ∧
            ((inflateTurns I cb more fuel r' (p.drop c.used)).1.err = .ok →
              (inflateTurns I cb more fuel r' (p.drop c.used)).1.gz = .deflate →
              (inflateTurns I cb more fuel r' (p.drop c.used)).2 = []) := by
        intro hst hprog
        have hcase' : more = true ∧ more = true ∨ more = false ∧ p.drop c.used = [] := by
          rcases hcase with ⟨hm, -⟩ | ⟨hm, hp⟩
          · exact .inl ⟨hm, hm⟩
          · exact .inr ⟨hm, by rw [hp, drop_nil]⟩
        have hmoved : c.used ≠ 0 ∨ c.out.length ≠ 0 := by
          rw [Ne, Ne, length_eq_zero_iff, ← not_and_or]
          exact hprog
        obtain ⟨hf, hh, hl⟩ := ih (hlive' hst) hcase' (by rw [hinf, length_drop]; exact hless hmoved)
        rw [append_assoc, take_append_drop] at hf
        exact ⟨hf, hh.trans hhold, hl⟩
      unfold Answers at hans
      cases hst : c.status with
      | done =>
        rw [hst] at hans
        obtain ⟨hplain, hverdict⟩ := hans
        refine ⟨(follows_settled (r := { r' with gz := .footer }) hplain htar').mpr ?_, hhold, by simp⟩
        rw [hverdict]
        exact ⟨herr', rfl, hsums.crc, hsums.rawLen⟩
      | failed =>
        rw [hst] at hans
        obtain ⟨hplain, hverdict⟩ := hans
        refine ⟨(follows_settled (r := { r' with err := .deflate }) hplain htar').mpr ?_, hhold, by simp⟩
        rw [hverdict]
      | needsMoreInput =>
        rw [hst] at hans
        obtain ⟨hplain, hverdict, hused⟩ := hans
        dsimp only
        split
        next hidle =>
          refine ⟨(follows_settled hplain htar').mpr ?_, hhold, fun _ _ => by rw [hused, drop_length]⟩
          rw [hverdict]
          refine ⟨herr', hgz.trans hlive.gz, fun hm => ?_⟩
          have := hlive' (.inl hst)
          rwa [hused, take_length, hm] at this
        next hprog => exact hgo (.inl hst) hprog
      | hasMoreOutput =>
        rw [hst] at hans
        dsimp only
        rw [if_neg (fun hidle => hans.2.elim (fun h => h hidle.1) (fun h => h hidle.2))]
        exact hgo (.inr hst) (fun hidle => hans.2.elim (fun h => h hidle.1) (fun h => h hidle.2))

theorem plain_append (S : Streaming I) (x w : List UInt8) : S.plain true x <+: S.plain true (x ++ w) := by
  by_cases hw : S.verdict true x = .wants
  · exact S.grows true x w hw
  · rw [(S.stays true x w hw).1]

theorem Follows.okay (hf : Follows S cb t₀ true x r) (herr : r.err = .ok) :
    tarConsume cb t₀ (S.plain true x) = (r.tar, .ok) ∧
      (S.verdict true x = .done ∧ r.gz = .footer ∧ Sums r (S.plain true x) ∨
        S.verdict true x = .wants ∧ Live S cb t₀ true x (S.plain true x) r) := by
  obtain ⟨htar, hf⟩ := hf
  split at hf
  next hbad => exact absurd (herr.symm.trans hf).symm hbad
  next hgood =>
    refine ⟨Prod.ext htar.symm (not_not.mp hgood), ?_⟩
    cases hv : S.verdict true x with
    | failed =>
      rw [hv] at hf
      exact absurd (hf.symm.trans herr) (by simp)
    | done =>
      rw [hv] at hf
      exact .inl ⟨rfl, hf.2⟩
    | wants =>
      rw [hv] at hf
      exact .inr ⟨rfl, hf.2.2 rfl⟩

theorem Follows.append (hcb : Smooth cb) (ht : Ready t₀) (hf : Follows S cb t₀ true x r) (hend : r.err ≠ .ok ∨ r.gz = .footer)
    (w : List UInt8) : Follows S cb t₀ true (x ++ w) r := by
  by_cases hbad : (tarConsume cb t₀ (S.plain true x)).2 = .ok
  · have hset : S.verdict true x ≠ .wants := by
      intro hv
      obtain ⟨-, hf⟩ := hf
      rw [if_neg (not_not.mpr hbad), hv] at hf
      rcases hend with h | h
      · exact h hf.1
      · exact absurd (hf.2.1.symm.trans h) (by simp)
    obtain ⟨hplain, hverdict⟩ := S.stays true x w hset
    unfold Follows at hf ⊢
    rw [hplain, hverdict]
    obtain ⟨htar, hf⟩ := hf
    refine ⟨htar, ?_⟩
    split
    next h => exact absurd hbad h
    next h =>
      rw [if_neg h] at hf
      cases hv : S.verdict true x with
      | failed =>
        rw [hv] at hf
        exact hf
      | done =>
        rw [hv] at hf
        exact hf
      | wants => exact absurd hv hset
  · unfold Follows at hf ⊢
    rw [consume_bad hcb ht (plain_append S x w) hbad]
    rw [if_pos hbad] at hf ⊢
    exact hf

theorem Follows.withHold (hf : Follows S cb t₀ more x r) (h : List UInt8) : Follows S cb t₀ more x { r with hold := h } := by
  obtain ⟨htar, hf⟩ := hf
  refine ⟨htar, ?_⟩
  split
  next hbad =>
    rw [if_pos hbad] at hf
    exact hf
  next hgood =>
    rw [if_neg hgood] at hf
    cases hv : S.verdict more x with
    | failed =>
      rw [hv] at hf
      exact hf
    | done =>
      rw [hv] at hf
      exact ⟨hf.1, hf.2.1, hf.2.2.crc, hf.2.2.rawLen⟩
    | wants =>
      rw [hv] at hf
      refine ⟨hf.1, hf.2.1, fun hm => ?_⟩
      obtain ⟨herr, hgz, htar, hsums, hrep, hroom⟩ := hf.2.2 hm
      exact ⟨herr, hgz, htar, ⟨hsums.crc, hsums.rawLen⟩, hrep, hroom⟩

theorem offer_follows (hcb : Smooth cb) (ht : Ready t₀) (hf : Follows S cb t₀ true x r) (herr : r.err = .ok) (p : List UInt8) :
    Follows S cb t₀ true (x ++ p) (offer I cb r p) := by
  unfold offer
  split
  next hnil =>
    rw [hnil, append_nil]
    exact hf
  next hne =>
    dsimp only
    obtain ⟨-, ⟨-, hgz, -⟩ | ⟨-, hlive⟩⟩ := hf.okay herr
    · have hstop : inflateSome I cb true r p = (r, p) := by
        rw [inflateSome, inflateTurns, if_pos (by rw [hgz]; simp)]
      rw [hstop, if_neg (not_not.mpr herr), if_neg (fun h => absurd (hgz.symm.trans h.2) (by simp))]
      exact hf.append hcb ht (.inr hgz) p
    · obtain ⟨hf', -, hleft⟩ := turns_follow hcb ht _ hlive
        (.inl ⟨rfl, rfl⟩ : true = true ∧ true = true ∨ true = false ∧ p = []) (Nat.lt_succ_self _)
      rw [← inflateSome] at hf' hleft
      split
      · exact hf'
      next hgood =>
        rw [if_neg (fun h => h.1 (hleft (not_not.mp hgood) h.2))]
        exact hf'

end Body

end Spangap.ReaderCuts
