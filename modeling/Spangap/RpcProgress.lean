import Mathlib.Data.List.DropRight
import Spangap.FramedRpc

namespace Spangap.RpcProgress

open List Option CJson CliSlot FramedRpc

variable {q : Request} {s t : State}

def jobWeight (chunks : List Name) : Nat := (chunks.map fun c => 2 * c.length + 1).sum + 1

def cliWeight : Cli → Nat
  | .pass rest => rest.length + 1
  | .run rest chunks _ => rest.length + 1 + jobWeight chunks
  | _ => 0

def weight (q : Request) (s : State) : Nat :=
  4 * ((line q).length - s.off) + 3 * s.toCli.length + cliWeight s.cli + s.fromCli.length +
    (if s.log = [] then jobWeight (q.prints (spoken q)) else 0) + if s.live then 1 else 0

def Working (s : State) : Prop :=
  match s.cli with
  | .pass _ => True
  | .run _ [] _ => True
  | .run _ (chunk :: _) _ => chunk = [] ∨ s.fromCli.length < fromSize
  | _ => s.live = true ∧ (s.toCli ≠ [] ∨ s.slot.pendingClose = true ∧ s.fromCli = [])

def replied (s : State) : Bool :=
  match s.relay with
  | .replied _ => true
  | _ => false

/-- How far the relay is from what the session waits for: the end, more output or
more of the line. -/
def relayDistance (s : State) : Nat :=
  match s.relay with
  | .send => if s.live then if s.fromCli = [] then 0 else 1 else 2
  | .recv => if s.live then if s.fromCli = [] then 2 else 0 else 1
  | .check => if s.live then if s.fromCli = [] then 1 else 2 else 0
  | .replied _ => 0

def cliDistance (s : State) : Nat := if s.cli = .top ∨ s.cli = .parked then 1 else 0

open Classical in
/-- The time that is left, as far as both tasks get their turns. -/
noncomputable def rank (q : Request) (s : State) : Nat :=
  3 * weight q s + if Working s then cliDistance s else relayDistance s

theorem relayDistance_le (s : State) : relayDistance s ≤ 2 := by
  unfold relayDistance
  split
  · split
    · split <;> omega
    · omega
  · split
    · split <;> omega
    · omega
  · split
    · split <;> omega
    · omega
  · omega

theorem cliDistance_le (s : State) : cliDistance s ≤ 1 := by
  unfold cliDistance
  split <;> omega

theorem rank_lt_of_weight (h : weight q t < weight q s) : rank q t < rank q s := by
  have hr := relayDistance_le t
  have hc := cliDistance_le t
  unfold rank
  split <;> omega

theorem rank_working (hs : Working s) : rank q s = 3 * weight q s + cliDistance s := by
  rw [rank, if_pos hs]

theorem rank_waiting (hs : ¬ Working s) : rank q s = 3 * weight q s + relayDistance s := by
  rw [rank, if_neg hs]

theorem relayStep_cases (q : Request) (s : State) (hs : replied s = false) :
    (∃ k, s.relay = .send ∧ k = (if s.live then min (toSize - s.toCli.length) ((line q).length - s.off) else 0) ∧
      relayStep q s = { s with
        relay := .recv, off := s.off + k, toCli := s.toCli ++ ((line q).drop s.off).take k
        notified := s.notified || decide (0 < k) }) ∨
    (s.relay = .recv ∧ s.fromCli = [] ∧ relayStep q s = { s with relay := .check }) ∨
    (s.relay = .recv ∧ s.fromCli ≠ [] ∧ ∃ out cut, relayStep q s = { s with fromCli := s.fromCli.drop 256, out := out, cut := cut }) ∨
    (s.relay = .check ∧ s.live = true ∧ relayStep q s = { s with relay := .send }) ∨
    s.relay = .check ∧ s.live = false ∧ replied (relayStep q s) = true := by
  cases hrelay : s.relay with
  | send =>
    refine .inl ⟨_, rfl, rfl, ?_⟩
    simp only [relayStep, hrelay]
  | recv =>
    refine .inr ?_
    rcases eq_or_ne s.fromCli [] with hfrom | hfrom
    · refine .inl ⟨rfl, hfrom, ?_⟩
      simp only [relayStep, hrelay, hfrom, if_true]
    · refine .inr (.inl ⟨rfl, hfrom, s.out ++ (s.fromCli.take 256).take (q.cap - s.out.length),
        s.cut || decide (q.cap - s.out.length < (s.fromCli.take 256).length), ?_⟩)
      simp only [relayStep, hrelay, if_neg hfrom]
  | check =>
    refine .inr (.inr (.inr ?_))
    cases hlive : s.live with
    | true =>
      refine .inl ⟨rfl, rfl, ?_⟩
      simp only [relayStep, hrelay, hlive, if_true]
    | false =>
      refine .inr ⟨rfl, rfl, ?_⟩
      simp [relayStep, hrelay, hlive, replied]
  | replied f => simp [replied, hrelay] at hs

theorem weight_send {x : Relay} {b : Bool} {k : Nat} (hk : k ≤ (line q).length - s.off) :
    weight q { s with relay := x, off := s.off + k, toCli := s.toCli ++ ((line q).drop s.off).take k, notified := b } + k =
      weight q s := by
  unfold weight
  dsimp only
  rw [length_append, length_take, length_drop]
  omega

theorem weight_recv {out : List UInt8} {cut : Bool} (hfrom : s.fromCli ≠ []) :
    weight q { s with fromCli := s.fromCli.drop 256, out := out, cut := cut } < weight q s := by
  have hpos := length_pos_iff.mpr hfrom
  unfold weight
  dsimp only
  rw [length_drop]
  omega

theorem working_mono (hs : Working s) (hcli : t.cli = s.cli) (hlive : t.live = s.live) (hslot : t.slot = s.slot)
    (hto : s.toCli ≠ [] → t.toCli ≠ []) (hfrom : t.fromCli.length ≤ s.fromCli.length) : Working t := by
  have hempty : s.fromCli = [] → t.fromCli = [] := by
    intro h
    rw [h, length_nil, Nat.le_zero] at hfrom
    exact length_eq_zero_iff.mp hfrom
  have hidle : (s.live = true ∧ (s.toCli ≠ [] ∨ s.slot.pendingClose = true ∧ s.fromCli = [])) →
      t.live = true ∧ (t.toCli ≠ [] ∨ t.slot.pendingClose = true ∧ t.fromCli = []) := by
    rw [hlive, hslot]
    exact .imp_right (.imp hto (.imp_right hempty))
  unfold Working at hs ⊢
  rw [hcli]
  cases hc : s.cli with
  | top | parked | visit =>
    rw [hc] at hs
    exact hidle hs
  | pass rest => trivial
  | run rest chunks hangup =>
    rw [hc] at hs
    cases chunks with
    | nil => trivial
    | cons chunk chunks => exact hs.imp_right fun h => lt_of_le_of_lt hfrom h

theorem relay_working (hs : Working s) (hnot : replied s = false) :
    replied (relayStep q s) = true ∨ Working (relayStep q s) ∧ rank q (relayStep q s) ≤ rank q s := by
  have hfree : ∀ {t : State}, Working t → t.cli = s.cli → weight q t ≤ weight q s → Working t ∧ rank q t ≤ rank q s := by
    intro t ht hcli hweight
    refine ⟨ht, ?_⟩
    rw [rank_working ht, rank_working hs, cliDistance, cliDistance, hcli]
    omega
  rcases relayStep_cases q s hnot with ⟨k, -, hk, heq⟩ | ⟨-, -, heq⟩ | ⟨-, hfrom, out, cut, heq⟩ | ⟨-, -, heq⟩ | ⟨-, -, hdone⟩
  · have hle : k ≤ (line q).length - s.off := by
      rw [hk]
      split <;> omega
    rw [heq]
    refine .inr (hfree (working_mono hs rfl rfl rfl (fun h => ?_) (le_rfl)) rfl ?_)
    · exact append_ne_nil_of_left_ne_nil h _
    · have := weight_send (s := s) (x := .recv) (b := s.notified || decide (0 < k)) hle
      omega
  · rw [heq]
    exact .inr (hfree (working_mono hs rfl rfl rfl id (le_rfl)) rfl (le_rfl))
  · rw [heq]
    refine .inr (hfree (working_mono hs rfl rfl rfl id ?_) rfl (le_of_lt (weight_recv hfrom)))
    dsimp only
    rw [length_drop]
    omega
  · rw [heq]
    exact .inr (hfree (working_mono hs rfl rfl rfl id (le_rfl)) rfl (le_rfl))
  · exact .inl hdone

theorem waiting_cases (h : Stage q s) (hs : ¬ Working s) :
    s.live = false ∧ s.fromCli = [] ∨
      s.live = true ∧ s.fromCli ≠ [] ∧ (line q).length - s.off = 0 ∨
      s.live = true ∧ s.fromCli = [] ∧ s.toCli = [] ∧ 0 < (line q).length - s.off := by
  have hsent : (line q).drop s.off = [] → (line q).length - s.off = 0 := by
    intro hoff
    rw [← length_drop, hoff, length_nil]
  cases h with
  | closed hrelay hlive hlog hcli hfrom hpending hgot => exact .inl ⟨hlive, hfrom⟩
  | running hrelay hlive hlog hto hoff chunks hcli r hgot hout =>
    refine .inr (.inl ⟨hlive, fun hfrom => hs ?_, hsent hoff⟩)
    unfold Working
    rw [hcli, hfrom]
    cases chunks with
    | nil => trivial
    | cons chunk chunks => exact .inr (by decide)
  | draining hrelay hlive hlog hto hoff hcli hpending r hgot hout =>
    refine .inr (.inl ⟨hlive, fun hfrom => hs ?_, hsent hoff⟩)
    unfold Working
    rcases hcli with hcli | hcli | hcli <;> rw [hcli]
    · exact ⟨hlive, .inr ⟨hpending, hfrom⟩⟩
    · exact ⟨hlive, .inr ⟨hpending, hfrom⟩⟩
    · trivial
  | reading hrelay hlive hlog hrun hpending hfrom hgot hopen hline hwake =>
    have hidle : rest s.cli = [] ∧ s.toCli = [] := by
      unfold Working at hs
      cases hc : s.cli with
      | top | parked | visit =>
        rw [hc] at hs
        exact ⟨rfl, of_not_not fun hto => hs ⟨hlive, .inl hto⟩⟩
      | pass rest =>
        rw [hc] at hs
        exact absurd trivial hs
      | run rest chunks hangup => simp [hc, isRun] at hrun
    refine .inr (.inr ⟨hlive, hfrom, hidle.2, ?_⟩)
    rw [hidle.1, hidle.2, append_nil, append_nil] at hline
    have hlen := congrArg length hline
    rw [length_append, length_drop] at hlen
    omega

theorem relay_waiting (h : Stage q s) (hs : ¬ Working s) (hnot : replied s = false) :
    replied (relayStep q s) = true ∨ rank q (relayStep q s) < rank q s := by
  -- A step that changes nothing the CLI task looks at.
  have hturn : ∀ {t : State}, t.cli = s.cli → t.live = s.live → t.slot = s.slot → t.toCli = s.toCli → t.fromCli = s.fromCli →
      weight q t ≤ weight q s → relayDistance t < relayDistance s → rank q t < rank q s := by
    intro t hcli hlive hslot hto hfrom hweight hless
    have ht : ¬ Working t := fun ht => hs (working_mono ht hcli.symm hlive.symm hslot.symm (fun h => hto ▸ h) (by rw [hfrom]))
    rw [rank_waiting ht, rank_waiting hs]
    omega
  rcases relayStep_cases q s hnot with ⟨k, hrelay, hk, heq⟩ | ⟨hrelay, hfrom, heq⟩ | ⟨hrelay, hfrom, out, cut, heq⟩ |
    ⟨hrelay, hlive, heq⟩ | ⟨-, -, hdone⟩
  · refine .inr ?_
    have hle : k ≤ (line q).length - s.off := by
      rw [hk]
      split <;> omega
    have hsent := weight_send (s := s) (x := .recv) (b := s.notified || decide (0 < k)) hle
    rw [heq]
    rcases Nat.eq_zero_or_pos k with rfl | hpos
    · refine hturn rfl rfl rfl ?_ rfl (by omega) ?_
      · simp
      · rcases waiting_cases h hs with ⟨hlive, -⟩ | ⟨hlive, hfrom, -⟩ | ⟨hlive, hfrom, hto, hmore⟩
        · simp [relayDistance, hrelay, hlive]
        · simp [relayDistance, hrelay, hlive, hfrom]
        · rw [hlive, hto] at hk
          simp only [if_true, length_nil, toSize] at hk
          omega
    · exact rank_lt_of_weight (by omega)
  · refine .inr ?_
    rw [heq]
    refine hturn rfl rfl rfl rfl rfl (le_rfl) ?_
    cases hlive : s.live <;> simp [relayDistance, hrelay, hfrom, hlive]
  · rw [heq]
    exact .inr (rank_lt_of_weight (weight_recv hfrom))
  · refine .inr ?_
    rw [heq]
    refine hturn rfl rfl rfl rfl rfl (le_rfl) ?_
    simp only [relayDistance, hrelay, hlive, if_true]
    split <;> omega
  · exact .inl hdone

def Idle (c : Cli) : Prop := c = .top ∨ c = .parked ∨ c = .visit

theorem working_idle (h : Idle s.cli) :
    Working s ↔ s.live = true ∧ (s.toCli ≠ [] ∨ s.slot.pendingClose = true ∧ s.fromCli = []) := by
  unfold Working
  rcases h with h | h | h <;> rw [h]

theorem cliWeight_idle {c : Cli} (h : Idle c) : cliWeight c = 0 := by
  rcases h with rfl | rfl | rfl <;> rfl

theorem idle_waiting (hidle : Idle s.cli) (hs : ¬ Working s) : ∃ x b, Idle x ∧ cliStep q s = { s with cli := x, notified := b } := by
  have hno : ¬ (s.live && s.toCli ≠ []) = true := fun h => hs ((working_idle hidle).mpr (by simp_all))
  rcases hidle with hcli | hcli | hcli
  · simp only [cliStep, hcli, if_neg hno]
    split
    · exact ⟨.visit, false, .inr (.inr rfl), rfl⟩
    · exact ⟨.parked, s.notified, .inr (.inl rfl), rfl⟩
  · simp only [cliStep, hcli]
    split
    · exact ⟨.visit, false, .inr (.inr rfl), rfl⟩
    · exact ⟨.parked, s.notified, .inr (.inl rfl), by rw [← hcli]⟩
  · have hopen : ¬ (s.slot.pendingClose && s.live && s.fromCli = []) = true :=
      fun h => hs ((working_idle (.inr (.inr hcli))).mpr (by simp_all))
    simp only [cliStep, hcli, if_neg hno, sweep, if_neg hopen]
    exact ⟨.top, s.notified, .inl rfl, rfl⟩

theorem weight_sweep {l : List UInt8} (hcli : s.cli = .pass l) : weight q (sweep s) < weight q s := by
  unfold sweep weight
  rw [hcli]
  split
  · dsimp only [cliWeight]
    rw [if_neg (by simp)]
    simp only [Bool.false_eq_true, if_false]
    omega
  · dsimp only [cliWeight]
    omega

theorem idle_working (hidle : Idle s.cli) (hs : Working s) (hwake : s.cli = .parked → s.notified = true) :
    rank q (cliStep q s) < rank q s := by
  have hmore := (working_idle hidle).mp hs
  -- On the way to the slot only the distance changes.
  have hvisit : ∀ {b : Bool}, s.cli = .top ∨ s.cli = .parked → rank q { s with cli := .visit, notified := b } < rank q s := by
    intro b hcli
    have ht : Working { s with cli := .visit, notified := b } := (working_idle (.inr (.inr rfl))).mpr hmore
    rw [rank_working ht, rank_working hs, cliDistance, cliDistance, if_pos hcli, if_neg (by simp), weight, weight, cliWeight_idle hidle]
    simp [cliWeight]
  rcases hidle with hcli | hcli | hcli
  · simp only [cliStep, hcli]
    split
    · exact hvisit (.inl hcli)
    next hto =>
      rw [if_pos (by simp_all)]
      exact hvisit (.inl hcli)
  · simp only [cliStep, hcli, if_pos (hwake hcli)]
    exact hvisit (.inr hcli)
  · apply rank_lt_of_weight
    simp only [cliStep, hcli]
    split
    next hto =>
      have hpos : 0 < s.toCli.length := length_pos_iff.mpr (by simp_all)
      unfold weight
      dsimp only [cliWeight]
      rw [hcli, length_take, length_drop]
      dsimp only [cliWeight]
      omega
    next hto =>
      unfold sweep
      rw [if_pos (by simp_all)]
      unfold weight
      rw [hcli, hmore.1]
      dsimp only [cliWeight]
      rw [if_neg (by simp), if_pos rfl]
      simp only [Bool.false_eq_true, if_false]
      omega

theorem weight_lineByte (hq : Valid q) (hlog : s.log = []) {c : UInt8} {tail : List UInt8} (hcli : s.cli = .pass (c :: tail))
    (hbyte : s.slot.lineBuf ++ c :: (tail ++ s.toCli ++ (line q).drop s.off) = line q) :
    weight q (lineByte q s c tail) < weight q s := by
  unfold lineByte
  rcases next_byte hq hbyte with ⟨h4, h10, h13, hlen, -⟩ | ⟨rfl, hbuf, hend⟩
  · rw [if_neg h4, if_neg (by simp [h10, h13]), if_pos hlen]
    unfold weight
    rw [hcli]
    dsimp only [cliWeight]
    rw [length_cons]
    omega
  · obtain ⟨hend, -⟩ := append_eq_nil_iff.mp hend
    obtain ⟨rfl, -⟩ := append_eq_nil_iff.mp hend
    have hne : s.slot.lineBuf ≠ [] := by simp [hbuf, spoken]
    rw [if_neg (by decide), if_pos (.inl rfl)]
    dsimp only
    rw [if_neg hne, hbuf, cStr_spoken hq, spoken_ends]
    unfold weight
    rw [hcli, hlog]
    dsimp only [cliWeight]
    rw [if_pos rfl, if_pos rfl, if_neg (by simp), append_nil]
    simp only [length_nil, length_singleton]
    omega

theorem jobWeight_cons (chunk : Name) (chunks : List Name) : jobWeight (chunk :: chunks) = 2 * chunk.length + 1 + jobWeight chunks := by
  simp [jobWeight, add_assoc]

theorem run_progress {chunks : List Name} (hlive : s.live = true) (hcli : s.cli = .run [] chunks true) :
    Working s ∧ weight q (cliStep q s) < weight q s ∨ ¬ Working s ∧ cliStep q s = s := by
  cases chunks with
  | nil =>
    refine .inl ⟨by unfold Working; rw [hcli]; trivial, ?_⟩
    simp only [cliStep, hcli, if_true]
    unfold weight
    rw [hcli]
    dsimp only [cliWeight, jobWeight]
    rw [map_nil, sum_nil, hlive]
    omega
  | cons chunk chunks =>
    have hworking : Working s ↔ chunk = [] ∨ s.fromCli.length < fromSize := by
      unfold Working
      rw [hcli]
    rw [hworking]
    simp only [cliStep, hcli, hlive, Bool.not_true, Bool.or_false, decide_eq_true_eq]
    rcases eq_or_ne chunk [] with rfl | hne
    · refine .inl ⟨.inl rfl, ?_⟩
      rw [if_pos rfl]
      unfold weight
      rw [hcli]
      dsimp only [cliWeight]
      rw [jobWeight_cons, length_nil, hlive]
      omega
    · have hpos := length_pos_iff.mpr hne
      rw [if_neg hne]
      by_cases hroom : s.fromCli.length < fromSize
      · refine .inl ⟨.inr hroom, ?_⟩
        unfold weight
        rw [hcli]
        dsimp only [cliWeight]
        rw [jobWeight_cons, jobWeight_cons, length_append, length_take, length_drop, hlive]
        omega
      · refine .inr ⟨by simp [hne, hroom], ?_⟩
        have hfull : min (fromSize - s.fromCli.length) chunk.length = 0 := by omega
        rw [hfull, drop_zero, take_zero, append_nil, ← hcli]
        cases s
        simp_all

theorem cli_progress (hq : Valid q) (h : Stage q s) :
    Working s ∧ rank q (cliStep q s) < rank q s ∨
      ¬ Working s ∧ ¬ Working (cliStep q s) ∧ rank q (cliStep q s) = rank q s := by
  have hidle : Idle s.cli → (Working s → s.cli = .parked → s.notified = true) →
      Working s ∧ rank q (cliStep q s) < rank q s ∨
        ¬ Working s ∧ ¬ Working (cliStep q s) ∧ rank q (cliStep q s) = rank q s := by
    intro hidle hwake
    by_cases hs : Working s
    · exact .inl ⟨hs, idle_working hidle hs (hwake hs)⟩
    · obtain ⟨x, b, hx, heq⟩ := idle_waiting (q := q) hidle hs
      have ht : ¬ Working { s with cli := x, notified := b } := by
        rw [working_idle hx]
        rwa [working_idle hidle] at hs
      rw [heq]
      refine .inr ⟨hs, ht, ?_⟩
      rw [rank_waiting ht, rank_waiting hs, weight, weight, cliWeight_idle hidle]
      dsimp only
      rw [cliWeight_idle hx]
      rfl
  cases h with
  | reading hrelay hlive hlog hrun hpending hfrom hgot hopen hline hwake =>
    have hparked : Working s → s.cli = .parked → s.notified = true := by
      intro hs hcli
      have hmore := (working_idle (.inr (.inl hcli))).mp hs
      simp only [hpending, Bool.false_eq_true, false_and, or_false] at hmore
      exact hwake hcli hmore.2
    cases hcli : s.cli with
    | top => exact hidle (.inl hcli) hparked
    | parked => exact hidle (.inr (.inl hcli)) hparked
    | visit => exact hidle (.inr (.inr hcli)) hparked
    | pass bytes =>
      refine .inl ⟨by unfold Working; rw [hcli]; trivial, rank_lt_of_weight ?_⟩
      cases bytes with
      | nil =>
        simp only [cliStep, hcli]
        exact weight_sweep hcli
      | cons c tail =>
        simp only [cliStep, hcli]
        refine weight_lineByte hq hlog hcli ?_
        rw [hcli, rest_pass] at hline
        simpa using hline
    | run bytes chunks hangup => simp [hcli, isRun] at hrun
  | running hrelay hlive hlog hto hoff chunks hcli r hgot hout =>
    rcases run_progress (q := q) hlive hcli with ⟨hs, hless⟩ | ⟨hs, heq⟩
    · exact .inl ⟨hs, rank_lt_of_weight hless⟩
    · exact .inr ⟨hs, by rwa [heq], by rw [heq]⟩
  | draining hrelay hlive hlog hto hoff hcli hpending r hgot hout =>
    rcases hcli with hcli | hcli | hcli
    · exact hidle (.inl hcli) fun _ h => absurd (hcli.symm.trans h) (by simp)
    · exact hidle (.inr (.inr hcli)) fun _ h => absurd (hcli.symm.trans h) (by simp)
    · refine .inl ⟨by unfold Working; rw [hcli]; trivial, rank_lt_of_weight ?_⟩
      simp only [cliStep, hcli]
      exact weight_sweep hcli
  | closed hrelay hlive hlog hcli hfrom hpending hgot =>
    refine hidle hcli fun hs => ?_
    rw [working_idle hcli, hlive] at hs
    exact absurd hs.1 (by simp)

theorem relay_cliStep (q : Request) (s : State) : (cliStep q s).relay = s.relay := by
  have hsweep : (sweep s).relay = s.relay := by
    unfold sweep
    split <;> rfl
  unfold cliStep
  split
  · split
    · rfl
    · split <;> rfl
  · split <;> rfl
  · split
    · rfl
    · exact hsweep
  · exact hsweep
  · unfold lineByte
    dsimp only
    repeat' split
    all_goals rfl
  · split <;> rfl
  · split <;> rfl

theorem replied_step (hs : replied s = true) (w : Who) : replied (step q s w) = true := by
  cases w with
  | relay =>
    unfold replied at hs
    split at hs
    next f hrelay => simp [step, relayStep, hrelay, replied]
    · simp at hs
  | cli =>
    unfold replied at hs ⊢
    rw [step, relay_cliStep]
    exact hs

theorem replied_run (hs : replied s = true) (ws : List Who) : replied (ws.foldl (step q) s) = true := by
  induction ws generalizing s with
  | nil => exact hs
  | cons w ws ih => exact ih (replied_step hs w)

section

variable (hq : Valid q) (h : Stage q s)
include hq h

theorem rank_step (w : Who) : replied (step q s w) = true ∨ rank q (step q s w) ≤ rank q s := by
  cases hnot : replied s with
  | true => exact .inl (replied_step hnot w)
  | false =>
    cases w with
    | relay =>
      by_cases hs : Working s
      · exact (relay_working hs hnot).imp_right And.right
      · exact (relay_waiting h hs hnot).imp_right le_of_lt
    | cli =>
      rcases cli_progress hq h with ⟨-, hless⟩ | ⟨-, -, heq⟩
      · exact .inr (le_of_lt hless)
      · exact .inr (le_of_eq heq)

theorem rank_run (ws : List Who) :
    replied (ws.foldl (step q) s) = true ∨ rank q (ws.foldl (step q) s) ≤ rank q s := by
  induction ws generalizing s with
  | nil => exact .inr (le_rfl)
  | cons w ws ih =>
    rcases rank_step hq h w with hdone | hle
    · exact .inl (replied_run hdone ws)
    · exact (ih (stage_step hq h w)).imp_right fun hrun => le_trans hrun hle

theorem rank_turn {ws : List Who} (hrelay : .relay ∈ ws) (hcli : .cli ∈ ws) :
    replied (ws.foldl (step q) s) = true ∨ rank q (ws.foldl (step q) s) < rank q s := by
  have hafter : ∀ {t : State} (us : List Who), Stage q t → rank q t < rank q s →
      replied (us.foldl (step q) t) = true ∨ rank q (us.foldl (step q) t) < rank q s :=
    fun us ht hless => (rank_run hq ht us).imp_right fun hrun => lt_of_le_of_lt hrun hless
  suffices hmain : ∀ {t : State} {us : List Who}, Stage q t → rank q t ≤ rank q s → (Working t → .cli ∈ us) →
      (¬ Working t → .relay ∈ us) → replied (us.foldl (step q) t) = true ∨ rank q (us.foldl (step q) t) < rank q s from
    hmain h (le_rfl) (fun _ => hcli) fun _ => hrelay
  intro t us ht hle hneed hneed'
  induction us generalizing t with
  | nil =>
    by_cases hw : Working t
    · exact absurd (hneed hw) (by simp)
    · exact absurd (hneed' hw) (by simp)
  | cons w us ih =>
    have hnext := stage_step hq ht w
    cases hnot : replied t with
    | true => exact .inl (replied_run hnot _)
    | false =>
      cases w with
      | relay =>
        by_cases hw : Working t
        · rcases relay_working hw hnot with hdone | ⟨hw', hle'⟩
          · exact .inl (replied_run hdone us)
          · exact ih hnext (le_trans hle' hle) (fun _ => by simpa using hneed hw) fun hno => absurd hw' hno
        · rcases relay_waiting ht hw hnot with hdone | hless
          · exact .inl (replied_run hdone us)
          · exact hafter us hnext (lt_of_lt_of_le hless hle)
      | cli =>
        rcases cli_progress hq ht with ⟨-, hless⟩ | ⟨hw, hw', heq⟩
        · exact hafter us hnext (lt_of_lt_of_le hless hle)
        · exact ih hnext (le_trans (le_of_eq heq) hle) (fun hyes => absurd hyes hw') fun _ => by simpa using hneed' hw

theorem stage_run (ws : List Who) : Stage q (ws.foldl (step q) s) := by
  induction ws generalizing s with
  | nil => exact h
  | cons w ws ih => exact ih (stage_step hq h w)

theorem replied_rounds {rounds : List (List Who)} (hlen : rank q s < rounds.length)
    (hboth : ∀ ws ∈ rounds, .relay ∈ ws ∧ .cli ∈ ws) : replied (rounds.flatten.foldl (step q) s) = true := by
  induction rounds generalizing s with
  | nil => exact absurd hlen (Nat.not_lt_zero _)
  | cons ws rounds ih =>
    rw [flatten_cons, foldl_append]
    obtain ⟨hrelay, hcli⟩ := hboth ws mem_cons_self
    rcases rank_turn hq h hrelay hcli with hdone | hless
    · exact replied_run hdone _
    · refine ih (stage_run hq h ws) ?_ fun us hus => hboth us (mem_cons_of_mem _ hus)
      rw [length_cons] at hlen
      omega

end

/-- What the reply is to carry: everything that was printed, or all the lines of it
that fit. -/
structure Answers (q : Request) (body : List UInt8) : Prop where
  opening : body <+: printed q
  whole : (printed q).length ≤ q.cap → body = printed q
  fits : body.length ≤ q.cap
  lines : q.cap < (printed q).length → body = [] ∨ body.getLast? = some 10
  longest : ∀ p, p <+: printed q → p.getLast? = some 10 → p.length ≤ q.cap → p.length ≤ body.length

theorem cutLine_append (l : List UInt8) : ∃ tail, cutLine l ++ tail = l ∧ ∀ c ∈ tail, c ≠ 10 := by
  refine ⟨l.rtakeWhile (· ≠ 10), rdropWhile_append_rtakeWhile, fun c hc => ?_⟩
  simpa using mem_rtakeWhile_imp hc

theorem cutLine_last (l : List UInt8) : cutLine l = [] ∨ (cutLine l).getLast? = some 10 := by
  refine or_iff_not_imp_left.mpr fun hne => ?_
  have hlast := rdropWhile_last_not (· ≠ (10 : UInt8)) l hne
  rw [getLast?_eq_some_getLast hne, some_inj]
  exact of_not_not fun h => hlast (decide_eq_true h)

theorem length_le_cutLine {l p : List UInt8} (hp : p <+: l) (hlast : p.getLast? = some 10) : p.length ≤ (cutLine l).length := by
  obtain ⟨tail, htail, hplain⟩ := cutLine_append l
  by_contra hlong
  have hcut : cutLine l <+: p := prefix_of_prefix_length_le ⟨tail, htail⟩ hp (by omega)
  obtain ⟨more, rfl⟩ := hcut
  have hmore : more ≠ [] := by
    rintro rfl
    simp at hlong
  -- The last byte of `more` is among those that were dropped.
  obtain ⟨after, hafter⟩ := hp
  have hafter : more ++ after = tail := append_cancel_left (by rw [← append_assoc, hafter, htail])
  rw [getLast?_append_of_ne_nil _ hmore] at hlast
  exact hplain 10 (hafter ▸ mem_append_left _ (mem_of_getLast? hlast)) rfl

theorem answers_answer (q : Request) : Answers q (answer q) := by
  unfold answer
  by_cases hcap : q.cap < (printed q).length
  · rw [if_pos hcap]
    obtain ⟨tail, htail, -⟩ := cutLine_append ((printed q).take q.cap)
    have hopen : cutLine ((printed q).take q.cap) <+: (printed q).take q.cap := ⟨tail, htail⟩
    refine ⟨hopen.trans (List.take_prefix _ _), fun h => absurd h (by omega), ?_, fun _ => cutLine_last _, ?_⟩
    · exact hopen.length_le.trans (length_take_le _ _)
    · intro p hp hlast hlen
      exact length_le_cutLine (prefix_take_iff.mpr ⟨hp, hlen⟩) hlast
  · rw [if_neg hcap]
    exact ⟨prefix_rfl, fun _ => rfl, Nat.not_lt.mp hcap, fun h => absurd h hcap, fun p hp _ _ => hp.length_le⟩

theorem lengthOf_reply {n : Nat} (hn : n ≤ 0xffff) : Sniffer.lengthOf (UInt8.ofNat (n >>> 8)) (UInt8.ofNat n) = n := by
  rw [Sniffer.lengthOf, UInt8.toNat_ofNat', UInt8.toNat_ofNat', Nat.shiftRight_eq_div_pow]
  omega

theorem rpcAlloc_le {want cap : Nat} {spiram internal : Bool} (h : rpcAlloc want spiram internal = some cap) : cap ≤ want := by
  unfold rpcAlloc at h
  split at h
  · exact le_of_eq (some.inj h).symm
  · split at h
    · rw [← some.inj h]
      exact min_le_left _ _
    · simp at h

/-- A request is served: the line is processed once and whole and the session closed
after it, the reply is right when it comes, and it comes once both tasks had turns
enough. -/
structure Served (q : Request) (handle : Nat) : Prop where
  once : ∀ ws : List Who, (ws.foldl (step q) (start handle)).log <+: [.process (spoken q), .closed]
  reply : ∀ (ws : List Who) (frame : List UInt8), (ws.foldl (step q) (start handle)).relay = .replied frame →
    (ws.foldl (step q) (start handle)).log = [.process (spoken q), .closed] ∧
      ∃ hi lo body, frame = Sniffer.rpcMagic ++ [q.id, hi, lo] ++ body ∧ Sniffer.lengthOf hi lo = body.length ∧ Answers q body
  ends : ∃ n, ∀ rounds : List (List Who), n ≤ rounds.length → (∀ ws ∈ rounds, .relay ∈ ws ∧ .cli ∈ ws) →
    replied (rounds.flatten.foldl (step q) (start handle)) = true

theorem log_of_stage (h : Stage q s) : s.log <+: [.process (spoken q), .closed] := by
  cases h with
  | reading _ _ hlog _ _ _ _ _ _ _ =>
    rw [hlog]
    exact nil_prefix
  | running _ _ hlog _ _ _ _ _ _ _ | draining _ _ hlog _ _ _ _ _ _ _ =>
    rw [hlog]
    exact ⟨[.closed], rfl⟩
  | closed _ _ hlog _ _ _ _ => rw [hlog]

theorem reply_of_stage (h : Stage q s) {frame : List UInt8} (hframe : s.relay = .replied frame) :
    s.log = [.process (spoken q), .closed] ∧ frame = rpcReply q.id (answer q) := by
  cases h with
  | reading hrelay _ _ _ _ _ _ _ _ _ => exact absurd hframe (hrelay frame)
  | running hrelay _ _ _ _ _ _ _ _ _ => exact absurd hframe (hrelay frame)
  | draining hrelay _ _ _ _ _ _ _ _ _ => exact absurd hframe (hrelay frame)
  | closed hrelay _ hlog _ _ _ _ => exact ⟨hlog, hrelay frame hframe⟩

theorem rpc_served {spiram internal : Bool} (handle : Nat) (hq : Valid q) (hcap : rpcAlloc 0xffff spiram internal = some q.cap) :
    Served q handle where
  once ws := log_of_stage (stage_run hq (stage_start q handle) ws)
  reply ws frame hframe := by
    obtain ⟨hlog, rfl⟩ := reply_of_stage (stage_run hq (stage_start q handle) ws) hframe
    have hans := answers_answer q
    refine ⟨hlog, _, _, answer q, rfl, lengthOf_reply ?_, hans⟩
    exact hans.fits.trans (rpcAlloc_le hcap)
  ends := ⟨rank q (start handle) + 1, fun _ hlen hboth => replied_rounds hq (stage_start q handle) hlen hboth⟩

/-- A command that prints a line more often than the internal heap's buffer holds. -/
def wordy : Request where
  id := 7
  cmd := [118]
  cap := 8192
  prints _ := replicate 5000 [97, 10]
  exits _ := false
  prompt := []

theorem rpc_served_wordy : rpcAlloc 0xffff false true = some wordy.cap ∧ Served wordy 3 := by
  have hvalid : Valid wordy := by
    refine ⟨Nat.le_of_lt_succ (by decide), fun c hc => ?_⟩
    rw [mem_singleton.mp hc]
    decide
  exact ⟨rfl, rpc_served 3 hvalid (show rpcAlloc 0xffff false true = some wordy.cap from rfl)⟩

end Spangap.RpcProgress
