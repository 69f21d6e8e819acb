import Mathlib.Data.Int.Basic

namespace Spangap.Partitions

open List

def appStart : Int := 0x10000

def appAlign : Int := 0x10000

def dataAlign : Int := 0x1000

def updaterSize : Int := 0x80000

def fixedProvisionalDiv : Int := 5

inductive Label
  | nvs | otadata | updater | app | fixed | reserved
  deriving DecidableEq, Repr

inductive Kind
  | app | data
  deriving DecidableEq, Repr

inductive SubType
  | nvs | ota | ota0 | ota1 | factory | x8a | x40
  deriving DecidableEq, Repr

structure Row where
  label : Label
  kind : Kind
  sub : SubType
  offset : Int
  size : Int
  readonly : Bool
  deriving DecidableEq, Repr

/-- Why `render` gives up. -/
inductive Exit
  | floorAboveContainer | noRoomForApp | tooSmallForApp | firmwareTooLarge
  deriving DecidableEq, Repr

-- Division by a positive number rounds down, as `//` does.
def alignUp (x a : Int) : Int := (x + a - 1) / a * a

def alignDown (x a : Int) : Int := x / a * a

def container (flashMb : Int) : Int := flashMb * 1024 * 1024

def floorOf (flashMb stateFloor : Int) : Int := alignDown (if stateFloor = 0 then container flashMb else stateFloor) dataAlign

def appOffset (updater : Bool) : Int := if updater then appStart + updaterSize else appStart

def fixedSize (floor appOffset fixedBytes : Int) : Int :=
  if fixedBytes = 0 then alignUp ((floor - appOffset) / fixedProvisionalDiv) dataAlign else alignUp fixedBytes dataAlign

def Row.stop (r : Row) : Int := r.offset + r.size

def table (updater : Bool) (appSz fixedStart fixedSz : Int) : List Row :=
  ⟨.nvs, .data, .nvs, 0x9000, 0x5000, false⟩ ::
    (if updater then [⟨.otadata, .data, .ota, 0xE000, 0x2000, false⟩,
      ⟨.updater, .app, .ota1, appStart, updaterSize, false⟩] else []) ++
    [⟨.app, .app, if updater then .ota0 else .factory, appOffset updater, appSz, false⟩,
      ⟨.fixed, .data, .x8a, fixedStart, fixedSz, true⟩]

/-- The rows of the table; the text they are printed as is left out. -/
def render (flashMb : Int) (updater : Bool) (fixedBytes appBytes stateFloor : Int) : Except Exit (List Row) :=
  let floor := floorOf flashMb stateFloor
  let fixedSz := fixedSize floor (appOffset updater) fixedBytes
  let fixedStart := alignDown (floor - fixedSz) dataAlign
  let appSz := alignDown (fixedStart - appOffset updater) appAlign
  let fixedEnd := fixedStart + fixedSz
  if container flashMb < floor then .error .floorAboveContainer
  else if fixedStart ≤ appOffset updater then .error .noRoomForApp
  else if appSz < appAlign then .error .tooSmallForApp
  else if fixedBytes ≠ 0 ∧ appBytes ≠ 0 ∧ appSz < appBytes then .error .firmwareTooLarge
  else .ok (table updater appSz fixedStart fixedSz ++
    if fixedEnd < floor then [⟨.reserved, .data, .x40, fixedEnd, floor - fixedEnd, false⟩] else [])

def Kind.align : Kind → Int
  | .app => appAlign
  | .data => dataAlign

/-- A table that fills the flash up to `floor`. -/
structure Sound (floor : Int) (rows : List Row) : Prop where
  size : ∀ r ∈ rows, 0 < r.size
  below : ∀ r ∈ rows, 0 ≤ r.offset ∧ r.stop ≤ floor
  aligned : ∀ r ∈ rows, r.kind.align ∣ r.offset ∧ r.kind.align ∣ r.size
  disjoint : rows.Pairwise fun r r' => r.stop ≤ r'.offset ∨ r'.stop ≤ r.offset
  top : ∃ r ∈ rows, r.stop = floor

theorem dvd_alignDown (x a : Int) : a ∣ alignDown x a := Int.dvd_mul_left _ _

theorem dvd_alignUp (x a : Int) : a ∣ alignUp x a := Int.dvd_mul_left _ _

theorem dvd_fixedSize (floor start fixedBytes : Int) : dataAlign ∣ fixedSize floor start fixedBytes := by
  unfold fixedSize
  split
  · exact dvd_alignUp _ _
  · exact dvd_alignUp _ _

theorem alignDown_of_dvd {x a : Int} (h : a ∣ x) : alignDown x a = x := Int.ediv_mul_cancel h

variable {flashMb floor start fixedSz fixedBytes appBytes stateFloor : Int} {updater : Bool} {rows : List Row}

theorem fixedSize_spec (hfixed : 0 ≤ fixedBytes) (hfloor : dataAlign ∣ floor) (hstart : dataAlign ∣ start)
    (hz : fixedSize floor start fixedBytes = fixedSz) (hroom : start < floor - fixedSz) : 0 < fixedSz ∧ fixedBytes ≤ fixedSz := by
  unfold fixedSize at hz
  simp only [alignUp, dataAlign, fixedProvisionalDiv] at *
  split at hz
  · omega
  · omega

/-- The floor and the size of `fixed` are aligned alike, so `reserved` never has a place. -/
theorem render_ok (hfixed : 0 ≤ fixedBytes) (h : render flashMb updater fixedBytes appBytes stateFloor = .ok rows) :
    ∃ appSz fixedSz, rows = table updater appSz (floorOf flashMb stateFloor - fixedSz) fixedSz ∧
      dataAlign ∣ fixedSz ∧ 0 < fixedSz ∧ fixedBytes ≤ fixedSz ∧
      appAlign ∣ appSz ∧ 0 < appSz ∧ (fixedBytes ≠ 0 → appBytes ≠ 0 → appBytes ≤ appSz) ∧
      appOffset updater + appSz ≤ floorOf flashMb stateFloor - fixedSz := by
  have hfloor : dataAlign ∣ floorOf flashMb stateFloor := dvd_alignDown _ _
  have hstart : dataAlign ∣ appOffset updater := by cases updater <;> decide
  have hsize := dvd_fixedSize (floorOf flashMb stateFloor) (appOffset updater) fixedBytes
  simp only [render, alignDown_of_dvd (Int.dvd_sub hfloor hsize), Int.sub_add_cancel, Int.lt_irrefl, if_false, append_nil] at h
  generalize hz : fixedSize (floorOf flashMb stateFloor) (appOffset updater) fixedBytes = fixedSz at *
  split at h
  · cases h
  split at h
  · cases h
  next hroom =>
  obtain ⟨hpos, hbytes⟩ := fixedSize_spec hfixed hfloor hstart hz (by omega)
  split at h
  · cases h
  next happ =>
  split at h
  · cases h
  next hfinal =>
  cases h
  refine ⟨_, fixedSz, rfl, hsize, hpos, hbytes, dvd_alignDown _ _, ?_⟩
  simp only [alignDown, appAlign] at *
  exact ⟨by omega, by omega, by omega⟩

theorem render_sound (hfixed : 0 ≤ fixedBytes) (h : render flashMb updater fixedBytes appBytes stateFloor = .ok rows) :
    Sound (floorOf flashMb stateFloor) rows ∧ (∀ l ∈ [Label.app, .fixed], ∃ r ∈ rows, r.label = l) ∧
      ∀ r ∈ rows, (r.label = .fixed → fixedBytes ≤ r.size) ∧ (r.label = .app → fixedBytes ≠ 0 → appBytes ≤ r.size) := by
  obtain ⟨appSz, fixedSz, rfl, hsize, hpos, hbytes, halign, happ', hfinal, hroom⟩ := render_ok hfixed h
  have hfloor : dataAlign ∣ floorOf flashMb stateFloor := dvd_alignDown _ _
  generalize floorOf flashMb stateFloor = floor at *
  -- Every row is written out now, so each part is linear arithmetic.
  refine ⟨⟨?_, ?_, ?_, ?_, ?_⟩, ?_, ?_⟩ <;> cases updater <;>
    simp [table, Row.stop, Kind.align, appOffset, appStart, updaterSize, appAlign, dataAlign] at * <;> omega

theorem render_sound_final : ∃ rows, render 4 true 1000000 1500000 0x300000 = .ok rows ∧ Sound (floorOf 4 0x300000) rows := by
  have hok : render 4 true 1000000 1500000 0x300000 = .ok _ := rfl
  exact ⟨_, hok, (render_sound (by decide) hok).1⟩

/-- Sizes that the firmware and the fixed files fit in, and for which there is room. -/
structure Fits (updater : Bool) (floor fixedBytes appBytes appSz fixedSz : Int) : Prop where
  app : appAlign ∣ appSz ∧ 0 < appSz ∧ appBytes ≤ appSz
  fixed : dataAlign ∣ fixedSz ∧ fixedBytes ≤ fixedSz
  room : appOffset updater + appSz + fixedSz ≤ floor

/-- The final pass fails only where no sizes fit, and gives the app the most that it can have. -/
theorem render_best (hfixed : 0 < fixedBytes) (hfloor : floorOf flashMb stateFloor ≤ container flashMb) {appSz : Int}
    (h : Fits updater (floorOf flashMb stateFloor) fixedBytes appBytes appSz fixedSz) :
    ∃ rows, render flashMb updater fixedBytes appBytes stateFloor = .ok rows ∧ ∀ r ∈ rows, r.label = .app → appSz ≤ r.size := by
  obtain ⟨⟨⟨j, rfl⟩, hpos, happ⟩, ⟨⟨k, rfl⟩, hbytes⟩, hroom⟩ := h
  obtain ⟨n, hn⟩ : dataAlign ∣ floorOf flashMb stateFloor := dvd_alignDown _ _
  have hsize : fixedSize (floorOf flashMb stateFloor) (appOffset updater) fixedBytes = alignUp fixedBytes dataAlign := if_neg (by omega)
  rw [render, hsize, hn]
  rw [hn] at hroom hfloor
  simp only [alignUp, alignDown, appAlign, dataAlign] at *
  refine ⟨_, (if_neg ?_).trans ((if_neg ?_).trans ((if_neg ?_).trans (if_neg ?_))), fun r hr hlabel => ?_⟩
  · omega
  · omega
  · omega
  · omega
  · cases updater <;> simp [table] at hr <;> grind

theorem render_best_final : ∃ rows, render 4 true 1000000 1500000 0x300000 = .ok rows ∧ ∀ r ∈ rows, r.label = .app → 0x170000 ≤ r.size :=
  render_best (by decide) (by decide) (⟨by decide, by decide, by decide⟩ : Fits true _ _ _ _ 0xF5000)

end Spangap.Partitions
