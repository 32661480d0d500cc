import LisaMinix.Fs.Server.DirectoryMaps

/-!
# The Zone Map of a File

What `write_map` does to the answers of `read_map`, and to the map of the zones of the device.

- `Addressed`: the positions that the three levels of the map reach.
- `MapUpdated`: what has become of the map of a file.
- `writeMap_updates`: `write_map` enters a zone that has been allocated, or changes no answer.

A file in which one zone is used twice is not kept apart from itself: `writeMap_shared`.
-/

namespace LisaMinix.Fs.Server

open LisaMinix.Library

/-! ## §1 Positions -/

/-- The block of the file that a position is in. -/
def blockPosOf (position : ℤ) : ℕ := (position / blockSize).toNat

/-- The relative zone that a position is in. -/
def zonePosOf (x : Super) (position : ℤ) : ℕ := blockPosOf position / 2 ^ x.logZoneSize

/-- The position is in the inode's range, up to the end of the double indirect block's. -/
def Addressed (x : Super) (position : ℤ) : Prop :=
  0 ≤ position ∧ zonePosOf x position < nrDzoneNum + nrIndirects + nrIndirects * nrIndirects

/-- `read_map` returns `b`, 0 for none. -/
def ReadsAs (rip : InodeId) (position : ℤ) (b : ℕ) (s : FsState) : Prop :=
  Surely (readMap rip position) s fun b' _ => b' = b

/-! ## §2 What `write_map` Does -/

/-- Zone `z` has been entered for `position`, if the answer is OK; no other answer of `read_map` has
    changed, and only indirect blocks of the file have been allocated. -/
structure MapUpdated (rip : InodeId) (x : Super) (position : ℤ) (z : ℕ) (s : FsState) (r : ℤ)
    (s' : FsState) : Prop where
  entered : r = OK → ∀ pos', Addressed x pos' → zonePosOf x pos' = zonePosOf x position →
    ReadsAs rip pos' (z * 2 ^ x.logZoneSize + blockPosOf pos' % 2 ^ x.logZoneSize) s'
  others : ∀ pos', Addressed x pos' → (r = OK → zonePosOf x pos' ≠ zonePosOf x position) →
    ∃ b, ReadsAs rip pos' b s ∧ ReadsAs rip pos' b s'
  allocated : ∀ y, InRange x y → zoneBusy x (viewOf rip s').blocks y = true →
    zoneBusy x (viewOf rip s).blocks y = false →
      (∃ p, Place.IsMapBlock p ∧ (viewOf rip s').zone x p = y) ∧ ∀ p, (viewOf rip s).zone x p ≠ y

section

variable {rip : InodeId} {sp : SuperId} {s s' : FsState}

theorem Mounted.readsAs {position : ℤ} (hm : Mounted rip sp s) (hpos : 0 ≤ position) :
    ReadsAs rip position ((viewOf rip s).block (s.supers sp) (blockPosOf position)) s :=
  (readMap_surely hm hpos).mono fun _ _ h => h.1

/-- The answers are the same where the zones are. -/
theorem readsAs_same {position : ℤ} (hm : Mounted rip sp s) (honly : Only rip s s')
    (hpos : 0 ≤ position)
    (hzone : (viewOf rip s').zone (s.supers sp) (.data (zonePosOf (s.supers sp) position)) =
      (viewOf rip s).zone (s.supers sp) (.data (zonePosOf (s.supers sp) position))) :
    ∃ b, ReadsAs rip position b s ∧ ReadsAs rip position b s' := by
  refine ⟨_, hm.readsAs hpos, ?_⟩
  have hread := (honly.mounted hm).readsAs hpos
  rw [honly.supers] at hread
  rw [← block_same hzone]
  exact hread

/-- A zone that was free was not in the file. -/
theorem FileOk.ne_free {x : Super} {B : ℕ → Block} {izone : ℕ → ℕ} (h : FileOk x B izone)
    (hg : Geometry x) {y : ℕ} (hy : InRange x y) (hfree : zoneBusy x B y = false) (p : Place) :
    zoneIn B izone x.logZoneSize p ≠ y := by
  rintro rfl
  have hbusy := h.busy p (hy.ne_zero hg)
  rw [hfree] at hbusy
  exact absurd hbusy (by decide)

/-- `write_map` with a zone that has just been allocated. -/
theorem writeMap_updates {position : ℤ} {z : ℕ} (hr : Ready rip sp s)
    (hz : (viewOf rip s).Fresh (s.supers sp) z) (hpos : Addressed (s.supers sp) position) :
    Surely (writeMap rip position z) s (MapUpdated rip (s.supers sp) position z s) := by
  refine (writeMap_surely hr hz (show _ = zonePosOf (s.supers sp) position from rfl) hpos.2).mono ?_
  rintro r s' ⟨honly, hattached, hwrote⟩
  have hm := hr.toMounted
  constructor
  · intro hok pos' hpos' hsame
    rw [if_pos hok] at hwrote
    have hzone := hwrote.zones (zonePosOf (s.supers sp) pos')
    rw [if_pos hsame] at hzone
    have hread := (honly.mounted hm).readsAs hpos'.1
    have hplace : zoneIn (viewOf rip s').blocks (viewOf rip s').izone (s.supers sp).logZoneSize
        (.data (blockPosOf pos' / 2 ^ (s.supers sp).logZoneSize)) = z := hzone
    have hblock := hwrote.ok.blockNr_eq hr.geometry (n := blockPosOf pos')
      (by rw [hplace]; exact FreshZone.ne_zero hz hr.geometry)
    rw [hplace] at hblock
    rwa [honly.supers, show FileView.block _ _ _ = _ from hblock] at hread
  · intro pos' hpos' hother
    apply readsAs_same hm honly hpos'.1
    by_cases hok : r = OK
    · rw [if_pos hok] at hwrote
      rw [hwrote.zones, if_neg (hother hok)]
    · rw [if_neg hok] at hwrote
      exact hwrote.1.data _
  · intro y hy hset hclear
    exact ⟨hattached.new y hy hset hclear, hr.ok.ne_free hr.geometry hy hclear⟩

end

/-! ## §3 Runs -/

def mapSuper : Super := { lettersSuper with nzones := 4 }

/-- A file on a device of three zones, of which only the first is marked. -/
def mapFile (zone : ℕ → ℕ) : FsState :=
  let s := lettersDir 1
  { s with
    supers := fun sp => if sp = rootSuper then mapSuper else noSuperBlock
    inodes := fun i => if i = theDir then { s.inodes theDir with zone := zone } else noInode }

theorem mapSuper_geometry : Geometry mapSuper :=
  ⟨by decide, by decide, by decide, by decide, by decide, by decide, by decide, by decide, by decide⟩

theorem mapFile_mounted (zone : ℕ → ℕ) : Mounted theDir rootSuper (mapFile zone) where
  super := rfl
  geometry := mapSuper_geometry
  driver := show HasDriver 256 from ⟨by decide, by decide⟩
  able := lettersCache_able 1
  zmap := (lettersDir_mounted 1).zmap

theorem zoneIn_none (B : ℕ → Block) (scale : ℕ) (p : Place) : zoneIn B (fun _ => 0) scale p = 0 := by
  cases p with
  | single | double => rfl
  | ind k => rfl
  | data n => simp [zoneIn, entry]

theorem mapFile_ready : Ready theDir rootSuper (mapFile fun _ => 0) where
  toMounted := mapFile_mounted _
  ok := ⟨fun _ hp => absurd (zoneIn_none ..) hp, fun _ hp => absurd (zoneIn_none ..) hp,
    fun _ _ hp => absurd (zoneIn_none ..) hp⟩

theorem mapFile_fresh :
    (viewOf theDir (mapFile fun _ => 0)).Fresh ((mapFile fun _ => 0).supers rootSuper) 1 where
  range := ⟨by decide, by decide⟩
  busy := by
    change blockBit (blockAt (lettersCache 1) 256 3) 1 = true
    rw [lettersCache_map]
    decide
  new p := by
    have hnone : zoneIn (blockAt (lettersCache 1) 256) (fun _ => 0) 10 p = 0 := zoneIn_none ..
    exact hnone.trans_ne (by decide)

/-- A zone of an empty file that is found through the double indirect block. -/
theorem writeMap_updates_double : Surely (writeMap theDir (519 * 2 ^ 20) 1) (mapFile fun _ => 0)
    (MapUpdated theDir ((mapFile fun _ => 0).supers rootSuper) (519 * 2 ^ 20) 1 (mapFile fun _ => 0)) :=
  writeMap_updates mapFile_ready mapFile_fresh ⟨by decide, by decide⟩

/-- The inode of a file whose single and double indirect blocks are the same zone. -/
def sharedZones (i : ℕ) : ℕ := if i = nrDzoneNum ∨ i = nrDzoneNum + 1 then 1 else 0

/-- The first entry of the zone is the zone itself: two relative zones are one entry. -/
theorem zoneIn_shared {B : ℕ → Block} (hfirst : getInd (B 1024) 0 = 1) :
    zoneIn B sharedZones 10 (.data 522) = getInd (B 1024) 3 := by
  have hentry : ∀ e, entry B 10 1 e = getInd (B 1024) e := fun _ => rfl
  change entry B 10 (entry B 10 1 0) 3 = _
  rw [hentry, hfirst, hentry]

/-- Entry 3 of the zone has been written. -/
theorem shared_written {s s' : FsState} (hm : Mounted theDir rootSuper s)
    (hsuper : s.supers rootSuper = mapSuper) (hzones : (viewOf theDir s).izone = sharedZones)
    (hdata : (viewOf theDir s).blocks 1024 = lettersBlock 1 0) (honly : Only theDir s s')
    (hview : viewOf theDir s' = (viewOf theDir s).write mapSuper 1
      (putWord ((viewOf theDir s).blocks (firstBlock mapSuper.logZoneSize 1)) (2 * 3) 2)) :
    ReadsAs theDir (522 * 2 ^ 20) 2048 s' := by
  have hread := (honly.mounted hm).readsAs (show (0 : ℤ) ≤ 522 * 2 ^ 20 by decide)
  have hfirst : firstBlock mapSuper.logZoneSize 1 = 1024 := by decide
  have hblock : (viewOf theDir s').blocks 1024 = putWord (lettersBlock 1 0) 6 2 := by
    have hself := write_self (x := mapSuper) (v := viewOf theDir s) 1
      (putWord ((viewOf theDir s).blocks (firstBlock mapSuper.logZoneSize 1)) (2 * 3) 2)
    rwa [← hview, hfirst, hdata] at hself
  have hizone : (viewOf theDir s').izone = sharedZones := by
    rw [hview]
    exact hzones
  have hzone : zoneIn (viewOf theDir s').blocks (viewOf theDir s').izone 10 (.data 522) = 2 := by
    rw [hizone, zoneIn_shared (by rw [hblock]; decide), hblock]
    decide
  have hnr : (viewOf theDir s').block mapSuper (blockPosOf (522 * 2 ^ 20)) = 2048 := by
    change (if zoneIn _ _ 10 (.data 522) = 0 then 0
      else toShort (zoneIn _ _ 10 (.data 522) * 2 ^ 10 + 0)) = _
    rw [hzone]
    rfl
  rwa [honly.supers, hsuper, hnr] at hread

/-- Zone 2 is entered as relative zone 10 of the file, and is relative zone 522 as well. -/
theorem writeMap_shared : ReadsAs theDir (522 * 2 ^ 20) 0 (mapFile sharedZones) ∧
    Surely (writeMap theDir (10 * 2 ^ 20) 2) (mapFile sharedZones) fun r s' =>
      r = OK ∧ ReadsAs theDir (522 * 2 ^ 20) 2048 s' := by
  have hm := mapFile_mounted sharedZones
  have hblock : blockAt (lettersCache 1) 256 1024 = lettersBlock 1 0 :=
    lettersCache_block 1 (show 0 < 1024 by decide)
  constructor
  · have hread := hm.readsAs (show (0 : ℤ) ≤ 522 * 2 ^ 20 by decide)
    have hzone : zoneIn (blockAt (lettersCache 1) 256) sharedZones 10 (.data 522) = 0 := by
      rw [zoneIn_shared (by rw [hblock]; decide), hblock]
      decide
    rwa [FileView.block, blockNr_hole hzone] at hread
  · have honly1 := only_inode theDir hm.able ((mapFile sharedZones).inodes theDir).zone true
      ((mapFile sharedZones).inodes theDir).update
    have hm1 := honly1.mounted hm
    have hwrite := writeIndirect_surely hm1 1 3 2 false
    unfold writeMap scaleFactor Surely
    simp only [wp_bind, wp_modInode]
    rw [wp_readInode, getSuper_spec hm1.super]
    simp only [wp_readSuper, wp_pure]
    rw [if_neg (by decide), if_pos (by decide), writeSingle, wp_bind, wp_readInode, if_pos (by decide)]
    refine Wp.mono hwrite ?_
    rintro r s' ⟨hok, honly, hview⟩
    exact ⟨hok, shared_written hm1 rfl rfl hblock honly hview⟩

end LisaMinix.Fs.Server
