import LisaMinix.Fs.Server.Layout
import LisaMinix.Fs.Server.Room

/-!
# How a File Grows

What may become of the zones and the blocks of a file when a zone is allocated for it.

- `FileView`: a file as the blocks of its device and the zone numbers of its inode.
- `Kept`, `Entered`: what may become of a file, and the rules of how this composes.
- `Attached`: the zones that have become busy are indirect blocks of the file.
- `kept_map`: the map of the zones changes.
- `entered_direct`, `entered_entry`: a data zone is entered.
- `kept_single`, `kept_double`, `kept_ind`: an indirect block is attached.
-/

namespace LisaMinix.Fs.Server

open LisaMinix.Library Function

/-! ## §1 Files and Their Changes -/

/-- The blocks of a device, and the zone numbers of an inode. -/
structure FileView where
  blocks : ℕ → Block
  izone : ℕ → ℕ

def FileView.zone (x : Super) (v : FileView) : Place → ℕ := zoneIn v.blocks v.izone x.logZoneSize

abbrev FileView.Ok (x : Super) (v : FileView) : Prop := FileOk x v.blocks v.izone

/-- The zone `z` has been allocated and is not in the file. -/
abbrev FileView.Fresh (x : Super) (v : FileView) (z : ℕ) : Prop := FreshZone x v.blocks v.izone z

/-- The blocks of the data zones of `v` are as they were. -/
def DataKept (x : Super) (v v' : FileView) : Prop :=
  ∀ n b, v.zone x (.data n) ≠ 0 → b / 2 ^ x.logZoneSize = v.zone x (.data n) →
    v'.blocks b = v.blocks b

/-- Nothing but indirect blocks may have been attached. -/
structure Kept (x : Super) (v v' : FileView) : Prop where
  ok : v'.Ok x
  data : ∀ n, v'.zone x (.data n) = v.zone x (.data n)
  kept : DataKept x v v'

/-- Zone `z` has been entered as relative zone `n₀`. -/
structure Entered (x : Super) (n₀ z : ℕ) (v v' : FileView) : Prop where
  ok : v'.Ok x
  zones : ∀ n, v'.zone x (.data n) = if n = n₀ then z else v.zone x (.data n)
  kept : DataKept x v v'

/-- An indirect block, as the files can have it. -/
def Place.IsMapBlock : Place → Prop
  | .data _ => False
  | .single | .double => True
  | .ind k => k < nrIndirects

theorem Place.IsMapBlock.ne_data {p : Place} (h : p.IsMapBlock) (n : ℕ) : p ≠ .data n := by
  rintro rfl
  exact h

/-- The indirect blocks are in their places, and the zones that have become busy are further ones. -/
structure Attached (x : Super) (v v' : FileView) : Prop where
  kept : ∀ p, (∀ n, p ≠ .data n) → v.zone x p ≠ 0 → v'.zone x p = v.zone x p
  new : ∀ y, InRange x y → zoneBusy x v'.blocks y = true → zoneBusy x v.blocks y = false →
    ∃ p, Place.IsMapBlock p ∧ v'.zone x p = y

/-- The zone `zq` has been put in place `p₀`, and the map is as it was. -/
structure Attaches (x : Super) (p₀ : Place) (zq : ℕ) (v v' : FileView) : Prop where
  kept : Kept x v v'
  zones : v'.zone x = update (v.zone x) p₀ zq
  busy : ∀ y, InRange x y → zoneBusy x v'.blocks y = zoneBusy x v.blocks y

section

variable {x : Super} {v v' v'' : FileView} {z : ℕ}

theorem DataKept.trans (h : DataKept x v v') (h' : DataKept x v' v'')
    (hdata : ∀ n, v'.zone x (.data n) = v.zone x (.data n)) : DataKept x v v'' := by
  intro n b hn hb
  have hkept := h' n b
  rw [hdata n] at hkept
  rw [hkept hn hb, h n b hn hb]

theorem Kept.trans (h : Kept x v v') (h' : Kept x v' v'') : Kept x v v'' where
  ok := h'.ok
  data n := (h'.data n).trans (h.data n)
  kept := h.kept.trans h'.kept h.data

theorem Kept.entered {n₀ : ℕ} (h : Kept x v v') (h' : Entered x n₀ z v' v'') :
    Entered x n₀ z v v'' where
  ok := h'.ok
  zones n := by rw [h'.zones n, h.data n]
  kept := h.kept.trans h'.kept h.data

theorem InRange.ne_zero (hg : Geometry x) (h : InRange x z) : z ≠ 0 := by
  have hfirst := hg.first
  have hlow := h.1
  omega

theorem Attached.of_same (hzones : ∀ p, (∀ n, p ≠ .data n) → v'.zone x p = v.zone x p)
    (hbusy : ∀ y, InRange x y → zoneBusy x v'.blocks y = zoneBusy x v.blocks y) : Attached x v v' where
  kept p hp _ := hzones p hp
  new y hy hset hclear := by
    rw [hbusy y hy, hclear] at hset
    exact absurd hset (by decide)

theorem Attached.trans (hg : Geometry x) (h : Attached x v v') (h' : Attached x v' v'') :
    Attached x v v'' where
  kept p hp hne := by
    have hsame := h.kept p hp hne
    rw [h'.kept p hp (by rwa [hsame]), hsame]
  new y hy hset hclear := by
    rcases hbusy : zoneBusy x v'.blocks y with _ | _
    · exact h'.new y hy hset hbusy
    · obtain ⟨p, hp, rfl⟩ := h.new y hy hbusy hclear
      exact ⟨p, hp, h'.kept p hp.ne_data (hy.ne_zero hg)⟩

/-! ## §2 Single Changes -/

/-- What is written in the first block of zone `z`. -/
def FileView.write (x : Super) (v : FileView) (z : ℕ) (data : Block) : FileView :=
  { v with blocks := update v.blocks (firstBlock x.logZoneSize z) data }

theorem write_self (z : ℕ) (data : Block) :
    (v.write x z data).blocks (firstBlock x.logZoneSize z) = data := update_self ..

theorem write_write (z : ℕ) (data data' : Block) :
    (v.write x z data).write x z data' = v.write x z data' := by
  unfold FileView.write
  simp only [update_idem]

theorem write_kept (hg : Geometry x) (hz : InRange x z) (data : Block) :
    KeptOutside x (· = z) v.blocks (v.write x z data).blocks := by
  intro b _ hb
  apply update_of_ne
  rintro rfl
  exact hb (firstBlock_div hg hz)

theorem write_busy (hg : Geometry x) (hz : InRange x z) (data : Block) {y : ℕ} (hy : InRange x y) :
    zoneBusy x (v.write x z data).blocks y = zoneBusy x v.blocks y := by
  apply zoneBusy_congr hg hy
  intro b hb
  apply update_of_ne
  rintro rfl
  rw [firstBlock_eq hg hz] at hb
  exact absurd (Nat.mul_le_mul_right (2 ^ x.logZoneSize) hz.1) (not_le.mpr hb)

theorem write_dataKept (hg : Geometry x) (hz : InRange x z) (data : Block)
    (hnot : ∀ n, v.zone x (.data n) ≠ z) : DataKept x v (v.write x z data) := by
  intro n b _ hb
  apply update_of_ne
  rintro rfl
  rw [firstBlock_div hg hz] at hb
  exact hnot n hb.symm

theorem FreshZone.lt {B : ℕ → Block} {izone : ℕ → ℕ} (h : FreshZone x B izone z) (hg : Geometry x) :
    z < 65536 := lt_trans h.range.2 hg.short

theorem FreshZone.ne_zero {B : ℕ → Block} {izone : ℕ → ℕ} (h : FreshZone x B izone z)
    (hg : Geometry x) : z ≠ 0 := h.range.ne_zero hg

/-- The zones of a file depend only on blocks of zones. -/
theorem FileOk.zoneIn_kept {B B' : ℕ → Block} {izone : ℕ → ℕ} (h : FileOk x B izone)
    (hg : Geometry x) (hkept : KeptOutside x (fun _ => False) B B') :
    zoneIn B' izone x.logZoneSize = zoneIn B izone x.logZoneSize := by
  have hdirect := h.zoneIn_direct hg (show 0 < nrDzoneNum by decide) hkept (z := izone 0)
  rw [update_eq_self] at hdirect
  exact hdirect.trans (update_eq_self _ _)

/-- The map changes: a zone may become busy, or one that is not in the file becomes free. -/
theorem kept_map (B' : ℕ → Block) (h : v.Ok x) (hg : Geometry x)
    (hkept : ∀ b, x.firstdatazone * 2 ^ x.logZoneSize ≤ b → B' b = v.blocks b)
    (hbusy : ∀ p, v.zone x p ≠ 0 → zoneBusy x v.blocks (v.zone x p) = true →
      zoneBusy x B' (v.zone x p) = true) :
    Kept x v { v with blocks := B' } ∧ FileView.zone x { v with blocks := B' } = v.zone x := by
  have hzones : FileView.zone x { v with blocks := B' } = v.zone x :=
    FileOk.zoneIn_kept h hg fun b hb _ => hkept b hb
  refine ⟨⟨⟨fun p => ?_, fun p => ?_, fun p q => ?_⟩, fun n => by rw [hzones], fun n b hn hb => ?_⟩,
    hzones⟩
  · rw [show zoneIn B' v.izone x.logZoneSize p = v.zone x p from congrFun hzones p]
    exact h.range p
  · rw [show zoneIn B' v.izone x.logZoneSize p = v.zone x p from congrFun hzones p]
    exact fun hne => hbusy p hne (h.busy p hne)
  · rw [show zoneIn B' v.izone x.logZoneSize p = v.zone x p from congrFun hzones p,
      show zoneIn B' v.izone x.logZoneSize q = v.zone x q from congrFun hzones q]
    exact h.inj p q
  · apply hkept
    have hrange := h.range (.data n) hn
    calc x.firstdatazone * 2 ^ x.logZoneSize ≤ v.zone x (.data n) * 2 ^ x.logZoneSize :=
        Nat.mul_le_mul_right _ hrange.1
      _ = b / 2 ^ x.logZoneSize * 2 ^ x.logZoneSize := by rw [hb]
      _ ≤ b := Nat.div_mul_le_self ..

/-- A data zone is entered in the inode. -/
theorem entered_direct (h : v.Ok x) (hg : Geometry x) (hz : v.Fresh x z) {n : ℕ} (hn : n < nrDzoneNum) :
    Entered x n z v { v with izone := update v.izone n z } := by
  have hzones := @FileOk.zoneIn_direct x v.blocks v.blocks v.izone h hg n z hn fun _ _ _ => rfl
  refine ⟨h.enter hz (fun _ _ => id) hzones, fun m => ?_, fun _ _ _ _ => rfl⟩
  refine (congrFun hzones (.data m)).trans ?_
  rcases eq_or_ne m n with rfl | hne
  · rw [update_self, if_pos rfl]
  · rw [update_of_ne (by simpa using hne), if_neg hne]
    rfl

theorem attached_direct (h : v.Ok x) (hg : Geometry x) {n : ℕ} (hn : n < nrDzoneNum) :
    Attached x v { v with izone := update v.izone n z } := by
  have hzones := @FileOk.zoneIn_direct x v.blocks v.blocks v.izone h hg n z hn fun _ _ _ => rfl
  refine .of_same (fun p hp => ?_) fun _ _ => rfl
  exact (congrFun hzones p).trans (update_of_ne (hp n) ..)

/-- A data zone has been entered in an indirect block. -/
theorem zone_entry (h : v.Ok x) (hg : Geometry x) (hlt : z < 65536) {q : Place} {e : ℕ}
    (hq : q.IsIndirect) (he : e < nrIndirects) (hzq : v.zone x q ≠ 0) :
    FileView.zone x (v.write x (v.zone x q)
      (putWord (v.blocks (firstBlock x.logZoneSize (v.zone x q))) (2 * e) z)) =
      update (v.zone x) (.data (q.under e)) z :=
  h.zoneIn_entry hg hq he hlt hzq (write_self (v := v) (v.zone x q) _)
    (write_kept hg (h.range q hzq) _)

theorem attached_entry (h : v.Ok x) (hg : Geometry x) (hlt : z < 65536) {q : Place} {e : ℕ}
    (hq : q.IsIndirect) (he : e < nrIndirects) (hzq : v.zone x q ≠ 0) :
    Attached x v (v.write x (v.zone x q)
      (putWord (v.blocks (firstBlock x.logZoneSize (v.zone x q))) (2 * e) z)) := by
  refine .of_same (fun p hp => ?_) fun y => write_busy hg (h.range q hzq) _
  rw [zone_entry h hg hlt hq he hzq, update_of_ne (hp _)]

/-- A data zone is entered in an indirect block. -/
theorem entered_entry (h : v.Ok x) (hg : Geometry x) (hz : v.Fresh x z) {q : Place} {e : ℕ}
    (hq : q.IsIndirect) (he : e < nrIndirects) (hzq : v.zone x q ≠ 0) :
    Entered x (q.under e) z v (v.write x (v.zone x q)
      (putWord (v.blocks (firstBlock x.logZoneSize (v.zone x q))) (2 * e) z)) := by
  have hrange : InRange x (v.zone x q) := h.range q hzq
  have hzones := zone_entry h hg (hz.lt hg) hq he hzq
  refine ⟨h.enter hz (fun y hy hbusy => ?_) hzones, fun m => ?_, ?_⟩
  · rw [write_busy hg hrange _ hy]
    exact hbusy
  · refine (congrFun hzones (.data m)).trans ?_
    rcases eq_or_ne m (q.under e) with rfl | hne
    · rw [update_self, if_pos rfl]
    · rw [update_of_ne (by simpa using hne), if_neg hne]
  · apply write_dataKept hg hrange
    intro n heq
    have hplace := h.inj q (.data n) hzq heq.symm
    rw [hplace] at hq
    exact hq

/-- An indirect block has been attached: the other fresh zones are so still. -/
theorem kept_attach (p₀ : Place) {zq : ℕ} (h : v.Ok x) (hzq : v.Fresh x zq)
    (hp0 : ∀ n, p₀ ≠ .data n)
    (hbusy : ∀ y, InRange x y → zoneBusy x v'.blocks y = zoneBusy x v.blocks y)
    (hkept : DataKept x v v') (hzones : v'.zone x = update (v.zone x) p₀ zq)
    (hz : v.Fresh x z) (hne : z ≠ zq) :
    Attaches x p₀ zq v v' ∧ v'.Fresh x z := by
  have hzones' : ∀ p, zoneIn v'.blocks v'.izone x.logZoneSize p =
      update (v.zone x) p₀ zq p := congrFun hzones
  refine ⟨⟨⟨h.enter hzq (fun y hy hb => by rw [hbusy y hy]; exact hb) hzones, fun n => ?_, hkept⟩,
    hzones, hbusy⟩, ?_⟩
  · rw [hzones, update_of_ne (hp0 n).symm]
  · refine ⟨hz.range, by rw [hbusy z hz.range]; exact hz.busy, fun p => ?_⟩
    rw [hzones']
    rcases eq_or_ne p p₀ with rfl | hp
    · rw [update_self]
      exact hne.symm
    · rw [update_of_ne hp]
      exact hz.new p

section

variable {zq : ℕ} (h : v.Ok x) (hg : Geometry x) (hzq : v.Fresh x zq) (hz : v.Fresh x z) (hne : z ≠ zq)
include h hg hzq hz hne

/-- The single indirect block is attached. -/
theorem kept_single (hempty : v.izone nrDzoneNum = 0) :
    let v' : FileView := { v.write x zq zeroBytes with izone := update v.izone nrDzoneNum zq }
    Attaches x .single zq v v' ∧ v'.Fresh x z :=
  kept_attach .single h hzq (by simp) (fun _ => write_busy hg hzq.range _)
    (write_dataKept hg hzq.range _ fun n => hzq.new (.data n))
    (h.zoneIn_single hg hempty hzq.new (write_self ..) (write_kept hg hzq.range _)) hz hne

/-- The double indirect block is attached. -/
theorem kept_double (hempty : v.izone (nrDzoneNum + 1) = 0) :
    let v' : FileView :=
      { v.write x zq zeroBytes with izone := update v.izone (nrDzoneNum + 1) zq }
    Attaches x .double zq v v' ∧ v'.Fresh x z :=
  kept_attach .double h hzq (by simp) (fun _ => write_busy hg hzq.range _)
    (write_dataKept hg hzq.range _ fun n => hzq.new (.data n))
    (h.zoneIn_double hg hempty hzq.new (write_self ..) (write_kept hg hzq.range _)) hz hne

/-- A single indirect block is attached to the double indirect block. -/
theorem kept_ind {k : ℕ} (hdouble : v.izone (nrDzoneNum + 1) ≠ 0)
    (hempty : v.zone x (.ind k) = 0) :
    let zd := v.izone (nrDzoneNum + 1)
    let v' := (v.write x zd
      (putWord (v.blocks (firstBlock x.logZoneSize zd)) (2 * k) zq)).write x zq zeroBytes
    Attaches x (.ind k) zq v v' ∧ v'.Fresh x z := by
  intro zd v'
  have hrange : InRange x zd := h.range .double hdouble
  have hdiff : zd ≠ zq := hzq.new .double
  have hblock : firstBlock x.logZoneSize zd ≠ firstBlock x.logZoneSize zq := by
    intro heq
    have hdiv := firstBlock_div hg hrange
    rw [heq, firstBlock_div hg hzq.range] at hdiv
    exact hdiff hdiv.symm
  have hzones : v'.zone x = update (v.zone x) (.ind k) zq := by
    apply h.zoneIn_ind hg (hzq.lt hg) hdouble hempty hzq.new
    · exact (update_of_ne hblock ..).trans (write_self ..)
    · exact write_self ..
    · intro b hb hnot
      rw [write_kept hg hzq.range _ b hb fun he => hnot (.inr he),
        write_kept hg hrange _ b hb fun he => hnot (.inl he)]
  refine kept_attach (.ind k) h hzq (by simp) (fun y hy => ?_) (fun n b hn hb => ?_) hzones hz hne
  · rw [write_busy hg hzq.range _ hy, write_busy hg hrange _ hy]
  · have hold := write_dataKept hg hrange
      (putWord (v.blocks (firstBlock x.logZoneSize zd)) (2 * k) zq) (v := v) fun m heq => by
        have hplace := h.inj .double (.data m) hdouble heq.symm
        exact absurd hplace (by simp)
    have hother : b ≠ firstBlock x.logZoneSize zq := by
      rintro rfl
      rw [firstBlock_div hg hzq.range] at hb
      exact hzq.new (.data n) hb.symm
    exact (update_of_ne hother ..).trans (hold n b hn hb)

end

end

end LisaMinix.Fs.Server
