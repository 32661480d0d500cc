import LisaMinix.Fs.Server.Zones

/-!
# The Layout of a File

A file as the zone numbers of its inode and the blocks of its device describe it, with direct,
single indirect and double indirect zones.

- `Place`: the places that a zone of a file can be entered in, and `zoneIn` what is there.
- `FileOk`: the zones of a file are marked in the map, and no zone is in two places.
- `zoneIn_direct`, `zoneIn_attach..`, `zoneIn_entry`: how the zones change when one is entered.
-/

namespace LisaMinix.Fs.Server

open LisaMinix.Library Function

/-! ## §1 Places -/

/-- A relative zone of the data, or an indirect block. -/
inductive Place where
  | data (n : ℕ)
  | single
  | double
  | ind (k : ℕ)
  deriving DecidableEq

def firstBlock (scale z : ℕ) : ℕ := toShort (z * 2 ^ scale)

/-- An entry of the indirect block `z`, if there is one. -/
def entry (B : ℕ → Block) (scale z i : ℕ) : ℕ := if z = 0 then 0 else getInd (B (firstBlock scale z)) i

/-- The zone at a place; 0 is none. -/
def zoneIn (B : ℕ → Block) (izone : ℕ → ℕ) (scale : ℕ) : Place → ℕ
  | .single => izone nrDzoneNum
  | .double => izone (nrDzoneNum + 1)
  | .ind k => entry B scale (izone (nrDzoneNum + 1)) k
  | .data n =>
    if n < nrDzoneNum then izone n
    else if n - nrDzoneNum < nrIndirects then entry B scale (izone nrDzoneNum) (n - nrDzoneNum)
    else
      let e := n - nrDzoneNum - nrIndirects
      entry B scale (entry B scale (izone (nrDzoneNum + 1)) (e / nrIndirects)) (e % nrIndirects)

/-- The data zone that is entry `e` of an indirect block. -/
def Place.under : Place → ℕ → ℕ
  | .single, e => nrDzoneNum + e
  | .ind k, e => nrDzoneNum + nrIndirects + (k * nrIndirects + e)
  | _, _ => 0

theorem under_single (e : ℕ) : Place.single.under e = 7 + e := rfl

theorem under_ind (k e : ℕ) : (Place.ind k).under e = 519 + (k * 512 + e) := rfl

/-- An indirect block whose entries are data zones. -/
def Place.IsIndirect : Place → Prop
  | .single | .ind _ => True
  | _ => False

variable {n : ℕ} {z : ℕ}

/-- A relative zone is found in the inode, or under an indirect block. -/
theorem exists_under (h : nrDzoneNum ≤ n) :
    ∃ q e, Place.IsIndirect q ∧ e < nrIndirects ∧ n = q.under e := by
  rcases Nat.lt_or_ge (n - nrDzoneNum) nrIndirects with hlt | hge
  · exact ⟨.single, n - nrDzoneNum, trivial, hlt, (Nat.add_sub_cancel' h).symm⟩
  · refine ⟨.ind ((n - nrDzoneNum - nrIndirects) / nrIndirects),
      (n - nrDzoneNum - nrIndirects) % nrIndirects, trivial, Nat.mod_lt _ (by decide), ?_⟩
    rw [Place.under, Nat.div_add_mod']
    omega

theorem under_inj {q q' : Place} {e e' : ℕ} (hq : q.IsIndirect) (hq' : q'.IsIndirect)
    (he : e < nrIndirects) (he' : e' < nrIndirects) (h : q.under e = q'.under e') :
    q = q' ∧ e = e' := by
  unfold nrIndirects at he he'
  cases q with
  | data | double => exact absurd hq id
  | single =>
    cases q' with
    | data | double => exact absurd hq' id
    | single =>
      rw [under_single, under_single] at h
      exact ⟨rfl, by omega⟩
    | ind k' =>
      rw [under_single, under_ind] at h
      omega
  | ind k =>
    cases q' with
    | data | double => exact absurd hq' id
    | single =>
      rw [under_single, under_ind] at h
      omega
    | ind k' =>
      rw [under_ind, under_ind] at h
      have hk : k = k' := by omega
      exact ⟨by rw [hk], by omega⟩

section

variable {B B' : ℕ → Block} {izone izone' : ℕ → ℕ} {scale : ℕ}

theorem zoneIn_under {q : Place} {e : ℕ} (hq : q.IsIndirect) (he : e < nrIndirects) :
    zoneIn B izone scale (.data (q.under e)) = entry B scale (zoneIn B izone scale q) e := by
  have he' : e < 512 := he
  cases q with
  | data | double => exact absurd hq id
  | single =>
    rw [under_single]
    change (if 7 + e < 7 then _ else if 7 + e - 7 < 512 then entry B scale (izone 7) (7 + e - 7) else _) =
      entry B scale (izone 7) e
    rw [if_neg (by omega), if_pos (by omega), Nat.add_sub_cancel_left]
  | ind k =>
    rw [under_ind]
    change (if 519 + (k * 512 + e) < 7 then _ else if 519 + (k * 512 + e) - 7 < 512 then _ else
      entry B scale (entry B scale (izone 8) ((519 + (k * 512 + e) - 7 - 512) / 512))
        ((519 + (k * 512 + e) - 7 - 512) % 512)) = entry B scale (entry B scale (izone 8) k) e
    rw [if_neg (by omega), if_neg (by omega), show (519 + (k * 512 + e) - 7 - 512) / 512 = k by omega,
      show (519 + (k * 512 + e) - 7 - 512) % 512 = e by omega]

theorem zoneIn_direct_place (hn : n < nrDzoneNum) : zoneIn B izone scale (.data n) = izone n := if_pos hn

/-- The zones of two files are the same if they are so at the other places, and where data zones are
    found through the inode or an indirect block. -/
theorem zoneIn_data_ext (hdirect : n < nrDzoneNum → izone' n = izone n)
    (hunder : ∀ q e, q.IsIndirect → e < nrIndirects → n = q.under e →
      entry B' scale (zoneIn B' izone' scale q) e = entry B scale (zoneIn B izone scale q) e) :
    zoneIn B' izone' scale (.data n) = zoneIn B izone scale (.data n) := by
  rcases Nat.lt_or_ge n nrDzoneNum with hlt | hge
  · rw [zoneIn_direct_place hlt, zoneIn_direct_place hlt, hdirect hlt]
  · obtain ⟨q, e, hq, he, rfl⟩ := exists_under hge
    rw [zoneIn_under hq he, zoneIn_under hq he, hunder q e hq he rfl]

end

/-! ## §2 Consistent Files -/

section

variable {x : Super} {B B' : ℕ → Block} {izone : ℕ → ℕ}

/-- A zone of the device that data can be in. -/
def InRange (x : Super) (z : ℕ) : Prop := x.firstdatazone ≤ z ∧ z < x.nzones

theorem firstBlock_eq (hg : Geometry x) (hz : InRange x z) :
    firstBlock x.logZoneSize z = z * 2 ^ x.logZoneSize := by
  apply Nat.mod_eq_of_lt
  apply lt_of_lt_of_le _ hg.fits
  exact Nat.mul_lt_mul_of_pos_right hz.2 (Nat.two_pow_pos _)

theorem firstBlock_div (hg : Geometry x) (hz : InRange x z) :
    firstBlock x.logZoneSize z / 2 ^ x.logZoneSize = z := by
  rw [firstBlock_eq hg hz, Nat.mul_div_cancel _ (Nat.two_pow_pos _)]

/-- Blocks of zones outside of `Z` are as before. -/
def KeptOutside (x : Super) (Z : ℕ → Prop) (B B' : ℕ → Block) : Prop :=
  ∀ b, x.firstdatazone * 2 ^ x.logZoneSize ≤ b → ¬Z (b / 2 ^ x.logZoneSize) → B' b = B b

/-- No zone of the file is free, and none is in two places. -/
structure FileOk (x : Super) (B : ℕ → Block) (izone : ℕ → ℕ) : Prop where
  range : ∀ p, zoneIn B izone x.logZoneSize p ≠ 0 → InRange x (zoneIn B izone x.logZoneSize p)
  busy : ∀ p, zoneIn B izone x.logZoneSize p ≠ 0 →
    zoneBusy x B (zoneIn B izone x.logZoneSize p) = true
  inj : ∀ p q, zoneIn B izone x.logZoneSize p ≠ 0 →
    zoneIn B izone x.logZoneSize p = zoneIn B izone x.logZoneSize q → p = q

/-- A zone that has been allocated and not been entered yet. -/
structure FreshZone (x : Super) (B : ℕ → Block) (izone : ℕ → ℕ) (z : ℕ) : Prop where
  range : InRange x z
  busy : zoneBusy x B z = true
  new : ∀ p, zoneIn B izone x.logZoneSize p ≠ z

/-- A zone is entered in a place where there was none. -/
theorem FileOk.enter {izone' : ℕ → ℕ} {p₀ : Place} (h : FileOk x B izone)
    (hz : FreshZone x B izone z)
    (hbusy : ∀ y, InRange x y → zoneBusy x B y = true → zoneBusy x B' y = true)
    (hzones : zoneIn B' izone' x.logZoneSize =
      update (zoneIn B izone x.logZoneSize) p₀ z) : FileOk x B' izone' := by
  have hcases : ∀ p, p = p₀ ∧ zoneIn B' izone' x.logZoneSize p = z ∨
      p ≠ p₀ ∧ zoneIn B' izone' x.logZoneSize p = zoneIn B izone x.logZoneSize p := by
    intro p
    rw [hzones]
    rcases eq_or_ne p p₀ with rfl | hp
    · exact .inl ⟨rfl, update_self ..⟩
    · exact .inr ⟨hp, update_of_ne hp ..⟩
  constructor
  · intro p hp
    rcases hcases p with ⟨-, hzone⟩ | ⟨-, hzone⟩ <;> rw [hzone] at hp ⊢
    · exact hz.range
    · exact h.range p hp
  · intro p hp
    rcases hcases p with ⟨-, hzone⟩ | ⟨-, hzone⟩ <;> rw [hzone] at hp ⊢
    · exact hbusy z hz.range hz.busy
    · exact hbusy _ (h.range p hp) (h.busy p hp)
  · intro p q hp heq
    rcases hcases p with ⟨rfl, hzp⟩ | ⟨hnep, hzp⟩ <;> rcases hcases q with ⟨rfl, hzq⟩ | ⟨hneq, hzq⟩
    · rfl
    · rw [hzp, hzq] at heq
      exact absurd heq.symm (hz.new q)
    · rw [hzp, hzq] at heq
      exact absurd heq (hz.new p)
    · rw [hzp, hzq] at heq
      rw [hzp] at hp
      exact h.inj p q hp heq

/-- The map is below the zones. -/
theorem zoneBusy_congr (hg : Geometry x) {y : ℕ} (hy : InRange x y)
    (h : ∀ b, b < x.firstdatazone * 2 ^ x.logZoneSize → B' b = B b) :
    zoneBusy x B' y = zoneBusy x B y := by
  have hblock : (y + 1 - x.firstdatazone) / bitsPerBlock < x.zmapBlocks := by
    rw [Nat.div_lt_iff_lt_mul (by decide)]
    have hbits := hg.bits
    have horder := hg.order
    obtain ⟨hlo, hhi⟩ := hy
    omega
  unfold zoneBusy bitAt
  rw [h]
  exact lt_of_lt_of_le (Nat.add_lt_add_left hblock _) hg.below

theorem entry_zero (i : ℕ) : entry B x.logZoneSize 0 i = 0 := if_pos rfl

/-- An indirect block that is kept has the same entries. -/
theorem entry_kept (hg : Geometry x) {Z : ℕ → Prop} (hkept : KeptOutside x Z B B')
    (hz : z ≠ 0 → InRange x z) (hnot : z ≠ 0 → ¬Z z) (i : ℕ) :
    entry B' x.logZoneSize z i = entry B x.logZoneSize z i := by
  unfold entry
  split
  · rfl
  · next hne =>
    rw [hkept]
    · rw [firstBlock_eq hg (hz hne)]
      exact Nat.mul_le_mul_right _ (hz hne).1
    · rw [firstBlock_div hg (hz hne)]
      exact hnot hne

/-! ## §3 How Zones Are Entered -/

theorem FileOk.entry_other (h : FileOk x B izone) (hg : Geometry x) {Z : ℕ → Prop}
    (hkept : KeptOutside x Z B B') {q : Place}
    (hnot : zoneIn B izone x.logZoneSize q ≠ 0 → ¬Z (zoneIn B izone x.logZoneSize q)) (i : ℕ) :
    entry B' x.logZoneSize (zoneIn B izone x.logZoneSize q) i =
      entry B x.logZoneSize (zoneIn B izone x.logZoneSize q) i :=
  entry_kept hg hkept (h.range q) hnot i

theorem under_ge (q : Place) (e : ℕ) (hq : q.IsIndirect) : nrDzoneNum ≤ q.under e := by
  cases q with
  | data | double => exact absurd hq id
  | single => exact Nat.le_add_right ..
  | ind k => exact le_trans (by decide) (Nat.le_add_right (nrDzoneNum + nrIndirects) _)

/-- A data zone is entered in an indirect block. -/
theorem FileOk.zoneIn_entry (h : FileOk x B izone) (hg : Geometry x) {q : Place} {e z : ℕ}
    (hq : q.IsIndirect) (he : e < nrIndirects) (hz : z < 65536)
    (hzq : zoneIn B izone x.logZoneSize q ≠ 0)
    (hblock : B' (firstBlock x.logZoneSize (zoneIn B izone x.logZoneSize q)) =
      putWord (B (firstBlock x.logZoneSize (zoneIn B izone x.logZoneSize q))) (2 * e) z)
    (hkept : KeptOutside x (fun y => y = zoneIn B izone x.logZoneSize q) B B') :
    zoneIn B' izone x.logZoneSize =
      update (zoneIn B izone x.logZoneSize) (.data (q.under e)) z := by
  -- the indirect blocks are where they were
  have hplace : ∀ p : Place, (∀ n, p ≠ .data n) →
      zoneIn B' izone x.logZoneSize p = zoneIn B izone x.logZoneSize p := by
    intro p hp
    cases p with
    | data n => exact absurd rfl (hp n)
    | single | double => rfl
    | ind k =>
      apply h.entry_other hg hkept (q := .double)
      intro hne heq
      have hdouble := h.inj .double q hne heq
      rw [← hdouble] at hq
      exact hq
  funext p
  cases p with
  | single | double | ind => rw [update_of_ne (by simp), hplace _ (by simp)]
  | data n =>
    rcases Nat.lt_or_ge n nrDzoneNum with hlt | hge
    · have hne : n ≠ q.under e := by
        have := under_ge q e hq
        omega
      rw [update_of_ne (by simpa using hne), zoneIn_direct_place hlt,
        zoneIn_direct_place hlt]
    · obtain ⟨q', e', hq', he', rfl⟩ := exists_under hge
      have hq'' : ∀ m, q' ≠ .data m := by
        rintro m rfl
        exact hq'
      rw [zoneIn_under hq' he', hplace q' hq'']
      by_cases hsame : q' = q
      · subst hsame
        unfold entry
        rw [if_neg hzq, hblock, getInd_putWord _ _ _ _ hz]
        rcases eq_or_ne e' e with rfl | hne
        · rw [if_pos rfl, update_self]
        · have hplace' : Place.data (q'.under e') ≠ .data (q'.under e) := by
            intro heq
            exact hne (under_inj hq' hq' he' he (Place.data.inj heq)).2
          rw [if_neg hne, update_of_ne hplace', zoneIn_under hq' he', entry, if_neg hzq]
      · have hplace' : Place.data (q'.under e') ≠ .data (q.under e) := by
          intro heq
          exact hsame (under_inj hq' hq he' he (Place.data.inj heq)).1
        rw [update_of_ne hplace', zoneIn_under hq' he']
        apply h.entry_other hg hkept
        exact fun hne heq => hsame (h.inj q' q hne heq)

/-- A data zone is entered in the inode. -/
theorem FileOk.zoneIn_direct (h : FileOk x B izone) (hg : Geometry x) {n z : ℕ} (hn : n < nrDzoneNum)
    (hkept : KeptOutside x (fun _ => False) B B') :
    zoneIn B' (update izone n z) x.logZoneSize =
      update (zoneIn B izone x.logZoneSize) (.data n) z := by
  unfold nrDzoneNum at hn
  have hentry : ∀ q i, entry B' x.logZoneSize (zoneIn B izone x.logZoneSize q) i =
      entry B x.logZoneSize (zoneIn B izone x.logZoneSize q) i :=
    fun q => h.entry_other hg hkept fun _ => id
  have hplace : ∀ p : Place, (∀ m, p ≠ .data m) → zoneIn B' (update izone n z)
      x.logZoneSize p = zoneIn B izone x.logZoneSize p := by
    intro p hp
    cases p with
    | data m => exact absurd rfl (hp m)
    | single => exact update_of_ne (by unfold nrDzoneNum; omega) ..
    | double => exact update_of_ne (by unfold nrDzoneNum; omega) ..
    | ind k =>
      have hdouble : update izone n z (nrDzoneNum + 1) = izone (nrDzoneNum + 1) :=
        update_of_ne (by unfold nrDzoneNum; omega) ..
      rw [zoneIn, zoneIn, hdouble]
      exact hentry .double k
  funext p
  cases p with
  | single | double | ind => rw [update_of_ne (by simp), hplace _ (by simp)]
  | data m =>
    rcases Nat.lt_or_ge m nrDzoneNum with hlt | hge
    · rw [zoneIn_direct_place hlt]
      rcases eq_or_ne m n with rfl | hne
      · rw [update_self, update_self]
      · rw [update_of_ne hne, update_of_ne (by simpa using hne),
          zoneIn_direct_place hlt]
    · obtain ⟨q, e, hq, he, rfl⟩ := exists_under hge
      have hq' : ∀ m, q ≠ .data m := by
        rintro m rfl
        exact hq
      have hne : Place.data (q.under e) ≠ .data n := by
        intro heq
        have := Place.data.inj heq
        unfold nrDzoneNum at hge
        omega
      rw [update_of_ne hne, zoneIn_under hq he, zoneIn_under hq he, hplace q hq']
      exact hentry q e

/-- An indirect block without entries is entered in a place where there was none. -/
theorem zoneIn_attach {izone' : ℕ → ℕ} {p₀ : Place} (hp0 : ∀ n, p₀ ≠ .data n)
    (hempty : zoneIn B izone x.logZoneSize p₀ = 0)
    (hdirect : ∀ n, n < nrDzoneNum → izone' n = izone n)
    (hplace : ∀ p : Place, (∀ n, p ≠ .data n) → zoneIn B' izone' x.logZoneSize p =
      update (zoneIn B izone x.logZoneSize) p₀ z p)
    (hzero : B' (firstBlock x.logZoneSize z) = zeroBytes)
    (hother : ∀ q : Place, q.IsIndirect → q ≠ p₀ → ∀ e,
      entry B' x.logZoneSize (zoneIn B izone x.logZoneSize q) e =
        entry B x.logZoneSize (zoneIn B izone x.logZoneSize q) e) :
    zoneIn B' izone' x.logZoneSize = update (zoneIn B izone x.logZoneSize) p₀ z := by
  funext p
  cases p with
  | single | double | ind => exact hplace _ (by simp)
  | data n =>
    rw [update_of_ne (hp0 n).symm]
    apply zoneIn_data_ext (hdirect n)
    rintro q e hq he rfl
    have hq' : ∀ m, q ≠ .data m := by
      rintro m rfl
      exact hq
    rw [hplace q hq']
    rcases eq_or_ne q p₀ with rfl | hne
    · rw [update_self, hempty, entry_zero, entry, hzero, getInd_zero, ite_self]
    · rw [update_of_ne hne]
      exact hother q hq hne e

/-- The single indirect block is attached. -/
theorem FileOk.zoneIn_single (h : FileOk x B izone) (hg : Geometry x)
    (hempty : izone nrDzoneNum = 0) (hz : ∀ p, zoneIn B izone x.logZoneSize p ≠ z)
    (hzero : B' (firstBlock x.logZoneSize z) = zeroBytes) (hkept : KeptOutside x (· = z) B B') :
    zoneIn B' (update izone nrDzoneNum z) x.logZoneSize =
      update (zoneIn B izone x.logZoneSize) .single z := by
  have hentry : ∀ q i, entry B' x.logZoneSize (zoneIn B izone x.logZoneSize q) i =
      entry B x.logZoneSize (zoneIn B izone x.logZoneSize q) i :=
    fun q => h.entry_other hg hkept fun _ => hz q
  refine @zoneIn_attach z x B B' izone _ .single (by simp) hempty ?_ ?_ hzero ?_
  · exact fun n hn => update_of_ne (ne_of_lt hn) ..
  · intro p hp
    cases p with
    | data n => exact absurd rfl (hp n)
    | single => rw [zoneIn, update_self, update_self]
    | double =>
      rw [zoneIn, update_of_ne (by decide), update_of_ne (by simp), zoneIn]
    | ind k =>
      rw [zoneIn, update_of_ne (by decide), update_of_ne (by simp)]
      exact hentry .double k
  · exact fun q _ _ => hentry q

/-- The double indirect block is attached. -/
theorem FileOk.zoneIn_double (h : FileOk x B izone) (hg : Geometry x)
    (hempty : izone (nrDzoneNum + 1) = 0) (hz : ∀ p, zoneIn B izone x.logZoneSize p ≠ z)
    (hzero : B' (firstBlock x.logZoneSize z) = zeroBytes) (hkept : KeptOutside x (· = z) B B') :
    zoneIn B' (update izone (nrDzoneNum + 1) z) x.logZoneSize =
      update (zoneIn B izone x.logZoneSize) .double z := by
  refine @zoneIn_attach z x B B' izone _ .double (by simp) hempty ?_ ?_ hzero ?_
  · exact fun n hn => update_of_ne (ne_of_lt (Nat.lt_succ_of_lt hn)) ..
  · intro p hp
    cases p with
    | data n => exact absurd rfl (hp n)
    | single =>
      rw [zoneIn, update_of_ne (by decide), update_of_ne (by simp), zoneIn]
    | double => rw [zoneIn, update_self, update_self]
    | ind k =>
      rw [zoneIn, update_self, update_of_ne (by simp), zoneIn, hempty, entry_zero,
        entry, hzero, getInd_zero, ite_self]
  · exact fun q _ _ => h.entry_other hg hkept fun _ => hz q

/-- A single indirect block is attached to the double indirect block. -/
theorem FileOk.zoneIn_ind (h : FileOk x B izone) (hg : Geometry x) {k z : ℕ} (hz : z < 65536)
    (hdouble : izone (nrDzoneNum + 1) ≠ 0)
    (hempty : zoneIn B izone x.logZoneSize (.ind k) = 0)
    (hnew : ∀ p, zoneIn B izone x.logZoneSize p ≠ z)
    (hblock : B' (firstBlock x.logZoneSize (izone (nrDzoneNum + 1))) =
      putWord (B (firstBlock x.logZoneSize (izone (nrDzoneNum + 1)))) (2 * k) z)
    (hzero : B' (firstBlock x.logZoneSize z) = zeroBytes)
    (hkept : KeptOutside x (fun y => y = izone (nrDzoneNum + 1) ∨ y = z) B B') :
    zoneIn B' izone x.logZoneSize = update (zoneIn B izone x.logZoneSize) (.ind k) z := by
  apply zoneIn_attach (by simp) hempty
  · exact fun _ _ => rfl
  · intro p hp
    cases p with
    | data n => exact absurd rfl (hp n)
    | single | double => rw [update_of_ne (by simp)]; rfl
    | ind k' =>
      rw [zoneIn, entry, if_neg hdouble, hblock, getInd_putWord _ _ _ _ hz]
      rcases eq_or_ne k' k with rfl | hne
      · rw [if_pos rfl, update_self]
      · rw [if_neg hne, update_of_ne (by simpa using hne), zoneIn, entry, if_neg hdouble]
  · exact hzero
  · intro q hq hne
    apply h.entry_other hg hkept
    rintro hne' (heq | heq)
    · have hself : Place.double = q := h.inj .double q hdouble heq.symm
      rw [← hself] at hq
      exact hq
    · exact hnew q heq

end

/-! ## §4 Contents -/

/-- The block for block position `n` of a file; 0 is none. -/
def blockNr (B : ℕ → Block) (izone : ℕ → ℕ) (scale n : ℕ) : ℕ :=
  let z := zoneIn B izone scale (.data (n / 2 ^ scale))
  if z = 0 then 0 else toShort (z * 2 ^ scale + n % 2 ^ scale)

section

variable {x : Super} {B : ℕ → Block} {izone : ℕ → ℕ}

theorem blockNr_hole (hz : zoneIn B izone x.logZoneSize (.data (n / 2 ^ x.logZoneSize)) = 0) :
    blockNr B izone x.logZoneSize n = 0 := if_pos hz

/-- The block of a zone. -/
theorem blockNr_range (hg : Geometry x)
    (hz : InRange x (zoneIn B izone x.logZoneSize (.data (n / 2 ^ x.logZoneSize)))) :
    blockNr B izone x.logZoneSize n =
      zoneIn B izone x.logZoneSize (.data (n / 2 ^ x.logZoneSize)) * 2 ^ x.logZoneSize +
        n % 2 ^ x.logZoneSize := by
  have hpow := Nat.two_pow_pos x.logZoneSize
  have hmod := Nat.mod_lt n hpow
  have hnext : (zoneIn B izone x.logZoneSize (.data (n / 2 ^ x.logZoneSize)) + 1) *
      2 ^ x.logZoneSize ≤ x.nzones * 2 ^ x.logZoneSize := Nat.mul_le_mul_right _ hz.2
  have hfits := hg.fits
  have hfirst := hg.first
  have hlow := hz.1
  rw [Nat.add_mul, Nat.one_mul] at hnext
  rw [blockNr, if_neg (by omega)]
  exact Nat.mod_eq_of_lt (by omega)

theorem blockNr_range_div (hg : Geometry x)
    (hz : InRange x (zoneIn B izone x.logZoneSize (.data (n / 2 ^ x.logZoneSize)))) :
    blockNr B izone x.logZoneSize n / 2 ^ x.logZoneSize =
      zoneIn B izone x.logZoneSize (.data (n / 2 ^ x.logZoneSize)) := by
  have hpow := Nat.two_pow_pos x.logZoneSize
  rw [blockNr_range hg hz, Nat.mul_comm, Nat.mul_add_div hpow,
    Nat.div_eq_of_lt (Nat.mod_lt n hpow), Nat.add_zero]

theorem FileOk.blockNr_eq (h : FileOk x B izone) (hg : Geometry x)
    (hz : zoneIn B izone x.logZoneSize (.data (n / 2 ^ x.logZoneSize)) ≠ 0) :
    blockNr B izone x.logZoneSize n =
      zoneIn B izone x.logZoneSize (.data (n / 2 ^ x.logZoneSize)) * 2 ^ x.logZoneSize +
        n % 2 ^ x.logZoneSize := blockNr_range hg (h.range _ hz)

theorem FileOk.blockNr_div (h : FileOk x B izone) (hg : Geometry x)
    (hz : zoneIn B izone x.logZoneSize (.data (n / 2 ^ x.logZoneSize)) ≠ 0) :
    blockNr B izone x.logZoneSize n / 2 ^ x.logZoneSize =
      zoneIn B izone x.logZoneSize (.data (n / 2 ^ x.logZoneSize)) := blockNr_range_div hg (h.range _ hz)

theorem FileOk.blockNr_ge (h : FileOk x B izone) (hg : Geometry x)
    (hz : zoneIn B izone x.logZoneSize (.data (n / 2 ^ x.logZoneSize)) ≠ 0) :
    x.firstdatazone * 2 ^ x.logZoneSize ≤ blockNr B izone x.logZoneSize n := by
  rw [h.blockNr_eq hg hz]
  exact le_trans (Nat.mul_le_mul_right _ (h.range _ hz).1) (Nat.le_add_right ..)

theorem FileOk.blockNr_eq_zero (h : FileOk x B izone) (hg : Geometry x) :
    blockNr B izone x.logZoneSize n = 0 ↔
      zoneIn B izone x.logZoneSize (.data (n / 2 ^ x.logZoneSize)) = 0 := by
  refine ⟨fun hnr => ?_, blockNr_hole⟩
  by_contra hz
  have hge := h.blockNr_ge hg hz
  have hpos : 0 < x.firstdatazone * 2 ^ x.logZoneSize := Nat.mul_pos hg.first (Nat.two_pow_pos _)
  omega

/-- No block is at two positions of the file. -/
theorem FileOk.blockNr_inj (h : FileOk x B izone) (hg : Geometry x) {n m : ℕ}
    (hne : blockNr B izone x.logZoneSize n ≠ 0)
    (heq : blockNr B izone x.logZoneSize n = blockNr B izone x.logZoneSize m) : n = m := by
  have hz := (h.blockNr_eq_zero hg).not.mp hne
  have hz' := (h.blockNr_eq_zero hg).not.mp (heq ▸ hne)
  have hzones := h.blockNr_div hg hz
  rw [heq, h.blockNr_div hg hz'] at hzones
  have hdiv := Place.data.inj (h.inj _ _ hz hzones.symm)
  rw [h.blockNr_eq hg hz, h.blockNr_eq hg hz', hzones] at heq
  have hmod : n % 2 ^ x.logZoneSize = m % 2 ^ x.logZoneSize := Nat.add_left_cancel heq
  rw [← Nat.div_add_mod n (2 ^ x.logZoneSize), ← Nat.div_add_mod m (2 ^ x.logZoneSize), hdiv, hmod]

end

end LisaMinix.Fs.Server
