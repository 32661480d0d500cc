import LisaMinix.Libc.Realloc
import LisaMinix.Library.Simulation

/-!
# Programs That Use the Heap

What a program may rely on, whatever it calls and whatever `brk` answers.

- `Sound`: the slots tile the area, the free ones are on the list, and the blocks of the program are what it
  has written.
- `Expected`: the result of a call, and the blocks afterwards.
- `heap_follows`: as long as no slot without room for a link is given back, and no product of `calloc`
  overflows, every call is as expected.
-/

namespace LisaMinix.Libc.Malloc

open LisaMinix.Library Function

variable {h h' : Heap} {L L' : List Slot} {p q : ℤ} {bytes bytes' : List UInt8}

/-! ## §1 `calloc` -/

theorem clear_apply (n : ℕ) (p : ℤ) (m : Memory) (x : ℤ) :
    clear n p m x = if p ≤ x ∧ x < p + n then 0 else m x := by
  induction n generalizing p m with
  | zero =>
    rw [clear, if_neg (by omega)]
  | succ n ih =>
    rw [clear, ih]
    rcases eq_or_ne x p with rfl | hne
    · rw [if_neg (by omega), if_pos (by omega), update_self]
    · rw [update_of_ne hne]
      by_cases hin : p + 1 ≤ x ∧ x < p + 1 + n
      · rw [if_pos hin, if_pos (by omega)]
      · rw [if_neg hin, if_neg (by omega)]

theorem read_clear (n : ℕ) (p : ℤ) (m : Memory) : (clear n p m).read p n = List.replicate n 0 := by
  rw [List.eq_replicate_iff]
  refine ⟨Memory.length_read, fun b hb => ?_⟩
  obtain ⟨i, hi, rfl⟩ := List.mem_map.mp hb
  rw [clear_apply, if_pos]
  have := List.mem_range.mp hi
  omega

/-- The product of two sizes is right, or so large that nothing is handed out. -/
def ProductOk (n size : UInt16) : Prop :=
  n.toNat * size.toNat < 2 ^ 16 ∨ 65528 < n.toNat * size.toNat % 2 ^ 16

/-- A new block with a content, next to those that there are. -/
structure Fresh (L : List Slot) (p : ℤ) (bytes : List UInt8) (h' : Heap) : Prop where
  ne_zero : p ≠ 0
  new : ∀ s ∈ L, s.start ≠ p
  ready : ∃ L', Ready h' L' ∧ ∀ s, s ∈ L' ↔ some ⟨p, some bytes⟩ = some s ∨ s ∈ L

theorem malloc_fresh (h0 : Ready h L) (size : UInt16) :
    Succeeds (malloc size) h fun p h' =>
      (p = 0 ∧ Ready h' L) ∨ ∃ bytes, bytes.length = size.toNat ∧ Fresh L p bytes h' := by
  refine (malloc_spec h0 size).mono ?_
  rintro p h' (hnone | ⟨⟨hp, hinside, l, r, hgiven⟩, -, -⟩)
  · exact .inl hnone
  · have hlen : (h'.mem.read p size.toNat).length = size.toNat := Memory.length_read
    obtain ⟨hnew, hready⟩ := @Given.fill _ _ _ _ _ _ _ hgiven hinside h'.mem (fun _ _ => rfl)
      (by rw [hlen]) (by rw [hlen])
    exact .inr ⟨_, hlen, hp, hnew, hready⟩

theorem calloc_spec (h0 : Ready h L) {n size : UInt16} (hok : ProductOk n size) :
    Succeeds (calloc n size) h fun p h' =>
      (p = 0 ∧ Ready h' L) ∨ Fresh L p (List.replicate (n.toNat * size.toNat) 0) h' := by
  unfold calloc
  simp only [wp_bind]
  refine (malloc_spec h0 (n * size)).mono ?_
  rintro p h' (⟨rfl, hready⟩ | ⟨⟨hp, hinside, l, r, hgiven⟩, hsize, -⟩)
  · rw [if_pos rfl]
    exact .inl ⟨rfl, hready⟩
  · have hmul : (n * size).toNat = n.toNat * size.toNat % 2 ^ 16 := UInt16.toNat_mul ..
    have hproduct : (n * size).toNat = n.toNat * size.toNat := by
      rcases hok with hlt | hbig
      · rw [hmul, Nat.mod_eq_of_lt hlt]
      · omega
    rw [if_neg hp, hproduct]
    simp only [wp_bind, wp_modify, wp_pure]
    have hroom := hgiven.room
    rw [hproduct] at hroom hgiven
    have hlen : (List.replicate (n.toNat * size.toNat) (0 : UInt8)).length = n.toNat * size.toNat :=
      List.length_replicate
    obtain ⟨hnew, hready⟩ := @Given.fill _ _ _ _ _ _ (List.replicate (n.toNat * size.toNat) 0) hgiven
      hinside (clear (n.toNat * size.toNat) p h'.mem) (fun x hx => by
        rw [clear_apply, if_neg (by omega)]) (by rw [hlen]) (by rw [hlen, read_clear])
    exact .inr ⟨hp, hnew, hready⟩

/-! ## §2 What Is Expected -/

/-- The blocks that a program has, and what it has written to them. -/
abbrev Blocks := ℤ → Option (List UInt8)

/-- The heap holds the blocks; they are aligned and do not overlap. -/
structure Sound (h : Heap) (blocks : Blocks) : Prop where
  slots : ∃ L, Ready h L ∧ ∀ p bytes, blocks p = some bytes ↔ ⟨p, some bytes⟩ ∈ L
  aligned : ∀ p bytes, blocks p = some bytes → 4 ∣ p
  apart : ∀ p q bytes bytes', blocks p = some bytes → blocks q = some bytes' → p < q → p + bytes.length ≤ q

/-- The result of a call, and the blocks of the program afterwards. -/
inductive Expected : Call → Blocks → Except Fault ℤ → Blocks → Prop where
  | malloc {size blocks p bytes} (hp : p ≠ 0) (hnew : blocks p = none) (hlen : bytes.length = size.toNat) :
    Expected (.malloc size) blocks (.ok p) (update blocks p (some bytes))
  | noMalloc {size blocks} : Expected (.malloc size) blocks (.ok 0) blocks
  | calloc {n size blocks p} (hp : p ≠ 0) (hnew : blocks p = none) :
    Expected (.calloc n size) blocks (.ok p)
      (update blocks p (some (List.replicate (n.toNat * size.toNat) 0)))
  | noCalloc {n size blocks} : Expected (.calloc n size) blocks (.ok 0) blocks
  | realloc {p size blocks q bytes bytes'} (hq : q ≠ 0) (hold : blocks p = some bytes)
    (hnew : q = p ∨ blocks q = none) (hlen : bytes'.length = size.toNat)
    (hkept : bytes'.take (min bytes.length size.toNat) = bytes.take (min bytes.length size.toNat)) :
    Expected (.realloc p size) blocks (.ok q)
      (update (update blocks p none) q (some bytes'))
  | noRealloc {p size blocks} : Expected (.realloc p size) blocks (.ok 0) blocks
  | free {p blocks} : Expected (.free p) blocks (.ok 0) (update blocks p none)
  | store {p i c blocks bytes} (hold : blocks p = some bytes) :
    Expected (.store p i c) blocks (.ok 0) (update blocks p (some (bytes.set i c)))

/-- What is expected of a call: its result, and a heap that is in order. -/
def Meets (c : Call) (blocks : Blocks) (res : Except Fault ℤ) (h' : Heap) (blocks' : Blocks) : Prop :=
  Expected c blocks res blocks' ∧ Sound h' blocks'

/-- What a program has to see to. -/
def Legal (c : Call) (_ : Heap) (blocks : Blocks) : Prop :=
  match c with
  | .malloc _ | .calloc _ _ => True
  | .realloc p _ | .free p => ∃ bytes, blocks p = some bytes
  | .store p i _ => ∃ bytes, blocks p = some bytes ∧ i < bytes.length

/-- What it has to see to besides: that products are right, and that the slot of a block that is given back
    has room for a link. -/
def Roomy (c : Call) (h : Heap) : Prop :=
  match c with
  | .malloc _ | .store _ _ _ => True
  | .calloc n size => ProductOk n size
  | .realloc p size => MayMove h p size
  | .free p => p + 2 * ptrSize ≤ nextSlot h.mem p

def Careful (c : Call) (h : Heap) (blocks : Blocks) : Prop := Legal c h blocks ∧ Roomy c h

/-! ## §3 Runs -/

section

variable {blocks : Blocks}

/-- The blocks are what there is in the slots. -/
theorem sound_of_ready (hready : Ready h L) (hblocks : ∀ p bytes, blocks p = some bytes ↔ ⟨p, some bytes⟩ ∈ L) :
    Sound h blocks := by
  refine ⟨⟨L, hready, hblocks⟩, fun p bytes hp => ?_, fun p q bytes bytes' hp hq hlt => ?_⟩
  · obtain ⟨l, r, -, horder, -⟩ := hready.split ((hblocks p bytes).mp hp)
    exact horder.slots.laid.parts.2.1.aligned
  · obtain ⟨l, r, hlive, horder, -⟩ := hready.split ((hblocks p bytes).mp hp)
    have hmem := (hblocks q bytes').mp hq
    rw [← hlive] at hmem
    have hbehind := horder.slots.laid.apart (s := ⟨p, some bytes⟩) (by simp) (mem_live.mp hmem) hlt
    have hroom := horder.slots.laid.parts.2.1.room
    have hptr : ptrSize = 4 := rfl
    simp only [Slot.need] at hroom hbehind
    omega

theorem sound_replaced {d : Option Slot} {b : Option (List UInt8)} (hd : d = b.map fun bytes => ⟨q, some bytes⟩)
    (hblocks : ∀ p bytes, blocks p = some bytes ↔ ⟨p, some bytes⟩ ∈ L) (hnew : q = p ∨ ∀ s ∈ L, s.start ≠ q)
    (hleaves : Leaves h' L p d) : Sound h' (update (update blocks p none) q b) := by
  obtain ⟨L', hready, hmem⟩ := hleaves
  refine sound_of_ready hready fun x bytes => ?_
  rw [hmem, hd]
  rcases eq_or_ne x q with rfl | hxq
  · rw [update_self]
    constructor
    · intro hb
      exact .inl (by rw [hb]; rfl)
    · rintro (hb | ⟨hin, hne⟩)
      · obtain ⟨bytes', hb', hslot⟩ := Option.map_eq_some_iff.mp hb
        rw [hb', Option.some.injEq]
        exact Option.some.inj (congrArg Slot.data hslot)
      · rcases hnew with rfl | hnew
        · exact absurd rfl hne
        · exact absurd rfl (hnew _ hin)
  · rw [update_of_ne hxq]
    have hother : ¬(b.map fun bytes => (⟨q, some bytes⟩ : Slot)) = some ⟨x, some bytes⟩ := by
      intro hb
      obtain ⟨bytes', -, hslot⟩ := Option.map_eq_some_iff.mp hb
      exact hxq (congrArg Slot.start hslot).symm
    rw [or_iff_right hother]
    rcases eq_or_ne x p with rfl | hxp
    · rw [update_self]
      simp
    · rw [update_of_ne hxp, hblocks]
      exact ⟨fun hin => ⟨hin, hxp⟩, fun hin => hin.1⟩

theorem sound_fresh (hblocks : ∀ p bytes, blocks p = some bytes ↔ ⟨p, some bytes⟩ ∈ L)
    (hfresh : Fresh L p bytes h') :
    blocks p = none ∧ Sound h' (update blocks p (some bytes)) := by
  obtain ⟨-, hnew, L', hready, hmem⟩ := hfresh
  have hnone : blocks p = none := by
    cases hp : blocks p with
    | none => rfl
    | some b => exact absurd rfl (hnew _ ((hblocks p b).mp hp))
  have hsame : update blocks p none = blocks := by rw [← hnone, update_eq_self]
  have hsound := @sound_replaced h' L p p blocks (some ⟨p, some bytes⟩) (some bytes) rfl hblocks
    (.inl rfl) ⟨L', hready, fun s => by
      rw [hmem]
      exact or_congr_right ⟨fun hs => ⟨hs, hnew s hs⟩, fun hs => hs.1⟩⟩
  rw [hsame] at hsound
  exact ⟨hnone, hsound⟩

/-- What is returned, when nothing fails. -/
theorem Succeeds.returns {α : Type} {c : C α} {Q : α → Heap → Prop} (hc : Succeeds c h Q) :
    ∃ a h', c h = (.ok a, h') ∧ Q a h' := by
  unfold Succeeds Wp at hc
  cases hrun : c h with
  | mk res h' =>
    rw [hrun] at hc
    cases res with
    | error e => exact hc.elim
    | ok a => exact ⟨a, h', rfl, hc⟩

/-- A careful call is as expected. -/
theorem call_meets (c : Call) (hsound : Sound h blocks) (hok : Careful c h blocks) :
    ∃ blocks', Meets c blocks (call c h).1 (call c h).2 blocks' ∧ Sound (call c h).2 blocks' := by
  obtain ⟨⟨L, hready, hblocks⟩, -, -⟩ := hsound
  obtain ⟨hlegal, hroomy⟩ := hok
  have hmeets : ∃ res h' blocks', call c h = (res, h') ∧ Expected c blocks res blocks' ∧ Sound h' blocks' := by
    cases c with
    | malloc size =>
      obtain ⟨p, h', hrun, ⟨rfl, hready'⟩ | ⟨bytes, hlen, hfresh⟩⟩ := (malloc_fresh hready size).returns
      · exact ⟨_, h', blocks, hrun, .noMalloc, sound_of_ready hready' hblocks⟩
      · obtain ⟨hnone, hsound'⟩ := sound_fresh hblocks hfresh
        exact ⟨_, h', _, hrun, .malloc hfresh.ne_zero hnone hlen, hsound'⟩
    | calloc n size =>
      obtain ⟨p, h', hrun, ⟨rfl, hready'⟩ | hfresh⟩ := (calloc_spec hready hroomy).returns
      · exact ⟨_, h', blocks, hrun, .noCalloc, sound_of_ready hready' hblocks⟩
      · obtain ⟨hnone, hsound'⟩ := sound_fresh hblocks hfresh
        exact ⟨_, h', _, hrun, .calloc hfresh.ne_zero hnone, hsound'⟩
    | realloc p size =>
      obtain ⟨bytes, hp⟩ := hlegal
      obtain ⟨q, h', hrun, hresized⟩ := (realloc_spec hready ((hblocks p bytes).mp hp) hroomy).returns
      cases hresized with
      | refused hq hleaves =>
        subst hq
        have hsound' := sound_replaced (b := some bytes) rfl hblocks (.inl rfl) hleaves
        rw [update_idem, ← hp, update_eq_self] at hsound'
        exact ⟨_, h', blocks, hrun, .noRealloc, hsound'⟩
      | done bytes' hq hnew hlen hkept hleaves =>
        refine ⟨_, h', _, hrun, .realloc hq hp ?_ hlen hkept, sound_replaced rfl hblocks hnew hleaves⟩
        rcases hnew with heq | hnew
        · exact .inl heq
        · right
          cases hq' : blocks q with
          | none => rfl
          | some b => exact absurd rfl (hnew _ ((hblocks q b).mp hq'))
    | free p =>
      obtain ⟨bytes, hp⟩ := hlegal
      obtain ⟨l, r, rfl, horder, hspaced, hinside⟩ := hready.split ((hblocks p bytes).mp hp)
      obtain ⟨u, h', hrun, hleaves⟩ := (free_leaves horder hspaced hinside hroomy).returns
      have hsound' := sound_replaced (b := none) (q := p) rfl hblocks (.inl rfl) hleaves
      rw [update_idem] at hsound'
      refine ⟨.ok 0, h', _, ?_, .free, hsound'⟩
      change (do free p; return 0 : C ℤ) h = _
      rw [run_bind, hrun]
      rfl
    | store p i c =>
      obtain ⟨bytes, hp, hi⟩ := hlegal
      obtain ⟨l, r, rfl, horder, hspaced, hinside⟩ := hready.split ((hblocks p bytes).mp hp)
      obtain ⟨-, hholds, -⟩ := horder.slots.laid.parts
      have hroom := hholds.room
      have hdata := hholds.data bytes rfl
      simp only [Slot.need] at hroom hdata
      have hset : Memory.read (update h.mem (p + i) c) p (bytes.set i c).length = bytes.set i c := by
        rw [List.length_set, Memory.read_update, hdata]
      have hptr : ptrSize = 4 := rfl
      obtain ⟨-, hleaves⟩ := @leaves_refill _ _ _ _ _ _ horder hspaced hinside
        (update h.mem (p + i) c) (fun x hx => update_of_ne (by omega) _ _)
        (by rw [List.length_set]; omega) hset
      have hsound' := sound_replaced (b := some (bytes.set i c)) rfl hblocks (.inl rfl) hleaves
      rw [update_idem] at hsound'
      exact ⟨_, _, _, rfl, .store hp, hsound'⟩
  obtain ⟨res, h', blocks', hrun, hexpected, hsound'⟩ := hmeets
  rw [hrun]
  exact ⟨blocks', ⟨hexpected, hsound'⟩, hsound'⟩

end

/-- As long as a program is careful, the heap is in order and the calls are as expected. -/
theorem heap_follows (mem : Memory) (brk : ℕ) (grants : ℕ → Bool) (calls : List Call) :
    Follows call Careful Meets calls (initial mem brk grants) fun _ => none := by
  refine .of_simulation Sound (fun c h blocks hsound hok => call_meets c hsound hok) calls ?_
  refine sound_of_ready (.unused rfl rfl (Int.natCast_nonneg brk) rfl) fun p bytes => ?_
  simp

section

variable {blocks blocks' : Blocks} {size : UInt16} {res : Except Fault ℤ}

theorem Expected.malloc_eq (h : Expected (.malloc size) blocks res blocks') (hres : res = .ok p) (hp : p ≠ 0) :
    ∃ bytes, blocks' p = some bytes := by
  subst hres
  cases h with
  | malloc => exact ⟨_, update_self ..⟩
  | noMalloc => exact absurd rfl hp

theorem Expected.realloc_eq (h : Expected (.realloc p size) blocks res blocks') (hres : res = .ok q) (hq : q ≠ 0) :
    ∃ bytes, blocks' q = some bytes := by
  subst hres
  cases h with
  | realloc => exact ⟨_, update_self ..⟩
  | noRealloc => exact absurd rfl hq

end

/-- The first slot is of one pointer, and the next one begins with `NULL`. -/
theorem Sound.not_broken {blocks : Blocks} {a b : ℤ} (hsound : Sound h blocks) (ha : h.bottom = a) (ha0 : 0 < a)
    (hnext : nextSlot h.mem a = b) (hzero : nextSlot h.mem b = 0) (hb : 0 < b) (htop : h.top ≠ a)
    (htop' : h.top ≠ b) :
    False := by
  obtain ⟨⟨L, hready, -⟩, -, -⟩ := hsound
  cases hready with
  | unused hbottom => omega
  | used ss horder =>
    have hlaid := horder.slots.laid
    rw [ha] at hlaid
    cases ss with
    | nil => exact htop hlaid.symm
    | cons s ss =>
      obtain ⟨-, -, hrest⟩ := hlaid
      rw [hnext] at hrest
      cases ss with
      | nil => exact htop' hrest.symm
      | cons u ss =>
        obtain ⟨hu, hholds, -⟩ := hrest
        have hlt := hholds.lt
        have hptr : ptrSize = 4 := rfl
        rw [hu, hzero] at hlt
        omega

/-- A block is made empty and then given back: the link that `free` writes lies on the pointer of the slot
    behind it, and the slots do not reach the top of the heap any more. -/
theorem heap_broken : ¬Follows call Legal Meets [.malloc 8, .realloc 4100 0, .free 4100]
    (initial (fun _ => 0) 4096 fun _ => true) fun _ => none := by
  intro h
  obtain ⟨blocks₁, ⟨h1, -⟩, h⟩ := h trivial
  obtain ⟨bytes₁, hblock1⟩ := h1.malloc_eq (p := 4100) (by decide +kernel) (by decide)
  obtain ⟨blocks₂, ⟨h2, -⟩, h⟩ := h ⟨bytes₁, hblock1⟩
  obtain ⟨bytes₂, hblock2⟩ := h2.realloc_eq (q := 4100) (by decide +kernel) (by decide)
  obtain ⟨blocks₃, ⟨-, h3⟩, -⟩ := h ⟨bytes₂, hblock2⟩
  exact h3.not_broken (a := 4100) (b := 4104) (by decide +kernel) (by decide) (by decide +kernel)
    (by decide +kernel) (by decide) (by decide +kernel) (by decide +kernel)

end LisaMinix.Libc.Malloc
