import LisaMinix.Libc.Malloc

/-!
# The Slots of the Heap

What the memory of the heap stands for: slots that lie behind one another, with the data of a program or
with a link to the next free slot.

- `Laid`: the slots from an address on, chained by `NextSlot`; `Slots` is the whole area.
- `Slots.refill`, `.split`, `.absorb`, `.extend`: what the functions make of them.
- `Linked`: the list of the free slots, and which stores leave it alone.
-/

namespace LisaMinix.Libc.Malloc

open LisaMinix.Library

/-! ## §1 Slots -/

structure Slot where
  start : ℤ
  /-- what a program has in it; `none` when the slot is free -/
  data : Option (List UInt8)

namespace Slot

def free (s : Slot) : Bool := s.data.isNone

/-- The bytes that have to fit: the link of a free slot, or the data. -/
def need (s : Slot) : ℤ :=
  match s.data with
  | none => ptrSize
  | some bytes => bytes.length

end Slot

/-- The slot is in the memory. -/
structure Holds (m : Memory) (s : Slot) : Prop where
  aligned : 4 ∣ s.start
  room : s.start + s.need + ptrSize ≤ nextSlot m s.start
  data : ∀ bytes ∈ s.data, m.read s.start bytes.length = bytes

/-- The slots from `a` on, chained by `NextSlot`, end at `b`. -/
def Laid (m : Memory) : ℤ → List Slot → ℤ → Prop
  | a, [], b => a = b
  | a, s :: ss, b => s.start = a ∧ Holds m s ∧ Laid m (nextSlot m a) ss b

section

variable {m m' : Memory} {a b c p q v : ℤ} {s u : Slot} {l r ss : List Slot}

theorem Slot.need_nonneg (s : Slot) : 0 ≤ s.need := by
  unfold Slot.need
  split
  · decide
  · exact Int.natCast_nonneg _

theorem Holds.lt (h : Holds m s) : s.start + ptrSize ≤ nextSlot m s.start := by
  have hroom := h.room
  have hneed := s.need_nonneg
  omega

theorem long_same (h : ∀ x, p ≤ x → x < p + 4 → m' x = m x) : m'.long p = m.long p :=
  Memory.long_congr h

theorem nextSlot_same (h : ∀ x, p - ptrSize ≤ x → x < p → m' x = m x) : nextSlot m' p = nextSlot m p := by
  unfold nextSlot
  rw [long_same]
  intro x hlo hhi
  unfold ptrSize at hlo hhi
  exact h x hlo (by omega)

/-- A slot, the pointer in front of it included, depends on nothing else. -/
theorem Holds.congr (h : Holds m s)
    (hsame : ∀ x, s.start - ptrSize ≤ x → x < nextSlot m s.start - ptrSize → m' x = m x) :
    Holds m' s ∧ nextSlot m' s.start = nextSlot m s.start := by
  have hroom := h.room
  have hneed := s.need_nonneg
  have hnext : nextSlot m' s.start = nextSlot m s.start :=
    nextSlot_same fun x hlo hhi => hsame x hlo (by omega)
  refine ⟨⟨h.aligned, by rw [hnext]; exact hroom, fun bytes hbytes => ?_⟩, hnext⟩
  have hlen : s.need = bytes.length := by
    unfold Slot.need
    rw [Option.mem_def.mp hbytes]
  rw [Memory.read_congr (n := bytes.length) (m := m)]
  · exact h.data bytes hbytes
  · intro x hlo hhi
    exact hsame x (by unfold ptrSize; omega) (by omega)

theorem laid_append : Laid m a (l ++ r) b ↔ ∃ c, Laid m a l c ∧ Laid m c r b := by
  induction l generalizing a with
  | nil => simp [Laid]
  | cons s l ih =>
    constructor
    · rintro ⟨hs, hholds, hrest⟩
      obtain ⟨c, hl, hr⟩ := ih.mp hrest
      exact ⟨c, ⟨hs, hholds, hl⟩, hr⟩
    · rintro ⟨c, ⟨hs, hholds, hl⟩, hr⟩
      exact ⟨hs, hholds, ih.mpr ⟨c, hl, hr⟩⟩

theorem laid_cons (h : Laid m a l s.start) (hs : Holds m s) (hr : Laid m (nextSlot m s.start) r b) :
    Laid m a (l ++ s :: r) b := laid_append.mpr ⟨s.start, h, rfl, hs, hr⟩

/-- The slots before and behind one of them. -/
theorem Laid.parts (h : Laid m a (l ++ s :: r) b) :
    Laid m a l s.start ∧ Holds m s ∧ Laid m (nextSlot m s.start) r b := by
  obtain ⟨c, hl, hs, hholds, hr⟩ := laid_append.mp h
  subst hs
  exact ⟨hl, hholds, hr⟩

theorem Laid.le (h : Laid m a ss b) : a + ptrSize * ss.length ≤ b := by
  induction ss generalizing a with
  | nil => exact le_of_eq (by simpa [Laid] using h)
  | cons s ss ih =>
    obtain ⟨rfl, hs, hrest⟩ := h
    have hrest' := ih hrest
    have hlt := hs.lt
    simp only [ptrSize, List.length_cons] at hrest' hlt ⊢
    push_cast
    omega

theorem Laid.within (h : Laid m a ss b) (hs : s ∈ ss) :
    a ≤ s.start ∧ nextSlot m s.start ≤ b ∧ Holds m s := by
  obtain ⟨l, r, rfl⟩ := List.append_of_mem hs
  obtain ⟨hl, hholds, hr⟩ := h.parts
  have h1 := hl.le
  have h2 := hr.le
  simp only [ptrSize] at h1 h2
  exact ⟨by omega, by omega, hholds⟩

/-- The slots depend on nothing but the memory that they take up. -/
theorem Laid.congr (h : Laid m a ss b) (hsame : ∀ x, a - ptrSize ≤ x → x < b - ptrSize → m' x = m x) :
    Laid m' a ss b := by
  induction ss generalizing a with
  | nil => exact h
  | cons s ss ih =>
    obtain ⟨rfl, hs, hrest⟩ := h
    have hle := hrest.le
    have hlt := hs.lt
    simp only [ptrSize] at hle hlt hsame
    obtain ⟨hs', hnext⟩ := @Holds.congr m m' s hs fun x hlo hhi =>
      hsame x hlo (by unfold ptrSize at hhi; omega)
    refine ⟨rfl, hs', ?_⟩
    rw [hnext]
    exact ih hrest fun x hlo hhi => hsame x (by unfold ptrSize at hlo; omega) hhi

/-- Of two slots one lies behind the other. -/
theorem Laid.apart (h : Laid m a ss b) (hs : s ∈ ss) (hu : u ∈ ss) (hlt : s.start < u.start) :
    nextSlot m s.start ≤ u.start := by
  obtain ⟨l, r, rfl⟩ := List.append_of_mem hs
  obtain ⟨hl, hholds, hr⟩ := h.parts
  rcases List.mem_append.mp hu with hu | hu
  · obtain ⟨-, hle, hu⟩ := hl.within hu
    have := hu.lt
    simp only [ptrSize] at this
    omega
  · rcases List.mem_cons.mp hu with rfl | hu
    · exact absurd hlt (lt_irrefl _)
    · exact (hr.within hu).1

/-- No two slots begin at one address. -/
theorem Laid.inj (h : Laid m a ss b) (hs : s ∈ ss) (hu : u ∈ ss) (heq : s.start = u.start) : s = u := by
  obtain ⟨l, r, rfl⟩ := List.append_of_mem hs
  obtain ⟨hl, hholds, hr⟩ := h.parts
  have hlt := hholds.lt
  rcases List.mem_append.mp hu with hu | hu
  · obtain ⟨-, hle, hu⟩ := hl.within hu
    have := hu.lt
    simp only [ptrSize] at this
    omega
  · rcases List.mem_cons.mp hu with rfl | hu
    · rfl
    · have := (hr.within hu).1
      simp only [ptrSize] at hlt
      omega

theorem Laid.aligned (h : Laid m a ss b) (hb : 4 ∣ b) : 4 ∣ a := by
  cases ss with
  | nil =>
    obtain rfl : a = b := h
    exact hb
  | cons s ss =>
    obtain ⟨rfl, hs, -⟩ := h
    exact hs.aligned

/-! ## §2 The Area -/

/-- The slots fill the area from `a` to `t`, where there is one more pointer, which is `NULL`. -/
structure Slots (m : Memory) (a : ℤ) (ss : List Slot) (t : ℤ) : Prop where
  laid : Laid m a ss t
  last : nextSlot m t = 0
  above : ptrSize ≤ a
  aligned : 4 ∣ t
  limit : t ≤ addressLimit

variable {t new : ℤ} {d d' : Option (List UInt8)}

theorem nextSlot_store (h0 : 0 ≤ v) (h : v < 2 ^ 32) :
    nextSlot (m.storeLong (p - ptrSize) v.toNat) p = v := by
  unfold nextSlot
  rw [Memory.long_storeLong]
  omega

theorem nextSlot_store_of_ne (hp : 4 ∣ p) (hc : 4 ∣ c) (hne : p ≠ c + ptrSize) {n : ℕ} :
    nextSlot (m.storeLong c n) p = nextSlot m p := by
  unfold nextSlot
  unfold ptrSize at hne ⊢
  rw [Memory.long_storeLong_of_ne hc (by omega) (by omega)]

theorem store_outside {n : ℕ} {x : ℤ} (h : x < c ∨ c + ptrSize ≤ x) : m.storeLong c n x = m x :=
  Memory.write_outside (by simpa [ptrSize] using h)

section

variable (h : Slots m a (l ++ s :: r) t)

include h

/-- Where a slot is, and its pointers. -/
theorem Slots.bounds : ptrSize ≤ s.start ∧ s.start + ptrSize ≤ nextSlot m s.start ∧ 4 ∣ nextSlot m s.start ∧
    nextSlot m s.start ≤ t ∧ nextSlot m s.start < 2 ^ 32 := by
  obtain ⟨hl, hs, hr⟩ := h.laid.parts
  have h1 := hl.le
  have h2 := hr.le
  have h3 := h.above
  have h4 := h.limit
  simp only [ptrSize, addressLimit] at h1 h2 h3 h4 ⊢
  exact ⟨by omega, hs.lt, hr.aligned h.aligned, by omega, by omega⟩

/-- The user part of a slot gets another content, and perhaps another meaning. -/
theorem Slots.refill (hsame : ∀ x, x < s.start ∨ nextSlot m s.start - ptrSize ≤ x → m' x = m x)
    (hneed : s.start + (⟨s.start, d⟩ : Slot).need + ptrSize ≤ nextSlot m s.start)
    (hdata : ∀ bytes ∈ d, m'.read s.start bytes.length = bytes) :
    Slots m' a (l ++ ⟨s.start, d⟩ :: r) t := by
  obtain ⟨hl, hs, hr⟩ := h.laid.parts
  obtain ⟨-, -, -, htop, -⟩ := h.bounds
  have hnext : nextSlot m' s.start = nextSlot m s.start := nextSlot_same fun x _ hhi => hsame x (.inl hhi)
  refine ⟨laid_cons ?_ ⟨hs.aligned, by rw [hnext]; exact hneed, hdata⟩ ?_, ?_, h.above, h.aligned, h.limit⟩
  · apply hl.congr
    intro x _ hhi
    exact hsame x (.inl (by unfold ptrSize at hhi; omega))
  · rw [hnext]
    apply hr.congr
    intro x hlo _
    exact hsame x (.inr hlo)
  · rw [nextSlot_same fun x hlo _ => hsame x (.inr (by omega))]
    exact h.last

/-- A slot is split at `new`. -/
theorem Slots.split (hnew : 4 ∣ new) (hneed : s.start + (⟨s.start, d⟩ : Slot).need + ptrSize ≤ new)
    (hneed' : new + (⟨new, d'⟩ : Slot).need + ptrSize ≤ nextSlot m s.start)
    (hdata : ∀ bytes ∈ d, m.read s.start bytes.length = bytes) (hdata' : ∀ bytes ∈ d', bytes = []) :
    Slots ((m.storeLong (new - ptrSize) (nextSlot m s.start).toNat).storeLong (s.start - ptrSize) new.toNat)
      a (l ++ ⟨s.start, d⟩ :: ⟨new, d'⟩ :: r) t := by
  obtain ⟨hl, hs, hr⟩ := h.laid.parts
  obtain ⟨hlow, hlt, -, htop, hlimit⟩ := h.bounds
  have hpos := Slot.need_nonneg ⟨s.start, d⟩
  have hpos' := Slot.need_nonneg ⟨new, d'⟩
  have hal := hs.aligned
  set m₁ := m.storeLong (new - ptrSize) (nextSlot m s.start).toNat with hm1
  set m₂ := m₁.storeLong (s.start - ptrSize) new.toNat with hm2
  simp only [ptrSize] at *
  have hsame : ∀ x, x < s.start - 4 ∨ s.start ≤ x ∧ x < new - 4 ∨ new ≤ x → m₂ x = m x := by
    intro x hx
    rw [hm2, store_outside (by unfold ptrSize; omega), hm1, store_outside (by unfold ptrSize; omega)]
  have hnext : nextSlot m₂ s.start = new := nextSlot_store (by omega) (by omega)
  have hnext' : nextSlot m₂ new = nextSlot m s.start := by
    rw [hm2, nextSlot_store_of_ne hnew (by omega) (by unfold ptrSize; omega)]
    exact nextSlot_store (by omega) hlimit
  refine ⟨laid_cons (s := ⟨s.start, d⟩) ?_ ⟨hal, ?_, fun bytes hbytes => ?_⟩ ?_, ?_, h.above, h.aligned,
    h.limit⟩
  · exact hl.congr fun x _ hhi => hsame x (.inl hhi)
  · rw [hnext]
    exact hneed
  · have hlen : (⟨s.start, d⟩ : Slot).need = bytes.length := by
      unfold Slot.need
      rw [Option.mem_def.mp hbytes]
    rw [Memory.read_congr (n := bytes.length) (m := m)]
    · exact hdata bytes hbytes
    · intro x hlo hhi
      dsimp only at hlo hhi
      exact hsame x (.inr (.inl (by omega)))
  · dsimp only
    rw [hnext]
    refine ⟨rfl, ⟨hnew, by rw [hnext']; exact hneed', fun bytes hbytes => ?_⟩, ?_⟩
    · rw [hdata' bytes hbytes]
      rfl
    · rw [hnext']
      exact hr.congr fun x hlo _ => hsame x (.inr (.inr (by unfold ptrSize at hlo; omega)))
  · rw [nextSlot_same fun x hlo _ => hsame x (.inr (.inr (by unfold ptrSize at hlo; omega)))]
    exact h.last

end

/-- A slot takes up the next one. -/
theorem Slots.absorb (h : Slots m a (l ++ s :: u :: r) t) :
    Slots (m.storeLong (s.start - ptrSize) (nextSlot m u.start).toNat) a (l ++ s :: r) t := by
  obtain ⟨hl, hs, hu, hholds, hr⟩ := h.laid.parts
  obtain ⟨hlow, hlt, -, -, -⟩ := h.bounds
  have hsplit : Slots m a ((l ++ [s]) ++ u :: r) t := by simpa using h
  obtain ⟨-, hlt', hal', htop', hlimit'⟩ := hsplit.bounds
  have hroom := hs.room
  rw [← hu] at hroom hr
  set m' := m.storeLong (s.start - ptrSize) (nextSlot m u.start).toNat with hm'
  simp only [ptrSize] at *
  have hsame : ∀ x, x < s.start - 4 ∨ s.start ≤ x → m' x = m x := by
    intro x hx
    exact store_outside (by unfold ptrSize; omega)
  have hnext : nextSlot m' s.start = nextSlot m u.start := nextSlot_store (by omega) hlimit'
  refine ⟨laid_cons ?_ ⟨hs.aligned, ?_, fun bytes hbytes => ?_⟩ ?_, ?_, h.above, h.aligned, h.limit⟩
  · exact hl.congr fun x _ hhi => hsame x (.inl hhi)
  · rw [hnext]
    simp only [ptrSize]
    omega
  · rw [Memory.read_congr fun x hlo _ => hsame x (.inr hlo)]
    exact hs.data bytes hbytes
  · rw [hnext]
    exact hr.congr fun x hlo _ => hsame x (.inr (by unfold ptrSize at hlo; omega))
  · rw [nextSlot_same fun x hlo _ => hsame x (.inr (by unfold ptrSize at hlo; omega))]
    exact h.last

/-- The area grows by one slot. -/
theorem Slots.extend (h : Slots m a ss t) (hp : 4 ∣ p) (hle : t + ptrSize ≤ p) (hlimit : p ≤ addressLimit) :
    Slots ((m.storeLong (t - ptrSize) p.toNat).storeLong (p - ptrSize) (0 : ℤ).toNat) a
      (ss ++ [⟨t, some []⟩]) p := by
  have hlow := h.laid.le
  have habove := h.above
  have hal := h.aligned
  set m₁ := m.storeLong (t - ptrSize) p.toNat with hm1
  set m₂ := m₁.storeLong (p - ptrSize) (0 : ℤ).toNat with hm2
  simp only [ptrSize, addressLimit] at *
  have hsame : ∀ x, x < t - 4 → m₂ x = m x := by
    intro x hx
    rw [hm2, store_outside (by unfold ptrSize; omega), hm1, store_outside (by unfold ptrSize; omega)]
  have hnext : nextSlot m₂ t = p := by
    rw [hm2, nextSlot_store_of_ne hal (by omega) (by unfold ptrSize; omega)]
    exact nextSlot_store (by omega) (by omega)
  refine ⟨laid_cons (s := ⟨t, some []⟩) ?_ ⟨hal, ?_, fun bytes hbytes => ?_⟩ ?_, ?_, h.above, hp, hlimit⟩
  · exact h.laid.congr fun x _ hhi => hsame x hhi
  · rw [hnext]
    simpa [Slot.need, ptrSize] using hle
  · obtain rfl := Option.mem_some.mp hbytes
    rfl
  · exact hnext
  · exact nextSlot_store le_rfl (by norm_num)

/-! ## §3 The List of Free Slots -/

/-- A pointer, `none` for `NULL`. -/
def ptr (v : ℤ) : Option ℤ := if v = 0 then none else some v

/-- The free slot behind a free slot. -/
def link (m : Memory) (x : ℤ) : Option ℤ := ptr (nextFree m x)

def frees (ss : List Slot) : List ℤ := (ss.filter Slot.free).map Slot.start

/-- From `e` on the links go through `fs`, and then to `q`. -/
abbrev Linked (m : Memory) (e : ℤ) (fs : List ℤ) (q : ℤ) : Prop := Seg (link m) (ptr e) fs (ptr q)

variable {e x y : ℤ} {fs fl fr : List ℤ} {bytes : List UInt8}

@[simp] theorem frees_nil : frees [] = [] := rfl

@[simp] theorem frees_append : frees (l ++ r) = frees l ++ frees r := by simp [frees]

@[simp] theorem frees_free : frees (⟨p, none⟩ :: r) = p :: frees r := rfl

@[simp] theorem frees_live : frees (⟨p, some bytes⟩ :: r) = frees r := rfl

theorem mem_frees : x ∈ frees ss ↔ ⟨x, none⟩ ∈ ss := by
  unfold frees
  rw [List.mem_map]
  constructor
  · rintro ⟨⟨start, data⟩, hs, rfl⟩
    obtain ⟨hmem, hfree⟩ := List.mem_filter.mp hs
    obtain rfl : data = none := Option.isNone_iff_eq_none.mp hfree
    exact hmem
  · intro hmem
    exact ⟨_, List.mem_filter.mpr ⟨hmem, rfl⟩, rfl⟩

/-- Where a free slot is in the list it is in the area. -/
theorem frees_split (h : frees ss = fl ++ x :: fr) :
    ∃ l r, ss = l ++ ⟨x, none⟩ :: r ∧ frees l = fl ∧ frees r = fr := by
  obtain ⟨gl, g, hfilter, hgl, hg⟩ := List.map_eq_append_iff.mp h
  obtain ⟨l, r, rfl, hl, hr⟩ := List.filter_eq_append_iff.mp hfilter
  obtain ⟨s, gr, rfl, hs, hgr⟩ := List.map_eq_cons_iff.mp hg
  obtain ⟨r₁, r₂, rfl, hskip, hfree, hr2⟩ := List.filter_eq_cons_iff.mp hr
  refine ⟨l ++ r₁, r₂, ?_, ?_, ?_⟩
  · obtain ⟨start, data⟩ := s
    obtain rfl : data = none := Option.isNone_iff_eq_none.mp hfree
    obtain rfl : start = x := hs
    simp
  · have hnone : frees r₁ = [] := by
      unfold frees
      rw [List.filter_eq_nil_iff.mpr hskip]
      rfl
    rw [frees_append, hnone, List.append_nil]
    unfold frees
    rw [hl, hgl]
  · unfold frees
    rw [hr2, hgr]

theorem ptr_eq_some : ptr v = some x ↔ v = x ∧ x ≠ 0 := by
  unfold ptr
  split
  · next h => simp [h, eq_comm]
  · next h =>
    rw [Option.some.injEq]
    exact ⟨fun heq => ⟨heq, heq ▸ h⟩, fun heq => heq.1⟩

theorem ptr_eq_none : ptr v = none ↔ v = 0 := by
  unfold ptr
  split <;> simp_all

theorem ptr_headD (hne : ∀ x ∈ fs, x ≠ 0) : ptr (fs.headD 0) = fs.head? := by
  cases fs with
  | nil => rfl
  | cons x fs => exact ptr_eq_some.mpr ⟨rfl, hne x List.mem_cons_self⟩

/-- The first of the free slots, if there is one. -/
theorem Linked.head (h : Linked m e fs 0) : e = fs.headD 0 := by
  cases fs with
  | nil => exact ptr_eq_none.mp h
  | cons x fs => exact (ptr_eq_some.mp h.1).1

theorem linked_append (hne : ∀ x ∈ fr, x ≠ 0) :
    Linked m e (fl ++ fr) 0 ↔ Linked m e fl (fr.headD 0) ∧ Linked m (fr.headD 0) fr 0 := by
  unfold Linked
  rw [seg_append, ptr_headD hne]
  constructor
  · rintro ⟨mid, hl, hr⟩
    obtain rfl := Chain.head_eq hr
    exact ⟨hl, hr⟩
  · rintro ⟨hl, hr⟩
    exact ⟨_, hl, hr⟩

theorem link_store_of_ne {n : ℕ} (hx : 4 ∣ x) (hc : 4 ∣ c) (hne : x ≠ c) :
    link (m.storeLong c n) x = link m x := by
  unfold link nextFree
  rw [Memory.long_storeLong_of_ne hc hx hne]

theorem nextFree_store (h0 : 0 ≤ v) (h : v < 2 ^ 32) : nextFree (m.storeLong p v.toNat) p = v := by
  unfold nextFree
  rw [Memory.long_storeLong]
  omega

section

variable (h : Slots m a ss t)

include h

theorem Slots.free_bounds (hx : x ∈ frees ss) :
    ptrSize ≤ x ∧ 4 ∣ x ∧ x + 2 * ptrSize ≤ nextSlot m x ∧ nextSlot m x ≤ t ∧ x < 2 ^ 32 := by
  obtain ⟨hlow, htop, hs⟩ := h.laid.within (mem_frees.mp hx)
  have hroom := hs.room
  have habove := h.above
  have hlimit := h.limit
  simp only [Slot.need, ptrSize, addressLimit] at *
  exact ⟨by omega, hs.aligned, by omega, htop, by omega⟩

theorem Slots.free_ne_zero (hx : x ∈ frees ss) : x ≠ 0 := by
  have hlow := (h.free_bounds hx).1
  unfold ptrSize at hlow
  omega

/-- No link is where the pointer to the next slot is. -/
theorem Slots.free_ne_header (hx : x ∈ frees ss) (hs : s ∈ ss) : x ≠ s.start - ptrSize := by
  intro heq
  have hroom := (h.free_bounds hx).2.2.1
  have hnext := h.laid.apart (mem_frees.mp hx) hs (by dsimp only; unfold ptrSize at heq; omega)
  simp only [ptrSize] at *
  omega

theorem Slots.free_ne_last (hx : x ∈ frees ss) : x ≠ t - ptrSize := by
  intro heq
  obtain ⟨-, -, hroom, htop, -⟩ := h.free_bounds hx
  simp only [ptrSize] at *
  omega

end

section

variable (h : Slots m a (l ++ s :: r) t)

include h

theorem Slots.lt_of_mem_left (hx : x ∈ frees l) : x + ptrSize ≤ s.start := by
  obtain ⟨-, htop, hs⟩ := h.laid.parts.1.within (mem_frees.mp hx)
  have hlt := hs.lt
  simp only [ptrSize] at *
  omega

theorem Slots.le_of_mem_right (hx : x ∈ frees r) : nextSlot m s.start ≤ x :=
  (h.laid.parts.2.2.within (mem_frees.mp hx)).1

/-- The start of what is behind a slot. -/
theorem Slots.nextSlot_eq : nextSlot m s.start = (r.head?.map Slot.start).getD t := by
  obtain ⟨-, -, hr⟩ := h.laid.parts
  cases r with
  | nil => exact hr
  | cons u r => exact hr.1.symm

end

end

end LisaMinix.Libc.Malloc
