import RHKernel.Memory.Heap.Model
import RHKernel.Memory.Pmm.Partition

/-!
# The slab representation invariant

Every slab has a place: none when the CPU owns it, else one of the two lists of its cache. The
invariant `Inv` says that the linked lists hold exactly the slabs whose place they are, that the
slots of a slab are divided between its free list and the pointers handed out, and that slabs and
large blocks are held blocks of the physical allocator, so that none of their pages is free.

Almost every step changes one slab: its header, perhaps its place. `Inv.updateSlab` is the rule
for all of them.
-/

namespace RHKernel.Heap

open Bits DList Function List Step
open Pmm (pageSize blockSize sizeToOrder Block)

variable {slab p i g slotSize phys : ℕ} {h : SlabHeader} {live' live : List ℕ} {s s' : State}
  {mem mem' : ℕ × SlabList → List ℕ} {fresh r : Option ℕ}

/-- The pointers into the slots of a slab. -/
def slotPtrs (live : List ℕ) (slab : ℕ) : List ℕ :=
  live.filter fun p => p % pageSize ≠ 0 ∧ alignDown p pageSize = slab

/-- The pointers to large allocations. -/
def largePtrs (live : List ℕ) : List ℕ := live.filter fun p => p % pageSize = 0

/-- The physical block behind a large allocation. -/
def largeBlock (large : ℕ → LargeAllocHeader) (ptr : ℕ) : Block :=
  ⟨ptr - pageSize, sizeToOrder (large (ptr - pageSize)).totalSize⟩

/-- A slot lies inside its page, behind the header. -/
theorem mem_slotsOf (ha : pageSize ∣ slab)
    (hp : p ∈ slotsOf slab slotSize ((pageSize - headerSize) / slotSize)) :
    p % pageSize ≠ 0 ∧ alignDown p pageSize = slab := by
  obtain ⟨i, hi, rfl⟩ := mem_map.mp hp
  obtain ⟨x, rfl⟩ := ha
  have hle : (i + 1) * slotSize ≤ pageSize - headerSize :=
    (Nat.mul_le_mul_right _ (List.mem_range.mp hi)).trans (Nat.div_mul_le_self _ _)
  have hpos : 0 < slotSize := by
    by_contra h0
    obtain rfl : slotSize = 0 := by omega
    simp at hi
  rw [add_mul, one_mul] at hle
  have hoff : headerSize + i * slotSize < pageSize := by
    omega
  have hhead : 0 < headerSize := by decide
  rw [add_assoc, alignDown, Nat.mul_add_mod, Nat.mod_eq_of_lt hoff, Nat.mul_add_div (by decide),
    Nat.div_eq_of_lt hoff, add_zero]
  exact ⟨by omega, mul_comm _ _⟩

theorem slotPtrs_cons_self (h1 : p % pageSize ≠ 0) (h2 : alignDown p pageSize = slab) :
    slotPtrs (p :: live) slab = p :: slotPtrs live slab :=
  filter_cons_of_pos (by simpa using ⟨h1, h2⟩)

theorem slotPtrs_cons_of_ne (h : alignDown p pageSize ≠ slab) :
    slotPtrs (p :: live) slab = slotPtrs live slab :=
  filter_cons_of_neg (by simpa using fun _ => h)

theorem slotPtrs_cons_of_large (h : p % pageSize = 0) (slab : ℕ) :
    slotPtrs (p :: live) slab = slotPtrs live slab :=
  filter_cons_of_neg (by simp [h])

theorem largePtrs_cons_of_slot (h : p % pageSize ≠ 0) : largePtrs (p :: live) = largePtrs live :=
  filter_cons_of_neg (by simpa using h)

theorem largePtrs_cons_of_large (h : p % pageSize = 0) :
    largePtrs (p :: live) = p :: largePtrs live :=
  filter_cons_of_pos (by simpa using h)

/-! ### The invariant -/

/-- Where a slab belongs. -/
def place (h : SlabHeader) : Option (ℕ × SlabList) :=
  if h.owner then none
  else some (h.cacheIndex, if h.usedSlots = h.totalSlots then .fullSlabs else .partialSlabs)

/-- The header of a slab: its class, and its slots divided between the free list and the
pointers handed out. -/
structure SlabOk (h : SlabHeader) (live : List ℕ) (slab : ℕ) : Prop where
  magic : h.magic = slabMagic
  cacheIndex_lt : h.cacheIndex < cacheCount
  slotSize_eq : h.slotSize = slotSizes.getD h.cacheIndex 0
  totalSlots_eq : h.totalSlots = (pageSize - headerSize) / h.slotSize
  slots : (h.freeList ++ slotPtrs live slab).Perm (slotsOf slab h.slotSize h.totalSlots)
  used : h.usedSlots = (slotPtrs live slab).length

theorem SlabOk.used_add_free (hok : SlabOk h live slab) :
    h.usedSlots + h.freeList.length = h.totalSlots := by
  have hlen := hok.slots.length_eq
  rw [length_append, slotsOf, length_map, length_range] at hlen
  rw [hok.used]
  omega

/-- Only the pointers into the slab count. -/
theorem SlabOk.congr (hok : SlabOk h live slab)
    (hp : (slotPtrs live' slab).Perm (slotPtrs live slab)) : SlabOk h live' slab :=
  { hok with slots := (hp.append_left _).trans hok.slots, used := hok.used.trans hp.length_eq.symm }

/-- The blocks of the physical allocator that the heap holds. -/
def held (s : State) (live : List ℕ) : List Block :=
  s.slabs.map (⟨·, 0⟩) ++ (largePtrs live).map (largeBlock s.large)

/-- The representation invariant; `mem` lists the slabs of each list, and `fresh` is a slab that
has just been made and may still be empty. -/
structure Inv (s : State) (live : List ℕ) (mem : ℕ × SlabList → List ℕ) (fresh : Option ℕ) :
    Prop where
  slab : ∀ {g}, g ∈ s.slabs → SlabOk (s.hdr g) live g
  lists : Lists s.links s.heads mem
  mem_iff : ∀ {w g}, g ∈ mem w ↔ g ∈ s.slabs ∧ place (s.hdr g) = some w
  used_pos : ∀ {g}, g ∈ s.slabs → (s.hdr g).owner = false → 0 < (s.hdr g).usedSlots ∨ fresh = some g
  owned_lt : ∀ {g}, g ∈ s.slabs → (s.hdr g).owner = true →
    (s.hdr g).usedSlots < (s.hdr g).totalSlots
  owned_iff : ∀ {i g}, s.heapCache i = some g ↔
    g ∈ s.slabs ∧ (s.hdr g).owner = true ∧ (s.hdr g).cacheIndex = i
  live_slot : ∀ {p}, p ∈ live → p % pageSize ≠ 0 → alignDown p pageSize ∈ s.slabs
  live_large : ∀ {p}, p ∈ live → p % pageSize = 0 →
    (s.large (p - pageSize)).magic = largeMagic ∧ (s.large (p - pageSize)).totalSize ≠ 0
  pmm : ∃ managed others, Pmm.RunInv managed (s.pmm, held s live ++ others)

/-! ### The list operations -/

/-- What a conditional pointer write leaves alone, and what it writes. -/
theorem setNextIf_eq (s : State) (p v : Option ℕ) :
    s.setNextIf p v = { s with links :=
      { s.links with next := fun x => if p = some x then v else s.links.next x } } := by
  cases p with
  | none => rfl
  | some p =>
    refine State.ext rfl rfl ?_ rfl rfl rfl rfl rfl rfl rfl
    exact congrArg (Links.mk · _) (funext fun x => by simp [update_apply, eq_comm])

theorem setPrevIf_eq (s : State) (p v : Option ℕ) :
    s.setPrevIf p v = { s with links :=
      { s.links with prev := fun x => if p = some x then v else s.links.prev x } } := by
  cases p with
  | none => rfl
  | some p =>
    refine State.ext rfl rfl ?_ rfl rfl rfl rfl rfl rfl rfl
    exact congrArg (Links.mk _ ·) (funext fun x => by simp [update_apply, eq_comm])

/-- `list_remove` unlinks the slab; the head it is given is repaired if it points at the slab. -/
theorem listRemove_eq (s : State) (w : ℕ × SlabList) (g : ℕ) :
    listRemove s w g = { s with
      links := s.links.remove g
      heads := update s.heads w
        (if s.heads w = some g then s.links.next g else s.heads w) } := by
  have hlinks : ∀ L : Links ℕ, L.remove g =
      ⟨update (fun x => if L.prev g = some x then L.next g else L.next x) g none,
        update (fun x => if L.next g = some x then L.prev g else L.prev x) g none⟩ :=
    fun L => congrArg₂ Links.mk (funext fun x => by rw [update_apply])
      (funext fun x => by rw [update_apply])
  unfold listRemove
  simp only [setNextIf_eq, setPrevIf_eq, State.setNext, State.setPrev, ite_self, hlinks]
  split
  case isTrue => rfl
  case isFalse => rw [update_eq_self]

/-- `list_push` puts the slab in front of its list. -/
theorem listPush_eq (s : State) (w : ℕ × SlabList) (g : ℕ) :
    listPush s w g = { s with
      links := s.links.push (s.heads w) g
      heads := update s.heads w (some g) } := by
  have hlinks : ∀ (L : Links ℕ) (h : Option ℕ), L.push h g =
      ⟨update L.next g h,
        update (fun x => if h = some x then some g else L.prev x) g none⟩ :=
    fun L h => congrArg₂ Links.mk (funext fun x => by rw [update_apply])
      (funext fun x => by rw [update_apply])
  unfold listPush
  simp only [setPrevIf_eq, State.setNext, State.setPrev, hlinks]

/-! ### One slab changes -/

/-- **Update rule.** One slab gets a new header, and is listed where the header says; the
pointers into other slabs and the large allocations stay. -/
theorem Inv.updateSlab {L : Links ℕ}
    {heads : ℕ × SlabList → Option ℕ} {cache : ℕ → Option ℕ} (hi : Inv s live mem fresh)
    (hfresh : fresh = none ∨ fresh = some g) (hg : g ∈ s.slabs) (hok : SlabOk h live' g)
    (hslots : ∀ x, x ≠ g → (slotPtrs live' x).Perm (slotPtrs live x))
    (hlarge : (largePtrs live').Perm (largePtrs live))
    (hpage : ∀ p ∈ live', p ∈ live ∨ p % pageSize ≠ 0 ∧ alignDown p pageSize = g)
    (hlists : Lists L heads mem') (hother : ∀ w x, x ≠ g → (x ∈ mem' w ↔ x ∈ mem w))
    (hmem : ∀ w, g ∈ mem' w ↔ place h = some w) (hpos : h.owner = false → 0 < h.usedSlots)
    (hlt : h.owner = true → h.usedSlots < h.totalSlots)
    (hcache : ∀ i x, x ≠ g → (cache i = some x ↔ s.heapCache i = some x))
    (hcacheg : ∀ i, cache i = some g ↔ h.owner = true ∧ h.cacheIndex = i) :
    Inv { s with hdr := update s.hdr g h, links := L, heads := heads, heapCache := cache }
      live' mem' none where
  slab {x} := by
    dsimp only
    exact update_elim (fun _ => hok) (fun x hx h => (hi.slab h).congr (hslots x hx)) x
  lists := hlists
  mem_iff {w x} := by
    dsimp only
    refine update_elim ?_ (fun x hx => (hother w x hx).trans hi.mem_iff) x
    exact (hmem w).trans (and_iff_right hg).symm
  used_pos {x} hx ho := by
    by_cases hxg : x = g
    · subst hxg
      simp only [update_self] at ho ⊢
      exact .inl (hpos ho)
    simp only [update_of_ne hxg] at ho ⊢
    refine .inl ((hi.used_pos hx ho).resolve_right fun he => ?_)
    rcases hfresh with hf | hf
    · rw [hf] at he
      cases he
    · exact hxg (Option.some.inj (he.symm.trans hf))
  owned_lt {x} := by
    dsimp only
    exact update_elim (fun _ => hlt) (fun x _ => hi.owned_lt) x
  owned_iff {i x} := by
    dsimp only
    refine update_elim ?_ (fun x hx => (hcache i x hx).trans hi.owned_iff) x
    exact (hcacheg i).trans (and_iff_right hg).symm
  live_slot {p} hp hne := by
    rcases hpage p hp with hold | ⟨-, hpg⟩
    · exact hi.live_slot hold hne
    · rwa [hpg]
  live_large {p} hp hz := by
    rcases hpage p hp with hold | ⟨hne, -⟩
    · exact hi.live_large hold hz
    · exact absurd hz hne
  pmm := by
    obtain ⟨managed, others, hr⟩ := hi.pmm
    exact ⟨managed, others, hr.perm (((hlarge.symm.map _).append_left _).append_right _)⟩

section Reading

variable {s : State} {live : List ℕ} {mem : ℕ × SlabList → List ℕ} {fresh : Option ℕ} {g i : ℕ}
  {h : SlabHeader}

variable (hi : Inv s live mem fresh)

include hi

theorem Inv.slab_page (hg : g ∈ s.slabs) : pageSize ∣ g ∧ g ≠ 0 := by
  obtain ⟨managed, others, hr⟩ := hi.pmm
  have hb : (⟨g, 0⟩ : Block) ∈ held s live ++ others :=
    mem_append_left _ (mem_append_left _ (mem_map.mpr ⟨g, hg, rfl⟩))
  have ha := hr.aligned hb
  rw [Pmm.blockSize_zero] at ha
  exact ⟨ha, hr.addr_ne hb⟩

theorem Inv.slabs_nodup : s.slabs.Nodup := by
  obtain ⟨managed, others, hr⟩ := hi.pmm
  have hnd := hr.addr_nodup
  simp only [held, map_append, map_map, append_assoc] at hnd
  exact Nodup.of_map _ (nodup_append.mp hnd).1

theorem Inv.used_le (hg : g ∈ s.slabs) :
    (s.hdr g).usedSlots ≤ (s.hdr g).totalSlots := by
  have := (hi.slab hg).used_add_free
  omega

theorem Inv.mem_of_place (hg : g ∈ s.slabs) {w : ℕ × SlabList}
    (hp : place (s.hdr g) = some w) : g ∈ mem w := hi.mem_iff.mpr ⟨hg, hp⟩

theorem Inv.not_mem_of_owner (ho : (s.hdr g).owner = true)
    (w : ℕ × SlabList) : g ∉ mem w := by
  intro hmem
  have hp := (hi.mem_iff.mp hmem).2
  rw [place, if_pos ho] at hp
  cases hp

omit hi

theorem place_full (ho : h.owner = false) (hidx : h.cacheIndex = i)
    (hfull : h.usedSlots = h.totalSlots) : place h = some (i, .fullSlabs) := by
  rw [place, ho, if_pos hfull, hidx]
  rfl

theorem place_of_ne (ho : h.owner = false) (hidx : h.cacheIndex = i)
    (hne : h.usedSlots ≠ h.totalSlots) : place h = some (i, .partialSlabs) := by
  rw [place, ho, if_neg hne, hidx]
  rfl

theorem partial_of_place (hp : place h = some (i, .partialSlabs)) :
    h.owner = false ∧ h.cacheIndex = i ∧ h.usedSlots ≠ h.totalSlots := by
  unfold place at hp
  split at hp
  · cases hp
  rename_i ho
  split_ifs at hp with hne
  · cases hp
  · cases hp
    exact ⟨by simpa using ho, rfl, hne⟩

theorem Inv.partial_head (hi : Inv s live mem fresh) (hh : s.heads (i, .partialSlabs) = some g) :
    g ∈ s.slabs ∧ g ∈ mem (i, .partialSlabs) ∧ (s.hdr g).owner = false ∧
      (s.hdr g).cacheIndex = i ∧ (s.hdr g).usedSlots < (s.hdr g).totalSlots := by
  have hmem := hi.lists.head_mem hh
  obtain ⟨hg, hp⟩ := hi.mem_iff.mp hmem
  obtain ⟨ho, hidx, hne⟩ := partial_of_place hp
  exact ⟨hg, hmem, ho, hidx, lt_of_le_of_ne (hi.used_le hg) hne⟩

end Reading

/-! ### Allocation -/

/-- The header after a slot has been handed out. -/
def SlabHeader.take (h : SlabHeader) (rest : List ℕ) : SlabHeader :=
  { h with freeList := rest, usedSlots := h.usedSlots + 1 }

theorem Inv.allocFromSlab (hi : Inv s live mem fresh) (hg : g ∈ s.slabs)
    (hlt : (s.hdr g).usedSlots < (s.hdr g).totalSlots) :
    ∃ ptr rest, allocFromSlab s g =
        (some ptr, { s with hdr := update s.hdr g ((s.hdr g).take rest) }) ∧
      SlabOk ((s.hdr g).take rest) (ptr :: live) g ∧ ptr % pageSize ≠ 0 ∧
      alignDown ptr pageSize = g := by
  have hok := hi.slab hg
  have hsum := hok.used_add_free
  unfold Heap.allocFromSlab
  rw [if_neg (not_not.mpr hok.magic)]
  cases hfree : (s.hdr g).freeList with
  | nil =>
    rw [hfree, length_nil] at hsum
    omega
  | cons ptr rest =>
    have hslots := hok.slots
    rw [hfree] at hslots
    have hmem : ptr ∈ slotsOf g (s.hdr g).slotSize (s.hdr g).totalSlots :=
      hslots.mem_iff.mp mem_cons_self
    rw [hok.totalSlots_eq] at hmem
    obtain ⟨hne, hpage⟩ := mem_slotsOf (hi.slab_page hg).1 hmem
    refine ⟨ptr, rest, rfl, { hok with slots := ?_, used := ?_ }, hne, hpage⟩
    · rw [slotPtrs_cons_self hne hpage]
      exact perm_middle.trans hslots
    · rw [slotPtrs_cons_self hne hpage, length_cons, ← hok.used]
      rfl

section Pointer

variable {live : List ℕ} {ptr g : ℕ}

/-- What a new pointer into slab `g` does not change. -/
theorem slotPtrs_new (hpage : alignDown ptr pageSize = g) (x : ℕ) (hx : x ≠ g) :
    (slotPtrs (ptr :: live) x).Perm (slotPtrs live x) := by
  rw [slotPtrs_cons_of_ne fun he => hx (he.symm.trans hpage)]

theorem largePtrs_new (hne : ptr % pageSize ≠ 0) :
    (largePtrs (ptr :: live)).Perm (largePtrs live) := by
  rw [largePtrs_cons_of_slot hne]

theorem page_new (hne : ptr % pageSize ≠ 0) (hpage : alignDown ptr pageSize = g) :
    ∀ p ∈ ptr :: live, p ∈ live ∨ p % pageSize ≠ 0 ∧ alignDown p pageSize = g := by
  intro p hp
  rcases mem_cons.mp hp with rfl | hp
  · exact .inr ⟨hne, hpage⟩
  · exact .inl hp

end Pointer

theorem Inv.allocLocal (hi : Inv s live mem none) (hc : s.heapCache i = some g) :
    ∃ ptr s' mem', allocLocal s g i = (some ptr, s') ∧ Inv s' (ptr :: live) mem' none := by
  obtain ⟨hg, ho, hidx⟩ := hi.owned_iff.mp hc
  obtain ⟨ptr, rest, heq, hok, hne, hpage⟩ := hi.allocFromSlab hg (hi.owned_lt hg ho)
  have hnot := hi.not_mem_of_owner ho
  unfold Heap.allocLocal retireFullLocalSlab
  rw [heq]
  simp only [update_self]
  by_cases hfull : ((s.hdr g).take rest).usedSlots = ((s.hdr g).take rest).totalSlots
  · -- the slab is full: it leaves the CPU for the full list
    rw [if_neg (not_not.mpr hfull), listPush_eq]
    simp only [State.setOwner, update_self, update_idem]
    refine ⟨ptr, _, _, rfl, hi.updateSlab (.inl rfl) hg ?_ (slotPtrs_new hpage)
      (largePtrs_new hne) (page_new hne hpage) (hi.lists.push (i, .fullSlabs) hnot) ?_ ?_ ?_ ?_
      ?_ ?_⟩
    · exact { hok with }
    · intro w x hx
      rw [Lists.mem_push_iff]
      exact or_iff_right fun he => hx he.1
    · intro w
      have hplace : place { (s.hdr g).take rest with owner := false } = some (i, .fullSlabs) :=
        place_full rfl hidx hfull
      rw [Lists.mem_push_iff, hplace, Option.some.injEq]
      exact ⟨fun h => (h.resolve_right (hnot w)).2.symm, fun h => .inl ⟨rfl, h.symm⟩⟩
    · intro _
      exact Nat.succ_pos _
    · intro h
      cases h
    · intro j x hx
      refine update_elim ?_ (fun _ _ => Iff.rfl) j
      rw [hc]
      exact ⟨nofun, fun h => absurd (Option.some.inj h).symm hx⟩
    · intro j
      refine update_elim ⟨nofun, fun h => nomatch h.1⟩
        (fun j hj => ⟨fun h => ?_, fun h => nomatch h.1⟩) j
      exact absurd ((hi.owned_iff.mp h).2.2.symm.trans hidx) hj
  · rw [if_pos hfull]
    refine ⟨ptr, _, _, rfl, hi.updateSlab (.inl rfl) hg hok (slotPtrs_new hpage)
      (largePtrs_new hne) (page_new hne hpage) hi.lists (fun _ _ _ => Iff.rfl) ?_ ?_ ?_
      (fun _ _ _ => Iff.rfl) ?_⟩
    · intro w
      refine ⟨fun h => absurd h (hnot w), fun h => ?_⟩
      rw [place, if_pos (by exact ho)] at h
      cases h
    · intro _
      exact Nat.succ_pos _
    · intro _
      have := hi.owned_lt hg ho
      simp only [SlabHeader.take] at hfull ⊢
      omega
    · intro j
      refine ⟨fun h => (hi.owned_iff.mp h).2, fun h => hi.owned_iff.mpr ⟨hg, h⟩⟩

variable (hi : Inv s live mem fresh)

include hi

variable (hfresh : fresh = none ∨ fresh = some g)

include hfresh

theorem Inv.own (hh : s.heads (i, .partialSlabs) = some g) (hc : s.heapCache i = none) :
    ∃ mem', Inv { (listRemove s (i, .partialSlabs) g).setOwner g true with
      heapCache := update ((listRemove s (i, .partialSlabs) g).setOwner g true).heapCache i
        (some g) } live mem' none := by
  obtain ⟨hg, hmem, ho, hidx, hlt⟩ := hi.partial_head hh
  have hok := hi.slab hg
  rw [listRemove_eq]
  simp only [State.setOwner]
  refine ⟨_, hi.updateSlab hfresh hg ?_ (fun _ _ => .refl _) (.refl _) (fun _ hp => .inl hp)
    (hi.lists.remove hmem) ?_ ?_ ?_ ?_ ?_ ?_⟩
  · exact { hok with }
  · intro w x hx
    rw [hi.lists.mem_remove_iff hmem]
    exact and_iff_right hx
  · intro w
    rw [hi.lists.mem_remove_iff hmem]
    exact ⟨fun h => absurd rfl h.1, nofun⟩
  · nofun
  · intro _
    exact hlt
  · intro j x hx
    refine update_elim ?_ (fun _ _ => Iff.rfl) j
    rw [hc]
    exact ⟨fun h => absurd (Option.some.inj h).symm hx, nofun⟩
  · intro j
    refine update_elim ⟨fun _ => ⟨rfl, hidx⟩, fun _ => rfl⟩ (fun j hj => ⟨fun h => ?_, fun h =>
      absurd (h.2.symm.trans hidx) hj⟩) j
    exact absurd (hi.owned_iff.mp h).2.1 (by rw [ho]; nofun)

theorem Inv.allocOwned (hh : s.heads (i, .partialSlabs) = some g) (hc : s.heapCache i = none) :
    ∃ ptr s' mem', allocPartial s g i true = (some ptr, s') ∧ Inv s' (ptr :: live) mem' none := by
  obtain ⟨mem', hi'⟩ := hi.own hfresh hh hc
  exact hi'.allocLocal (update_self _ _ _)

/-- **Move rule.** A slab gets a new header and moves from one list to another. -/
theorem Inv.moveSlab {w w' : ℕ × SlabList}
    (hmem : g ∈ mem w) (hok : SlabOk h live' g)
    (hslots : ∀ x, x ≠ g → (slotPtrs live' x).Perm (slotPtrs live x))
    (hlarge : (largePtrs live').Perm (largePtrs live))
    (hpage : ∀ p ∈ live', p ∈ live ∨ p % pageSize ≠ 0 ∧ alignDown p pageSize = g)
    (ho : h.owner = false) (hplace : place h = some w') (hpos : 0 < h.usedSlots) :
    ∃ mem', Inv (listPush (listRemove { s with hdr := update s.hdr g h } w g) w' g)
      live' mem' none := by
  have hnot : ∀ j, g ∉ update mem w ((mem w).erase g) j := fun j hj =>
    ((hi.lists.mem_remove_iff hmem).mp hj).1 rfl
  rw [listPush_eq, listRemove_eq]
  refine ⟨_, hi.updateSlab hfresh (hi.mem_iff.mp hmem).1 hok hslots hlarge hpage
    ((hi.lists.remove hmem).push w' hnot) ?_ ?_ (fun _ => hpos) ?_ (fun _ _ _ => Iff.rfl) ?_⟩
  · intro j x hx
    rw [Lists.mem_push_iff, hi.lists.mem_remove_iff hmem]
    exact (or_iff_right fun he => hx he.1).trans (and_iff_right hx)
  · intro j
    rw [Lists.mem_push_iff, hplace, Option.some.injEq]
    exact ⟨fun hj => (hj.resolve_right (hnot j)).2.symm, fun hj => .inl ⟨rfl, hj.symm⟩⟩
  · rw [ho]
    nofun
  · intro j
    rw [ho, hi.owned_iff]
    exact ⟨fun hj => absurd hmem (hi.not_mem_of_owner hj.2.1 w), fun hj => nomatch hj.1⟩

theorem Inv.allocShared (hh : s.heads (i, .partialSlabs) = some g) :
    ∃ ptr s' mem', allocPartial s g i false = (some ptr, s') ∧ Inv s' (ptr :: live) mem' none := by
  obtain ⟨hg, hmem, ho, hidx, hlt⟩ := hi.partial_head hh
  obtain ⟨ptr, rest, heq, hok, hne, hpage⟩ := hi.allocFromSlab hg hlt
  unfold allocPartial
  rw [heq]
  simp only [Bool.false_eq_true, if_false, update_self]
  by_cases hfull : ((s.hdr g).take rest).usedSlots = ((s.hdr g).take rest).totalSlots
  · -- the slab is full: it moves from the partial to the full list
    rw [if_pos hfull]
    obtain ⟨mem', hi'⟩ := hi.moveSlab hfresh hmem hok (slotPtrs_new hpage) (largePtrs_new hne)
      (page_new hne hpage) ho (place_full ho hidx hfull) (Nat.succ_pos _)
    exact ⟨ptr, _, mem', rfl, hi'⟩
  rw [if_neg hfull]
  refine ⟨ptr, _, _, rfl, hi.updateSlab hfresh hg hok (slotPtrs_new hpage)
    (largePtrs_new hne) (page_new hne hpage) hi.lists (fun _ _ _ => Iff.rfl) ?_
    (fun _ => Nat.succ_pos _) ?_ (fun _ _ _ => Iff.rfl) ?_⟩
  · intro w
    have hplace : place ((s.hdr g).take rest) = some (i, .partialSlabs) :=
      place_of_ne ho hidx hfull
    rw [hplace, Option.some.injEq]
    exact ⟨fun h => hi.lists.disjoint hmem h, fun h => h ▸ hmem⟩
  · exact fun h => absurd h (by rw [SlabHeader.take, ho]; nofun)
  · intro j
    rw [hi.owned_iff]
    exact and_iff_right hg

omit hfresh

omit hi

/-! ### A new slab -/

/-- What `create_slab` and its caller write into the header of a new slab. -/
def newHeader (phys cacheIdx : ℕ) : SlabHeader where
  magic := slabMagic
  slotSize := slotSizes.getD cacheIdx 0
  cacheIndex := cacheIdx
  usedSlots := 0
  totalSlots := (pageSize - headerSize) / slotSizes.getD cacheIdx 0
  freeList := slotsOf phys (slotSizes.getD cacheIdx 0)
    ((pageSize - headerSize) / slotSizes.getD cacheIdx 0)
  owner := false

theorem totalSlots_pos : ∀ i < cacheCount, slotSizes.getD i 0 ≠ 0 ∧
    (pageSize - headerSize) / slotSizes.getD i 0 ≠ 0 := by decide

/-- The invariant depends on the physical allocator through the blocks held only. -/
theorem Inv.withPmm {pmm : Pmm.State} (hi : Inv s live mem fresh)
    (hp : ∃ managed others, Pmm.RunInv managed (pmm, held s live ++ others)) :
    Inv { s with pmm := pmm } live mem fresh :=
  { hi with pmm := hp }

/-- A page that the heap does not hold yet becomes an empty slab, first in its partial list. -/
theorem Inv.addSlab {managed : ℕ → ℕ} {others : List Block} {pmm : Pmm.State}
    (hi : Inv s live mem none) (bytes : ℕ) (hidx : i < cacheCount)
    (hr : Pmm.RunInv managed (pmm, ⟨phys, 0⟩ :: (held s live ++ others))) :
    ∃ mem', Inv { s with
      pmm := pmm
      links := s.links.push (s.heads (i, .partialSlabs)) phys
      heads := update s.heads (i, .partialSlabs) (some phys)
      hdr := update s.hdr phys (newHeader phys i)
      slabPageBytes := bytes
      slabs := phys :: s.slabs } live mem' (some phys) := by
  have hnew : phys ∉ s.slabs := by
    intro hmem
    have hnd := hr.addr_nodup
    refine (nodup_cons.mp hnd).1 (mem_map.mpr ⟨⟨phys, 0⟩, ?_, rfl⟩)
    exact mem_append_left _ (mem_append_left _ (mem_map.mpr ⟨phys, hmem, rfl⟩))
  have hne : ∀ {x}, x ∈ s.slabs → x ≠ phys := fun hx he => hnew (he ▸ hx)
  have hptrs : slotPtrs live phys = [] := by
    refine filter_eq_nil_iff.mpr fun p hp hpage => ?_
    obtain ⟨h1, h2⟩ : p % pageSize ≠ 0 ∧ alignDown p pageSize = phys := by simpa using hpage
    exact hnew (h2 ▸ hi.live_slot hp h1)
  have hnot : ∀ w, phys ∉ mem w := fun w h => hnew (hi.mem_iff.mp h).1
  have hplace : place (newHeader phys i) = some (i, .partialSlabs) :=
    place_of_ne rfl rfl (totalSlots_pos i hidx).2.symm
  refine ⟨_, ?_, hi.lists.push (i, .partialSlabs) hnot, ?_, ?_, ?_, ?_, ?_, hi.live_large, ?_⟩
  · intro x hx
    rcases mem_cons.mp hx with rfl | hx
    · simp only [update_self]
      refine ⟨rfl, hidx, rfl, rfl, ?_, ?_⟩
      · rw [hptrs, append_nil]
        exact .refl _
      · rw [hptrs]
        rfl
    · simp only [update_of_ne (hne hx)]
      exact hi.slab hx
  · intro w x
    rw [Lists.mem_push_iff, hi.mem_iff]
    by_cases hx : x = phys
    · subst hx
      simp only [update_self, hplace, mem_cons, true_or, true_and,
        Option.some.injEq]
      exact ⟨fun h => (h.resolve_right fun h => hnew h.1).symm, fun h => .inl h.symm⟩
    · simp only [update_of_ne hx, mem_cons, hx, false_or, false_and]
  · intro x hx ho
    by_cases hxp : x = phys
    · exact .inr (hxp ▸ rfl)
    · simp only [update_of_ne hxp] at ho ⊢
      have hpos := hi.used_pos ((mem_cons.mp hx).resolve_left hxp) ho
      exact .inl (hpos.resolve_right nofun)
  · intro x
    dsimp only
    exact update_elim (fun _ => nofun)
      (fun x hx h => hi.owned_lt ((mem_cons.mp h).resolve_left hx)) x
  · intro j x
    dsimp only
    refine update_elim ⟨fun h => absurd (hi.owned_iff.mp h).1 hnew, fun h => nomatch h.2.1⟩
      (fun x hx => ?_) x
    rw [mem_cons, or_iff_right hx]
    exact hi.owned_iff
  · intro p hp h
    exact mem_cons_of_mem _ (hi.live_slot hp h)
  · exact ⟨managed, others, hr⟩

/-- Clearing the links of a slab before it is pushed changes nothing. -/
theorem push_clear (L : Links ℕ) (h : Option ℕ) (g : ℕ) :
    Links.push ⟨update L.next g none, update L.prev g none⟩ h g =
      L.push h g := by
  refine congrArg₂ Links.mk (funext fun x => ?_) (funext fun x => ?_)
  · by_cases hx : x = g
    · rw [if_pos hx, if_pos hx]
    · simp only [if_neg hx, update_of_ne hx]
  · by_cases hx : x = g
    · rw [if_pos hx, if_pos hx]
    · simp only [if_neg hx, update_of_ne hx]

theorem createSlab_cases (hsize : slotSize ≠ 0)
    (hpos : (pageSize - headerSize) / slotSize ≠ 0) (h : createSlab s slotSize = .ok (r, s')) :
    ∃ phys pmm, Pmm.alloc s.pmm pageSize = .ok (phys, pmm) ∧
      ((phys = 0 ∧ r = none ∧ s' = { s with pmm := pmm }) ∨
        (phys ≠ 0 ∧ r = some phys ∧ s' = { s with
          pmm := pmm
          links := ⟨update s.links.next phys none, update s.links.prev phys none⟩
          hdr := update s.hdr phys {
            magic := slabMagic
            slotSize := slotSize
            cacheIndex := (s.hdr phys).cacheIndex
            usedSlots := 0
            totalSlots := (pageSize - headerSize) / slotSize
            freeList := slotsOf phys slotSize ((pageSize - headerSize) / slotSize)
            owner := false }
          slabPageBytes := s.slabPageBytes + pageSize
          slabs := phys :: s.slabs })) := by
  unfold createSlab at h
  rw [if_neg hsize] at h
  obtain ⟨⟨phys, pmm⟩, halloc, h⟩ := ok_bind h
  refine ⟨phys, pmm, halloc, ?_⟩
  by_cases hp : phys = 0
  · simp only [if_pos hp] at h
    obtain ⟨rfl, rfl⟩ := Prod.mk.inj (Except.ok.inj h)
    exact .inl ⟨hp, rfl, rfl⟩
  · simp only [if_neg hp, if_neg hpos] at h
    obtain ⟨rfl, rfl⟩ := Prod.mk.inj (Except.ok.inj h)
    exact .inr ⟨hp, rfl, rfl⟩

/-- `kmalloc` finds a partial slab or makes one, or there is no memory. -/
theorem Inv.ensurePartial (hi : Inv s live mem none)
    (hidx : i < cacheCount) (h : ensurePartial s i = .ok (r, s')) :
    s'.heapCache = s.heapCache ∧ ∃ mem' fresh, Inv s' live mem' fresh ∧
      ((r = none ∧ fresh = none) ∨ ∃ g, r = some g ∧ s'.heads (i, .partialSlabs) = some g ∧
        (fresh = none ∨ fresh = some g)) := by
  unfold Heap.ensurePartial at h
  cases hhead : s.heads (i, .partialSlabs) with
  | some g =>
    rw [hhead] at h
    obtain ⟨rfl, rfl⟩ := Prod.mk.inj (Except.ok.inj h)
    exact ⟨rfl, mem, none, hi, .inr ⟨g, rfl, hhead, .inl rfl⟩⟩
  | none =>
    rw [hhead] at h
    obtain ⟨⟨new, s1⟩, hnew, h⟩ := ok_bind h
    obtain ⟨hsize, hpos⟩ := totalSlots_pos i hidx
    obtain ⟨managed, others, hr⟩ := hi.pmm
    obtain ⟨phys, pmm, halloc, hcase⟩ := createSlab_cases hsize hpos hnew
    have hr' := (Pmm.OpStep.alloc halloc).runInv hr
    rcases hcase with ⟨hp, rfl, rfl⟩ | ⟨hp, rfl, rfl⟩
    · obtain ⟨rfl, rfl⟩ := Prod.mk.inj (Except.ok.inj h)
      rw [if_pos hp] at hr'
      exact ⟨rfl, mem, none, hi.withPmm ⟨managed, others, hr'⟩, .inl ⟨rfl, rfl⟩⟩
    rw [if_neg hp, Pmm.sizeToOrder_pageSize] at hr'
    obtain ⟨mem', hi'⟩ := hi.addSlab (s.slabPageBytes + pageSize) hidx hr'
    obtain ⟨rfl, rfl⟩ := Prod.mk.inj (Except.ok.inj h)
    simp only [listPush_eq, push_clear, update_self, update_idem]
    exact ⟨trivial, mem', some phys, hi', .inr ⟨phys, rfl, rfl, .inr rfl⟩⟩

end RHKernel.Heap
