import RHKernel.File.Ext2.Dirent
import RHKernel.Lib.Bitmap
import RHKernel.Lib.Update

/-!
# Blocks of an ext2 volume

The blocks of a volume are divided into groups. A group has a descriptor, which counts its free
blocks and says where the bitmap of its blocks is; `ext2_alloc_block` looks for a clear bit from the
group it used last, and `ext2_free_block` clears the bit again.

Every access to the device and every `kmalloc` may fail. Which of them do during a call is given by
an environment, `AllocEnv` or `FreeEnv`, with one flag for each place where the call can fail; a
flag is `true` where the access succeeds. The superblock and the descriptor table are kept apart
from the numbered blocks, which hold the bitmaps, the pointer blocks and the data.
-/

namespace RHKernel.Ext2

open Function Bitmap

/-- The numbers of a mounted volume, with what `ext2_mount` checks about them. -/
structure Layout extends Geometry where
  blocksCount : ℕ
  firstDataBlock : ℕ
  blocksPerGroup : ℕ
  groupsCount : ℕ
  blocksCount_lt : blocksCount < 2 ^ 32
  firstDataBlock_eq : firstDataBlock = if blockSize = 1024 then 1 else 0
  blocksPerGroup_pos : 0 < blocksPerGroup
  groupsCount_eq :
    groupsCount = (blocksCount - firstDataBlock + blocksPerGroup - 1) / blocksPerGroup

namespace Layout

variable (L : Layout)

def groupFirstBlock (g : ℕ) : ℕ := L.firstDataBlock + g * L.blocksPerGroup

def groupBlockCount (g : ℕ) : ℕ :=
  if L.blocksCount ≤ L.groupFirstBlock g then 0
  else if L.blocksCount - L.groupFirstBlock g < L.blocksPerGroup then
    L.blocksCount - L.groupFirstBlock g
  else L.blocksPerGroup

def BlockValid (n : ℕ) : Prop := L.firstDataBlock ≤ n ∧ n < L.blocksCount

instance (n : ℕ) : Decidable (L.BlockValid n) := inferInstanceAs (Decidable (_ ∧ _))

/-- The group of a block, as `ext2_free_block` computes it. -/
def groupOf (n : ℕ) : ℕ := (n - L.firstDataBlock) / L.blocksPerGroup

/-- The bit of a block in the bitmap of its group. -/
def bitOf (n : ℕ) : ℕ := (n - L.firstDataBlock) % L.blocksPerGroup

end Layout

/-- What is used here of a group descriptor. -/
structure Bgd where
  blockBitmap : ℕ
  freeBlocks : ℕ

/-- An entry of the pointer-block cache. No other task reads pointer blocks meanwhile, so that no
entry is `loading`. -/
structure PtrEntry where
  block : ℕ
  lastUsed : ℕ
  valid : Bool
  data : Block

/-- A mounted volume: what its blocks, its group descriptors and its superblock hold, and the fields
of `ext2_fs` that change. -/
structure Fs where
  block : ℕ → Block
  bgd : ℕ → Bgd
  superFree : ℕ
  freeBlocksCount : ℕ
  nextBlockAllocGroup : ℕ
  ptrCache : List PtrEntry
  ptrCacheClock : ℕ

/-- `ext2_read_block`, on a device that answers. -/
def readBlock (L : Layout) (s : Fs) (n : ℕ) : Option Block :=
  if n = 0 then some fun _ => 0 else if L.blocksCount ≤ n then none else some (s.block n)

/-- What `ext2_alloc_block` meets: its two buffers, the descriptor and the bitmap of each group, and
the superblock. -/
structure AllocEnv where
  buffers : Bool
  readBgd : ℕ → Bool
  readBitmap : ℕ → Bool
  writeBitmap : ℕ → Bool
  writeBgd : ℕ → Bool
  super : Bool

/-- The first clear bit of a group. -/
def freeBit (L : Layout) (bm : Block) (g : ℕ) : Option ℕ :=
  (List.range (L.groupBlockCount g)).find? fun bit =>
    !test bm bit && decide (L.BlockValid (L.groupFirstBlock g + bit))

/-- The volume after the block `n` was taken in the group `g`, with `bm` as the new bitmap; `zeroed`
tells whether the block could be cleared, which `ext2_alloc_block` does not ask. -/
def takeBlock (e : AllocEnv) (zeroed : Bool) (s : Fs) (g : ℕ) (bm : Block) (n : ℕ) : Fs :=
  { s with
    block :=
      if zeroed then
        update (update s.block (s.bgd g).blockBitmap bm) n fun _ => 0
      else update s.block (s.bgd g).blockBitmap bm
    bgd :=
      if e.writeBgd g then
        update s.bgd g { s.bgd g with freeBlocks := (s.bgd g).freeBlocks - 1 }
      else s.bgd
    superFree := if e.super then s.freeBlocksCount - 1 else s.superFree
    freeBlocksCount := s.freeBlocksCount - 1
    nextBlockAllocGroup := g }

/-- The loop of `ext2_alloc_block` over the groups. -/
def allocScan (L : Layout) (e : AllocEnv) (zeroed : Bool) (s : Fs) : List ℕ → ℕ × Fs
  | [] => (0, s)
  | g :: gs =>
    if e.readBgd g = false ∨ (s.bgd g).freeBlocks = 0 ∨ (s.bgd g).blockBitmap = 0 ∨
        e.readBitmap g = false ∨ L.blocksCount ≤ (s.bgd g).blockBitmap then
      allocScan L e zeroed s gs
    else
      match freeBit L (s.block (s.bgd g).blockBitmap) g with
      | none => allocScan L e zeroed s gs
      | some bit =>
        let n := L.groupFirstBlock g + bit
        if e.writeBitmap g = false then allocScan L e zeroed s gs
        else (n, takeBlock e zeroed s g (set (s.block (s.bgd g).blockBitmap) bit) n)

/-- `ext2_alloc_block`: the block and the volume, or `0` where there is none. -/
def allocBlock (L : Layout) (e : AllocEnv) (zeroed : Bool) (s : Fs) : ℕ × Fs :=
  if e.buffers = false then (0, s)
  else
    allocScan L e zeroed s ((List.range L.groupsCount).map fun scan =>
      (s.nextBlockAllocGroup % L.groupsCount + scan) % L.groupsCount)

/-- What `ext2_free_block` meets. -/
structure FreeEnv where
  buffer : Bool
  readBgd : Bool
  readBitmap : Bool
  writeBitmap : Bool
  writeBgd : Bool
  super : Bool

/-- The volume after the bit of the block `n` was found set in the bitmap `bm`. -/
def giveBlock (L : Layout) (e : FreeEnv) (s : Fs) (bm : Block) (n : ℕ) : Fs :=
  { s with
    block :=
      if e.writeBitmap then
        update s.block (s.bgd (L.groupOf n)).blockBitmap (clear bm (L.bitOf n))
      else s.block
    bgd :=
      if e.writeBgd then
        update s.bgd (L.groupOf n) { s.bgd (L.groupOf n) with
          freeBlocks := ((s.bgd (L.groupOf n)).freeBlocks + 1) % 2 ^ 16 }
      else s.bgd
    superFree := if e.super then (s.freeBlocksCount + 1) % 2 ^ 32 else s.superFree
    freeBlocksCount := (s.freeBlocksCount + 1) % 2 ^ 32 }

/-- `ext2_free_block`; no caller looks at the status. -/
def freeBlock (L : Layout) (e : FreeEnv) (s : Fs) (n : ℕ) : Fs :=
  if n = 0 ∨ ¬L.BlockValid n ∨ e.buffer = false ∨ e.readBgd = false ∨ e.readBitmap = false then s
  else
    match readBlock L s (s.bgd (L.groupOf n)).blockBitmap with
    | none => s
    | some bm => if test bm (L.bitOf n) then giveBlock L e s bm n else s

/-! ### What the bitmaps say -/

/-- The block is marked in the bitmap of its group. -/
def Fs.Used (L : Layout) (s : Fs) (n : ℕ) : Prop :=
  test (s.block (s.bgd (L.groupOf n)).blockBitmap) (L.bitOf n) = true

/-- The block is marked and is not a bitmap itself: it may hold pointers or data. -/
structure Fs.Held (L : Layout) (s : Fs) (n : ℕ) : Prop where
  valid : L.BlockValid n
  used : s.Used L n
  plain : ∀ g < L.groupsCount, n ≠ (s.bgd g).blockBitmap

/-- The bitmaps are where `ext2_validate_bgd` wants them, and they and the boot block are marked. -/
structure Fs.Sane (L : Layout) (s : Fs) : Prop where
  bitmap_ne : ∀ g < L.groupsCount, (s.bgd g).blockBitmap ≠ 0
  bitmap_valid : ∀ g < L.groupsCount, L.BlockValid (s.bgd g).blockBitmap
  bitmap_group : ∀ g < L.groupsCount, L.groupOf (s.bgd g).blockBitmap = g
  bitmap_used : ∀ g < L.groupsCount, s.Used L (s.bgd g).blockBitmap
  boot : L.BlockValid 0 → s.Used L 0

namespace Layout

variable {L : Layout} {n m g bit : ℕ}

theorem eq_of_groupOf_bitOf (hn : L.BlockValid n) (hm : L.BlockValid m)
    (hg : L.groupOf n = L.groupOf m) (hbit : L.bitOf n = L.bitOf m) : n = m := by
  have h : n - L.firstDataBlock = m - L.firstDataBlock := by
    rw [← Nat.div_add_mod (n - L.firstDataBlock) L.blocksPerGroup,
      ← Nat.div_add_mod (m - L.firstDataBlock) L.blocksPerGroup]
    exact congrArg₂ (fun q r => L.blocksPerGroup * q + r) hg hbit
  have h1 := hn.1
  have h2 := hm.1
  omega

theorem groupOf_lt (hn : L.BlockValid n) : L.groupOf n < L.groupsCount := by
  obtain ⟨hfirst, hlast⟩ := hn
  rw [L.groupsCount_eq, groupOf, Nat.lt_iff_add_one_le, Nat.le_div_iff_mul_le L.blocksPerGroup_pos,
    add_mul, one_mul]
  have := Nat.div_mul_le_self (n - L.firstDataBlock) L.blocksPerGroup
  omega

theorem lt_of_lt_groupBlockCount (h : bit < L.groupBlockCount g) : bit < L.blocksPerGroup := by
  unfold groupBlockCount at h
  split_ifs at h <;> omega

theorem groupOf_groupFirstBlock_add (h : bit < L.groupBlockCount g) :
    L.groupOf (L.groupFirstBlock g + bit) = g ∧ L.bitOf (L.groupFirstBlock g + bit) = bit := by
  have hbit := lt_of_lt_groupBlockCount h
  have hsub : L.groupFirstBlock g + bit - L.firstDataBlock = bit + L.blocksPerGroup * g := by
    rw [groupFirstBlock, mul_comm]
    omega
  rw [groupOf, bitOf, hsub, Nat.add_mul_div_left _ _ L.blocksPerGroup_pos, Nat.div_eq_of_lt hbit,
    Nat.add_mul_mod_self_left, Nat.mod_eq_of_lt hbit]
  exact ⟨zero_add g, rfl⟩

end Layout

section Bitmaps

variable {L : Layout} {s s' : Fs} {n m g h bit : ℕ}

theorem Fs.Sane.bitmap_inj (hs : s.Sane L) (hg : g < L.groupsCount)
    (hh : h < L.groupsCount) (heq : (s.bgd g).blockBitmap = (s.bgd h).blockBitmap) : g = h := by
  rw [← hs.bitmap_group g hg, heq, hs.bitmap_group h hh]

/-- What the call of `ext2_alloc_block` that returned `n` did. -/
structure Taken (L : Layout) (zeroed : Bool) (s : Fs) (n : ℕ) (s' : Fs) : Prop where
  ne_zero : n ≠ 0
  valid : L.BlockValid n
  unused : ¬s.Used L n
  used : ∀ m, L.BlockValid m → (s'.Used L m ↔ s.Used L m ∨ m = n)
  bitmap : ∀ g, (s'.bgd g).blockBitmap = (s.bgd g).blockBitmap
  others : ∀ m, m ≠ n → (∀ g < L.groupsCount, m ≠ (s.bgd g).blockBitmap) → s'.block m = s.block m
  self : s'.block n = if zeroed then fun _ => 0 else s.block n
  cache : s'.ptrCache = s.ptrCache

/-- What `ext2_free_block` did to the block `n`. -/
structure Freed (L : Layout) (s : Fs) (n : ℕ) (s' : Fs) : Prop where
  used : ∀ m, L.BlockValid m → m ≠ n → (s'.Used L m ↔ s.Used L m)
  bitmap : ∀ g, (s'.bgd g).blockBitmap = (s.bgd g).blockBitmap
  others : ∀ m, (∀ g < L.groupsCount, m ≠ (s.bgd g).blockBitmap) → s'.block m = s.block m
  cache : s'.ptrCache = s.ptrCache

theorem takeBlock_bitmap (e : AllocEnv) (zeroed : Bool) (s : Fs) (g : ℕ) (bm : Block) (n h : ℕ) :
    ((takeBlock e zeroed s g bm n).bgd h).blockBitmap = (s.bgd h).blockBitmap := by
  change ((if e.writeBgd g then _ else s.bgd) h).blockBitmap = _
  split_ifs
  · exact apply_update_of_eq Bgd.blockBitmap (by rfl) h
  · rfl

theorem takeBlock_block (e : AllocEnv) (zeroed : Bool) (s : Fs) (g : ℕ) (bm : Block) (n : ℕ)
    (hm : m ≠ n) : (takeBlock e zeroed s g bm n).block m =
      update s.block (s.bgd g).blockBitmap bm m := by
  change (if zeroed then (_ : ℕ → Block) else _) m = _
  split_ifs
  · exact update_of_ne hm _ _
  · rfl

theorem freeBit_spec {bm : Block} (h : freeBit L bm g = some bit) :
    bit < L.groupBlockCount g ∧ test bm bit = false ∧ L.BlockValid (L.groupFirstBlock g + bit) := by
  have hmem := List.mem_range.mp (List.mem_of_find?_eq_some h)
  have hprop := List.find?_some h
  rw [Bool.and_eq_true, Bool.not_eq_true', decide_eq_true_eq] at hprop
  exact ⟨hmem, hprop⟩

/-- Setting the first clear bit of a group takes its block. -/
theorem takeBlock_taken (hs : s.Sane L) (e : AllocEnv) (zeroed : Bool)
    (hg : g < L.groupsCount) (h : freeBit L (s.block (s.bgd g).blockBitmap) g = some bit) :
    Taken L zeroed s (L.groupFirstBlock g + bit) (takeBlock e zeroed s g
      (set (s.block (s.bgd g).blockBitmap) bit) (L.groupFirstBlock g + bit)) := by
  obtain ⟨hlt, hclear, hvalid⟩ := freeBit_spec h
  obtain ⟨hgroup, hbit⟩ := Layout.groupOf_groupFirstBlock_add hlt
  generalize hn : L.groupFirstBlock g + bit = n at *
  have hunused : ¬s.Used L n := by
    rw [Fs.Used, hgroup, hbit, hclear]
    exact Bool.false_ne_true
  have hne : ∀ h < L.groupsCount, (s.bgd h).blockBitmap ≠ n := fun h hh heq =>
    hunused (heq ▸ hs.bitmap_used h hh)
  refine ⟨fun h0 => hunused (h0 ▸ hs.boot (h0 ▸ hvalid)), hvalid, hunused, ?_,
    takeBlock_bitmap e zeroed s g _ n, ?_, ?_, rfl⟩
  · intro m hm
    have hmg := Layout.groupOf_lt hm
    rw [Fs.Used, takeBlock_bitmap, takeBlock_block _ _ _ _ _ _ (hne _ hmg), Fs.Used]
    by_cases hsame : L.groupOf m = g
    · rw [hsame, update_self, test_set, Bool.or_eq_true, decide_eq_true_eq]
      refine or_congr_right ⟨fun h => ?_, fun h => h ▸ hbit.symm⟩
      exact Layout.eq_of_groupOf_bitOf hm hvalid (hsame.trans hgroup.symm) (h.symm.trans hbit.symm)
    · rw [update_of_ne fun heq => hsame (hs.bitmap_inj hmg hg heq)]
      exact ⟨.inl, fun h => h.elim id fun h => absurd (h ▸ hgroup) hsame⟩
  · intro m hm hplain
    rw [takeBlock_block _ _ _ _ _ _ hm, update_of_ne (hplain g hg)]
  · cases zeroed
    · exact update_of_ne (hne g hg).symm _ _
    · exact update_self _ _ _

theorem allocScan_spec (hs : s.Sane L) (e : AllocEnv) (zeroed : Bool) (gs : List ℕ)
    (hgs : ∀ g ∈ gs, g < L.groupsCount) :
    allocScan L e zeroed s gs = (0, s) ∨
      Taken L zeroed s (allocScan L e zeroed s gs).1 (allocScan L e zeroed s gs).2 := by
  induction gs with
  | nil => exact .inl rfl
  | cons g gs ih =>
    have ih := ih fun h hh => hgs h (List.mem_cons_of_mem g hh)
    rw [allocScan]
    by_cases hskip : e.readBgd g = false ∨ (s.bgd g).freeBlocks = 0 ∨ (s.bgd g).blockBitmap = 0 ∨
        e.readBitmap g = false ∨ L.blocksCount ≤ (s.bgd g).blockBitmap
    · rw [if_pos hskip]
      exact ih
    rw [if_neg hskip]
    cases hbit : freeBit L (s.block (s.bgd g).blockBitmap) g with
    | none => exact ih
    | some bit =>
      by_cases hwrite : e.writeBitmap g = false
      · simp only [if_pos hwrite]
        exact ih
      · simp only [if_neg hwrite]
        exact .inr (takeBlock_taken hs e zeroed (hgs g List.mem_cons_self) hbit)

/-- `ext2_alloc_block` takes a block that was not marked, or leaves the volume as it is. -/
theorem allocBlock_spec (hs : s.Sane L) (e : AllocEnv) (zeroed : Bool) :
    allocBlock L e zeroed s = (0, s) ∨
      Taken L zeroed s (allocBlock L e zeroed s).1 (allocBlock L e zeroed s).2 := by
  unfold allocBlock
  split_ifs with hbuf
  · exact .inl rfl
  · refine allocScan_spec hs e zeroed _ fun g hg => ?_
    obtain ⟨scan, hscan, rfl⟩ := List.mem_map.mp hg
    exact Nat.mod_lt _ (Nat.zero_lt_of_lt (List.mem_range.mp hscan))

theorem giveBlock_bitmap (e : FreeEnv) (s : Fs) (bm : Block) (n h : ℕ) :
    ((giveBlock L e s bm n).bgd h).blockBitmap = (s.bgd h).blockBitmap := by
  change ((if e.writeBgd then _ else s.bgd) h).blockBitmap = _
  split_ifs
  · exact apply_update_of_eq Bgd.blockBitmap (by rfl) h
  · rfl

theorem giveBlock_block (e : FreeEnv) (s : Fs) (bm : Block) (n : ℕ)
    (hm : m ≠ (s.bgd (L.groupOf n)).blockBitmap) : (giveBlock L e s bm n).block m = s.block m := by
  change (if e.writeBitmap then _ else s.block) m = _
  split_ifs
  · exact update_of_ne hm _ _
  · rfl

theorem giveBlock_freed (hs : s.Sane L) (e : FreeEnv) (hn : L.BlockValid n) :
    Freed L s n (giveBlock L e s (s.block (s.bgd (L.groupOf n)).blockBitmap) n) := by
  have hg := Layout.groupOf_lt hn
  refine ⟨?_, giveBlock_bitmap e s _ n, fun m hm => giveBlock_block e s _ n (hm _ hg), rfl⟩
  intro m hm hmn
  have hmg := Layout.groupOf_lt hm
  rw [Fs.Used, giveBlock_bitmap, Fs.Used]
  by_cases hsame : L.groupOf m = L.groupOf n
  · have hbit : L.bitOf n ≠ L.bitOf m := fun h =>
      hmn (Layout.eq_of_groupOf_bitOf hm hn hsame h.symm)
    rw [hsame]
    change test ((if e.writeBitmap then _ else s.block) _) _ = true ↔ _
    split_ifs
    · rw [update_self, test_clear, decide_eq_false hbit, Bool.not_false, Bool.and_true]
    · rfl
  · rw [giveBlock_block e s _ n fun heq => hsame (hs.bitmap_inj hmg hg heq)]

/-- `ext2_free_block` only touches the bit of its block. -/
theorem freeBlock_spec (hs : s.Sane L) (e : FreeEnv) (n : ℕ) : Freed L s n (freeBlock L e s n) := by
  have hsame : Freed L s n s := ⟨fun _ _ _ => Iff.rfl, fun _ => rfl, fun _ _ => rfl, rfl⟩
  unfold freeBlock
  split_ifs with hbad
  · exact hsame
  have hn : L.BlockValid n := by
    by_contra hn
    exact hbad (.inr (.inl hn))
  have hg := Layout.groupOf_lt hn
  rw [readBlock, if_neg (hs.bitmap_ne _ hg), if_neg (not_le.mpr (hs.bitmap_valid _ hg).2)]
  simp only
  split_ifs
  · exact giveBlock_freed hs e hn
  · exact hsame

theorem Fs.Sane.mono (hs : s.Sane L) (hb : ∀ g, (s'.bgd g).blockBitmap = (s.bgd g).blockBitmap)
    (hused : ∀ m, L.BlockValid m → (m = 0 ∨ ∃ g < L.groupsCount, m = (s.bgd g).blockBitmap) →
      s.Used L m → s'.Used L m) : s'.Sane L where
  bitmap_ne g hg := by rw [hb]; exact hs.bitmap_ne g hg
  bitmap_valid g hg := by rw [hb]; exact hs.bitmap_valid g hg
  bitmap_group g hg := by rw [hb]; exact hs.bitmap_group g hg
  bitmap_used g hg := by
    rw [hb]
    exact hused _ (hs.bitmap_valid g hg) (.inr ⟨g, hg, rfl⟩) (hs.bitmap_used g hg)
  boot h := hused 0 h (.inl rfl) (hs.boot h)

theorem Taken.sane {zeroed : Bool} (ht : Taken L zeroed s n s') (hs : s.Sane L) : s'.Sane L :=
  hs.mono ht.bitmap fun m hm _ h => (ht.used m hm).mpr (.inl h)

/-- A block that was held stays held when another is taken, and keeps what it holds. -/
theorem Taken.held {zeroed : Bool} (ht : Taken L zeroed s n s') (hm : s.Held L m) :
    s'.Held L m ∧ s'.block m = s.block m := by
  refine ⟨⟨hm.valid, (ht.used m hm.valid).mpr (.inl hm.used), fun g hg => ?_⟩,
    ht.others m (fun h => ht.unused (h ▸ hm.used)) hm.plain⟩
  rw [ht.bitmap]
  exact hm.plain g hg

theorem Taken.held_self {zeroed : Bool} (ht : Taken L zeroed s n s') (hs : s.Sane L) :
    s'.Held L n := by
  refine ⟨ht.valid, (ht.used n ht.valid).mpr (.inr rfl), fun g hg heq => ?_⟩
  rw [ht.bitmap] at heq
  exact ht.unused (heq ▸ hs.bitmap_used g hg)

theorem Freed.held (hf : Freed L s n s') (hm : s.Held L m) (hmn : m ≠ n) : s'.Held L m := by
  refine ⟨hm.valid, (hf.used m hm.valid hmn).mpr hm.used, fun g hg => ?_⟩
  rw [hf.bitmap]
  exact hm.plain g hg

theorem Freed.sane (hf : Freed L s n s') (hs : s.Sane L) (hn : s.Held L n) (hn0 : n ≠ 0) :
    s'.Sane L := by
  refine hs.mono hf.bitmap fun m hm hcase h => (hf.used m hm ?_).mpr h
  rcases hcase with rfl | ⟨g, hg, rfl⟩
  · exact hn0.symm
  · exact (hn.plain g hg).symm

end Bitmaps

end RHKernel.Ext2
