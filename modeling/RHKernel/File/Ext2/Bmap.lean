import RHKernel.File.Ext2.Volume
import RHKernel.Lib.IndexTree

/-!
# The block map of an ext2 file

A file refers to its blocks by fifteen numbers: twelve data blocks and three trees of pointer
blocks, of depth one, two and three. `ext2_bmap` follows the tree for a file block through a cache
of pointer blocks; `ext2_set_bmap` stores a block number there, makes the pointer blocks that are
missing and gives back those that become empty.

`LevelEnv` tells which of the steps that one level of `ext2_set_indirect` takes succeed, and
`PtrWrites` does so for the two writes of a pointer block: the clearing of a new one, whose result
`ext2_alloc_block` ignores, and the store of a pointer.
-/

namespace RHKernel.Ext2

open LittleEndian IndexTree

def Layout.ptrs (L : Layout) : ℕ := L.blockSize / 4

/-- Pointer `k` of a block. -/
def entry (b : Block) (k : ℕ) : ℕ := rd b (k * 4) 4

/-- The block with `v` stored as pointer `k`. -/
def setEntry (b : Block) (k v : ℕ) : Block := wr b (k * 4) 4 v

/-- A pointer that does not lead to a block of the volume counts as null. -/
def Layout.checked (L : Layout) (v : ℕ) : ℕ := if v ≠ 0 ∧ L.BlockValid v then v else 0

/-! ### The cache of pointer blocks -/

def ptrCacheInvalidate (s : Fs) (n : ℕ) : Fs :=
  if n = 0 then s
  else
    { s with
      ptrCache := s.ptrCache.map fun e =>
        if e.block = n then { e with valid := false, block := 0 } else e }

/-- The entry that a block which is not in the cache replaces: the first that holds nothing, or else
the first of those used longest ago. -/
def victim (cache : List PtrEntry) : ℕ :=
  match cache.findIdx? fun e => !e.valid with
  | some i => i
  | none => cache.findIdx fun e => cache.all fun x => decide (e.lastUsed ≤ x.lastUsed)

/-- `ext2_read_ptr_block`; `ok` tells whether the block can be read where it is not in the cache. -/
def readPtrBlock (L : Layout) (ok : Bool) (s : Fs) (n index : ℕ) : ℕ × Fs :=
  if n = 0 ∨ L.ptrs ≤ index ∨ ¬L.BlockValid n then (0, s)
  else
    let clock := (s.ptrCacheClock + 1) % 2 ^ 32
    match s.ptrCache.find? fun e => e.block == n && e.valid with
    | some e =>
      (L.checked (entry e.data index),
        { s with
          ptrCache := s.ptrCache.set (s.ptrCache.findIdx fun e => e.block == n && e.valid)
            { e with lastUsed := clock }
          ptrCacheClock := clock })
    | none =>
      if ok then
        (L.checked (entry (s.block n) index),
          { s with
            ptrCache := s.ptrCache.set (victim s.ptrCache) ⟨n, clock, true, s.block n⟩
            ptrCacheClock := clock })
      else
        (0,
          { s with
            ptrCache := s.ptrCache.set (victim s.ptrCache) ⟨0, clock, false, s.block n⟩
            ptrCacheClock := clock })

/-! ### Reading the map -/

/-- `ext2_bmap_indirect`. At depth 0 the block itself is what was looked for. -/
def bmapIndirect (L : Layout) (ok : ℕ → Bool) : ℕ → Fs → ℕ → ℕ → ℕ × Fs
  | 0, s, root, _ => (root, s)
  | d + 1, s, root, index =>
    if root = 0 then (0, s)
    else
      let next := readPtrBlock L (ok (d + 1)) s root (index / L.ptrs ^ d)
      bmapIndirect L ok d next.2 next.1 (index % L.ptrs ^ d)

def Layout.maxFileBlocks (L : Layout) : ℕ :=
  12 + L.ptrs + L.ptrs * L.ptrs + L.ptrs * L.ptrs * L.ptrs

/-- Where a file block is: the index in `node->block`, the depth of its tree and the place there. -/
def Layout.place (L : Layout) (fileBlock : ℕ) : ℕ × ℕ × ℕ :=
  if fileBlock < 12 then (fileBlock, 0, 0)
  else if fileBlock - 12 < L.ptrs then (12, 1, fileBlock - 12)
  else if fileBlock - 12 - L.ptrs < L.ptrs * L.ptrs then (13, 2, fileBlock - 12 - L.ptrs)
  else (14, 3, fileBlock - 12 - L.ptrs - L.ptrs * L.ptrs)

/-- `ext2_bmap`; `node` is `node->block`. -/
def bmap (L : Layout) (ok : ℕ → Bool) (s : Fs) (node : ℕ → ℕ) (fileBlock : ℕ) : ℕ × Fs :=
  if L.maxFileBlocks ≤ fileBlock then (0, s)
  else
    let loc := L.place fileBlock
    bmapIndirect L ok loc.2.1 s (node loc.1) loc.2.2

/-! ### Changing the map -/

/-- Which writes of a pointer block succeed, by the level of the block: the clearing of a new one
and the store. -/
structure PtrWrites where
  zero : ℕ → Bool
  ptr : ℕ → Bool

/-- What else `ext2_set_indirect` meets at one level: the allocation of a block, its buffer, the
block itself, the buffer and the block of `ext2_ptr_block_empty`, and the release of the block. -/
structure LevelEnv where
  alloc : AllocEnv
  buffer : Bool
  read : Bool
  empty : Bool
  free : FreeEnv

def ptrBlockEmpty (L : Layout) (e : LevelEnv) (s : Fs) (n : ℕ) : Bool :=
  e.empty && (List.range L.ptrs).all fun k => entry (s.block n) k == 0

/-- The end of `ext2_set_indirect`: `buf` is written to the pointer block, which is given back when
a pointer was cleared and none is left. -/
def storePtrBlock (L : Layout) (write : Bool) (e : LevelEnv) (s : Fs) (root : ℕ) (buf : Block)
    (diskBlock : ℕ) : Bool × ℕ × Fs :=
  if write = false then (false, root, s)
  else
    let s := ptrCacheInvalidate { s with block := Function.update s.block root buf } root
    if diskBlock = 0 ∧ ptrBlockEmpty L e s root then (true, 0, freeBlock L e.free s root)
    else (true, root, s)

/-- `ext2_set_indirect`: the status, the root and the volume. At depth 0 the entry is the disk block
itself. -/
def setIndirect (L : Layout) (w : PtrWrites) (e : ℕ → LevelEnv) (diskBlock : ℕ) :
    ℕ → Fs → ℕ → ℕ → Bool × ℕ × Fs
  | 0, s, _, _ => (true, diskBlock, s)
  | d + 1, s, root, index =>
    if root = 0 ∧ diskBlock = 0 then (true, root, s)
    else
      match if root = 0 then allocBlock L (e (d + 1)).alloc (w.zero (d + 1)) s else (root, s) with
      | (root, s) =>
        if root = 0 ∨ (e (d + 1)).buffer = false ∨ (e (d + 1)).read = false ∨
            L.blocksCount ≤ root then
          (false, root, s)
        else
          let slot := index / L.ptrs ^ d
          let child := setIndirect L w e diskBlock d s (entry (s.block root) slot)
            (index % L.ptrs ^ d)
          if child.1 = false then (false, root, child.2.2)
          else
            storePtrBlock L (w.ptr (d + 1)) (e (d + 1)) child.2.2 root
              (setEntry (s.block root) slot child.2.1) diskBlock

/-- `ext2_set_bmap`: the status, `node->block` and the volume. -/
def setBmap (L : Layout) (w : PtrWrites) (e : ℕ → LevelEnv) (s : Fs) (node : ℕ → ℕ)
    (fileBlock diskBlock : ℕ) : Bool × (ℕ → ℕ) × Fs :=
  if L.maxFileBlocks ≤ fileBlock then (false, node, s)
  else
    let loc := L.place fileBlock
    let r := setIndirect L w e diskBlock loc.2.1 s (node loc.1) loc.2.2
    (r.1, Function.update node loc.1 r.2.1, r.2.2)

/-! ### The map without the cache -/

/-- Pointer `k` of the block `n`, as `ext2_read_ptr_block` returns it. -/
def Fs.ptr (L : Layout) (s : Fs) (n k : ℕ) : ℕ := L.checked (entry (s.block n) k)

/-- A valid entry of the cache holds what its block does. -/
def Fs.Coherent (s : Fs) : Prop := ∀ e ∈ s.ptrCache, e.valid = true → e.data = s.block e.block

theorem Layout.checked_of_valid {L : Layout} {v : ℕ} (h : v = 0 ∨ L.BlockValid v) :
    L.checked v = v := by
  by_cases hv : v = 0
  · rw [checked, if_neg fun h => h.1 hv, hv]
  · exact if_pos ⟨hv, h.resolve_left hv⟩

theorem Layout.checked_valid (L : Layout) (v : ℕ) :
    L.checked v = 0 ∨ L.BlockValid (L.checked v) := by
  unfold checked
  split_ifs with hv
  · exact .inr hv.2
  · exact .inl rfl

theorem ptr_congr {L : Layout} {s s' : Fs} {n : ℕ} (h : s'.block n = s.block n) (k : ℕ) :
    s'.ptr L n k = s.ptr L n k := by
  rw [Fs.ptr, Fs.ptr, h]

section Reads

variable {L : Layout} {s : Fs} {n index d root fb fb' : ℕ}

/-- Reading a pointer replaces at most one entry of the cache, by one with the same block and data
or by the block that was read. -/
theorem readPtrBlock_state (ok : Bool) : (readPtrBlock L ok s n index).2 = s ∨
    ∃ i e clock, (readPtrBlock L ok s n index).2 =
        { s with ptrCache := s.ptrCache.set i e, ptrCacheClock := clock } ∧ n ≠ 0 ∧
      (e.valid = true → (e.block = n ∧ e.data = s.block n) ∨
        ∃ f ∈ s.ptrCache, f.valid = true ∧ e.block = f.block ∧ e.data = f.data) := by
  by_cases hbad : n = 0 ∨ L.ptrs ≤ index ∨ ¬L.BlockValid n
  · exact .inl (by rw [readPtrBlock, if_pos hbad])
  have hn : n ≠ 0 := fun h => hbad (.inl h)
  rw [readPtrBlock, if_neg hbad]
  refine .inr ?_
  split
  next f hf =>
    have hmatch := List.find?_some hf
    rw [Bool.and_eq_true] at hmatch
    exact ⟨_, _, _, rfl, hn, fun _ =>
      .inr ⟨f, List.mem_of_find?_eq_some hf, hmatch.2, rfl, rfl⟩⟩
  next =>
    cases ok
    · exact ⟨_, _, _, rfl, hn, nofun⟩
    · exact ⟨_, _, _, rfl, hn, fun _ => .inl ⟨rfl, rfl⟩⟩

theorem readPtrBlock_block (ok : Bool) : (readPtrBlock L ok s n index).2.block = s.block := by
  obtain h | ⟨i, e, clock, h, -⟩ := readPtrBlock_state (L := L) (s := s) (n := n) ok <;> rw [h]

/-- `ext2_read_ptr_block` returns the pointer that is on the disk. -/
theorem readPtrBlock_eq (hs : s.Coherent) (hn : n ≠ 0) (hvalid : L.BlockValid n)
    (hindex : index < L.ptrs) : (readPtrBlock L true s n index).1 = s.ptr L n index := by
  have hgood : ¬(n = 0 ∨ L.ptrs ≤ index ∨ ¬L.BlockValid n) := by
    rintro (h | h | h)
    · exact hn h
    · omega
    · exact h hvalid
  rw [readPtrBlock, if_neg hgood]
  split
  next e he =>
    have hmatch := List.find?_some he
    rw [Bool.and_eq_true, beq_iff_eq] at hmatch
    rw [hs e (List.mem_of_find?_eq_some he) hmatch.2, hmatch.1, Fs.ptr]
  next => rw [if_pos rfl, Fs.ptr]

theorem readPtrBlock_coherent (hs : s.Coherent) (ok : Bool) :
    (readPtrBlock L ok s n index).2.Coherent := by
  obtain h | ⟨i, f, clock, h, hn, hf⟩ := readPtrBlock_state (L := L) (s := s) (n := n) ok
  · rwa [h]
  rw [h]
  intro e he hv
  rcases List.mem_or_eq_of_mem_set he with he | rfl
  · exact hs e he hv
  · rcases hf hv with ⟨hblock, hdata⟩ | ⟨f, hmem, hvalid, hblock, hdata⟩
    · rw [hblock, hdata]
    · rw [hblock, hdata]
      exact hs f hmem hvalid

/-- `ext2_bmap_indirect` reads the map of the tree on the disk. -/
theorem bmapIndirect_eq (hs : s.Coherent) (hroot : root = 0 ∨ L.BlockValid root)
    (hindex : index < L.ptrs ^ d) :
    (bmapIndirect L (fun _ => true) d s root index).1 = look (s.ptr L) L.ptrs d root index := by
  induction d generalizing s root index with
  | zero => rfl
  | succ d ih =>
    by_cases h0 : root = 0
    · rw [h0, look_null, bmapIndirect, if_pos rfl]
    have hnext := readPtrBlock_eq hs h0 (hroot.resolve_left h0) (digit_lt hindex)
    rw [look_succ h0, bmapIndirect, if_neg h0]
    rw [ih (readPtrBlock_coherent hs true) (hnext ▸ L.checked_valid _) (rest_lt hindex), hnext]
    have hptr : (readPtrBlock L true s root (index / L.ptrs ^ d)).2.ptr L = s.ptr L := by
      funext n k
      exact ptr_congr (congrFun (readPtrBlock_block true) n) k
    rw [hptr]

theorem place_lt (h : fb < L.maxFileBlocks) : (L.place fb).2.2 < L.ptrs ^ (L.place fb).2.1 := by
  unfold Layout.maxFileBlocks at h
  unfold Layout.place
  split_ifs with h1 h2 h3
  · exact one_pos
  · exact (pow_one L.ptrs).symm ▸ h2
  · exact (pow_two L.ptrs).symm ▸ h3
  · rw [Nat.pow_succ, pow_two]
    dsimp only
    omega

theorem place_depth (fb : ℕ) : (L.place fb).2.1 = (L.place fb).1 - 11 := by
  unfold Layout.place
  split_ifs
  · dsimp only
    omega
  all_goals rfl

theorem place_root_lt (fb : ℕ) : (L.place fb).1 < 15 := by
  unfold Layout.place
  split_ifs <;> dsimp only <;> omega

theorem place_inj (hroot : (L.place fb).1 = (L.place fb').1)
    (hindex : (L.place fb).2.2 = (L.place fb').2.2) : fb = fb' := by
  unfold Layout.place at hroot hindex
  split_ifs at hroot hindex <;> dsimp only at hroot hindex <;> omega

/-- `ext2_bmap` without the cache. -/
def Fs.map (L : Layout) (s : Fs) (node : ℕ → ℕ) (fb : ℕ) : ℕ :=
  if L.maxFileBlocks ≤ fb then 0
  else look (s.ptr L) L.ptrs (L.place fb).2.1 (node (L.place fb).1) (L.place fb).2.2

theorem bmap_eq {node : ℕ → ℕ} (hs : s.Coherent)
    (hnode : ∀ t, 12 ≤ t → t < 15 → node t = 0 ∨ L.BlockValid (node t)) (fb : ℕ) :
    (bmap L (fun _ => true) s node fb).1 = s.map L node fb := by
  unfold bmap Fs.map
  split_ifs with h
  · rfl
  have hlt := place_lt (not_le.mp h)
  by_cases hdepth : (L.place fb).2.1 = 0
  · dsimp only
    rw [hdepth]
    rfl
  · have h12 : 12 ≤ (L.place fb).1 := by
      rw [place_depth] at hdepth
      omega
    exact bmapIndirect_eq hs (hnode _ h12 (place_root_lt fb)) hlt

end Reads

/-! ### Storing pointers -/

theorem entry_setEntry (b : Block) {k j v : ℕ} (hv : v < 2 ^ 32) :
    entry (setEntry b k v) j = if j = k then v else entry b j := by
  unfold entry setEntry
  split_ifs with h
  · rw [h, rd_wr_self, Nat.mod_eq_of_lt (by omega)]
  · exact rd_wr_of_disjoint (by omega)

theorem entry_zero (k : ℕ) : entry (fun _ => 0) k = 0 := rfl

end RHKernel.Ext2
