import RHKernel.File.Ext2.SetIndirect

/-!
# The laws of the block map

A file refers to its blocks by twelve numbers and three trees. Where all these blocks are distinct
and in use, `ext2_set_bmap` changes the map at one file block when it succeeds and nowhere when it
fails, provided the device keeps the writes of pointer blocks in order. The proviso is needed: for
every device that does not, there is a file for which the laws fail (`bmapLaws_iff`).
-/

namespace RHKernel.Ext2

open Function IndexTree List

/-- The blocks of a tree: its pointer blocks and, below them, the data blocks. -/
def treeBlocks (L : Layout) (s : Fs) : ℕ → ℕ → List ℕ
  | 0, n => if n = 0 then [] else [n]
  | d + 1, n =>
    if n = 0 then []
    else n :: (List.range L.ptrs).flatMap fun k => treeBlocks L s d (entry (s.block n) k)

/-- The blocks of a file. -/
def nodeBlocks (L : Layout) (s : Fs) (node : ℕ → ℕ) : List ℕ :=
  (List.range 15).flatMap fun t => treeBlocks L s (t - 11) (node t)

/-- The blocks of the file are distinct blocks of the volume, all of them in use. -/
structure WellFormed (L : Layout) (s : Fs) (node : ℕ → ℕ) : Prop where
  ready : s.Ready L
  nodup : (nodeBlocks L s node).Nodup
  held : ∀ n ∈ nodeBlocks L s node, s.Held L n

/-- The laws: a call that succeeds maps `i` to `b` and leaves the rest of the map, one that fails
leaves all of it. -/
def BmapLaws (L : Layout) (w : PtrWrites) (e : ℕ → LevelEnv) (s : Fs) (node : ℕ → ℕ) (i b : ℕ) :
    Prop :=
  let r := setBmap L w e s node i b
  let before := fun j => (bmap L (fun _ => true) s node j).1
  let after := fun j => (bmap L (fun _ => true) r.2.2 r.2.1 j).1
  (r.1 = true → after i = b ∧ ∀ j, j ≠ i → after j = before j) ∧
    (r.1 = false → ∀ j, after j = before j)

section

variable {L : Layout} {w : PtrWrites} {e : ℕ → LevelEnv} {s s' : Fs} {node : ℕ → ℕ}
  {i b d n root t u j index : ℕ}

theorem self_mem_treeBlocks (hn : n ≠ 0) (d : ℕ) : n ∈ treeBlocks L s d n := by
  cases d with
  | zero => rw [treeBlocks, if_neg hn]; exact mem_singleton_self n
  | succ d => rw [treeBlocks, if_neg hn]; exact mem_cons_self

theorem sublist_flatMap {α β : Type*} {f g : α → List β} {l : List α}
    (h : ∀ a ∈ l, (f a).Sublist (g a)) : (l.flatMap f).Sublist (l.flatMap g) := by
  induction l with
  | nil => exact List.Sublist.refl _
  | cons a l ih =>
    exact (h a mem_cons_self).append (ih fun c hc => h c (mem_cons_of_mem a hc))

/-- Where all blocks of a tree are valid, its pointer blocks are those that `ext2_read_ptr_block`
finds. -/
theorem nodes_sublist_treeBlocks (h : ∀ n ∈ treeBlocks L s d root, L.BlockValid n) :
    (nodes (s.ptr L) L.ptrs d root).Sublist (treeBlocks L s d root) ∧
      ∀ n ∈ nodes (s.ptr L) L.ptrs d root, ∀ k < L.ptrs, entry (s.block n) k = s.ptr L n k := by
  induction d generalizing root with
  | zero => exact ⟨nil_sublist _, nofun⟩
  | succ d ih =>
    by_cases h0 : root = 0
    · rw [h0, nodes_null]
      exact ⟨nil_sublist _, nofun⟩
    rw [treeBlocks, if_neg h0] at h ⊢
    have hbelow : ∀ k < L.ptrs, ∀ n ∈ treeBlocks L s d (entry (s.block root) k),
        L.BlockValid n := fun k hk n hn =>
      h n (mem_cons_of_mem _ (mem_flatMap.mpr ⟨k, List.mem_range.mpr hk, hn⟩))
    have hentry : ∀ k < L.ptrs, s.ptr L root k = entry (s.block root) k := by
      intro k hk
      refine Layout.checked_of_valid ?_
      by_cases hnull : entry (s.block root) k = 0
      · exact .inl hnull
      · exact .inr (hbelow k hk _ (self_mem_treeBlocks hnull d))
    refine ⟨?_, fun n hn k hk => ?_⟩
    · rw [nodes, if_neg h0]
      refine Sublist.cons_cons root (sublist_flatMap fun k hk => ?_)
      have hk := List.mem_range.mp hk
      rw [hentry k hk]
      exact (ih (hbelow k hk)).1
    · obtain ⟨-, rfl | ⟨j, hj, hn⟩⟩ := mem_nodes_succ.mp hn
      · exact (hentry k hk).symm
      · rw [hentry j hj] at hn
        exact (ih (hbelow j hj)).2 n hn k hk

namespace WellFormed

variable (hwf : WellFormed L s node)

include hwf

theorem held_tree (ht : t < 15) :
    ∀ n ∈ treeBlocks L s (t - 11) (node t), s.Held L n := fun n hn =>
  hwf.held n (mem_flatMap.mpr ⟨t, List.mem_range.mpr ht, hn⟩)

theorem sublist (ht : t < 15) :
    (nodes (s.ptr L) L.ptrs (t - 11) (node t)).Sublist (treeBlocks L s (t - 11) (node t)) ∧
      ∀ n ∈ nodes (s.ptr L) L.ptrs (t - 11) (node t), ∀ k < L.ptrs,
        entry (s.block n) k = s.ptr L n k :=
  nodes_sublist_treeBlocks fun n hn => (hwf.held_tree ht n hn).valid

theorem tree (ht : t < 15) : s.Tree L (t - 11) (node t) where
  nodup := (hwf.sublist ht).1.nodup ((nodup_flatMap.mp hwf.nodup).1 t (List.mem_range.mpr ht))
  held n hn := hwf.held_tree ht n ((hwf.sublist ht).1.subset hn)
  plain := (hwf.sublist ht).2

theorem apart (ht : t < 15) (hu : u < 15) (hne : t ≠ u)
    (hn : n ∈ nodes (s.ptr L) L.ptrs (t - 11) (node t)) :
    n ∉ nodes (s.ptr L) L.ptrs (u - 11) (node u) := by
  intro hn'
  have : Std.Symm (onFun List.Disjoint fun t => treeBlocks L s (t - 11) (node t)) :=
    ⟨fun _ _ hd _ h1 h2 => hd h2 h1⟩
  exact (nodup_flatMap.mp hwf.nodup).2.forall (List.mem_range.mpr ht) (List.mem_range.mpr hu)
    hne ((hwf.sublist ht).1.subset hn) ((hwf.sublist hu).1.subset hn')

theorem root_valid (ht : t < 15) : node t = 0 ∨ L.BlockValid (node t) := by
  by_cases h0 : node t = 0
  · exact .inl h0
  · exact .inr (hwf.held_tree ht _ (self_mem_treeBlocks h0 _)).valid

end WellFormed

theorem map_eq_look (hj : j < L.maxFileBlocks) (s : Fs) (node : ℕ → ℕ) :
    s.map L node j = look (s.ptr L) L.ptrs (L.place j).2.1 (node (L.place j).1) (L.place j).2.2 :=
  if_neg (not_le.mpr hj)

theorem look_of_same  (h : ∀ n ∈ nodes (s.ptr L) L.ptrs d root, s'.block n = s.block n)
    (hindex : index < L.ptrs ^ d) :
    look (s'.ptr L) L.ptrs d root index = look (s.ptr L) L.ptrs d root index :=
  look_congr (fun n hn k _ => ptr_congr (h n hn) k) hindex

section

variable {s' : Fs} {root' : ℕ}

theorem Done.map (hwf : WellFormed L s node) (hi : i < L.maxFileBlocks)
    (hc : Done L w b (L.place i).2.1 s (node (L.place i).1) (L.place i).2.2 root' s') (j : ℕ) :
    s'.map L (update node (L.place i).1 root') j = if j = i then b else s.map L node j := by
  by_cases hj : j < L.maxFileBlocks
  · have hplace := place_lt hj
    rw [map_eq_look hj, map_eq_look hj]
    by_cases htree : (L.place j).1 = (L.place i).1
    · have hdepth : (L.place j).2.1 = (L.place i).2.1 := by rw [place_depth, place_depth, htree]
      rw [hdepth] at hplace ⊢
      rw [htree, update_self, hc.look _ hplace]
      by_cases hji : j = i
      · rw [if_pos hji, if_pos (by rw [hji])]
      · rw [if_neg hji, if_neg fun h => hji (place_inj htree h)]
    · rw [update_of_ne htree, if_neg fun h => htree (by rw [h])]
      refine look_of_same (fun n hn => (hc.frame n ?_ ?_).1) hplace
      · exact (hwf.tree (place_root_lt j)).held n (place_depth j ▸ hn)
      · rw [place_depth] at hn ⊢
        exact hwf.apart (place_root_lt j) (place_root_lt i) htree hn
  · have hle := not_lt.mp hj
    rw [Fs.map, Fs.map, if_pos hle, if_pos hle, if_neg fun h : j = i => hj (h ▸ hi)]

theorem Failed.map (hwf : WellFormed L s node)
    (hc : Failed L (L.place i).2.1 s (node (L.place i).1) root' s') (j : ℕ) :
    s'.map L (update node (L.place i).1 root') j = s.map L node j := by
  by_cases hj : j < L.maxFileBlocks
  · have hplace := place_lt hj
    have hsame : look (s'.ptr L) L.ptrs (L.place j).2.1 (node (L.place j).1) (L.place j).2.2 =
        look (s.ptr L) L.ptrs (L.place j).2.1 (node (L.place j).1) (L.place j).2.2 :=
      look_of_same (fun n hn => hc.same n
        ((hwf.tree (place_root_lt j)).held n (place_depth j ▸ hn))) hplace
    rw [map_eq_look hj, map_eq_look hj]
    by_cases htree : (L.place j).1 = (L.place i).1
    · rcases hc.root with hroot | ⟨hroot, -, hnull⟩
      · rw [hroot, update_eq_self, hsame]
      · have hdepth : (L.place j).2.1 = (L.place i).2.1 := by rw [place_depth, place_depth, htree]
        rw [hdepth] at hplace ⊢
        rw [htree, update_self, hnull _ hplace, hroot, look_null]
    · rw [update_of_ne htree, hsame]
  · have hle := not_lt.mp hj
    rw [Fs.map, Fs.map, if_pos hle, if_pos hle]

end

/-- The laws hold when the device keeps the writes in order. -/
theorem bmapLaws_of_orderly (hw : w.Orderly) (hwf : WellFormed L s node) (hi : i < L.maxFileBlocks)
    (hb : b = 0 ∨ L.BlockValid b) : BmapLaws L w e s node i b := by
  have htree := hwf.tree (place_root_lt (L := L) i)
  rw [← place_depth] at htree
  have hd : (L.place i).2.1 ≤ 3 := by
    have := place_root_lt (L := L) i
    rw [place_depth]
    omega
  have hspec := setIndirect_spec (e := e) hw hb hd hwf.ready htree (place_lt hi)
  have hset : setBmap L w e s node i b = _ := if_neg (not_le.mpr hi)
  unfold BmapLaws
  rw [hset]
  dsimp only at hspec ⊢
  generalize setIndirect L w e b (L.place i).2.1 s (node (L.place i).1) (L.place i).2.2 = r
    at hspec ⊢
  have hbefore := bmap_eq hwf.ready.coherent fun t _ ht => hwf.root_valid ht
  -- the root that was stored leads to a block of the volume
  have hafter : r.2.2.Coherent → (r.2.1 = 0 ∨ L.BlockValid r.2.1) → ∀ j,
      (bmap L (fun _ => true) r.2.2 (update node (L.place i).1 r.2.1) j).1 =
        r.2.2.map L (update node (L.place i).1 r.2.1) j := by
    refine fun hc hr j => bmap_eq hc (fun t _ => ?_) j
    exact update_elim (fun _ => hr) (fun t _ => hwf.root_valid) t
  rcases hspec with ⟨hrc, hdone⟩ | ⟨hrc, hfail⟩
  · have hmap := hdone.map hwf hi
    refine ⟨fun _ => ⟨?_, fun j hj => ?_⟩, fun h => absurd (h.symm.trans hrc) Bool.false_ne_true⟩
    · rw [hafter hdone.ready.coherent hdone.root_valid, hmap, if_pos rfl]
    · rw [hafter hdone.ready.coherent hdone.root_valid, hmap, if_neg hj, hbefore]
  · have hroot : r.2.1 = 0 ∨ L.BlockValid r.2.1 := by
      rcases hfail.root with h | ⟨-, h, -⟩
      · exact h ▸ hwf.root_valid (place_root_lt i)
      · exact .inr h
    refine ⟨fun h => absurd (hrc.symm.trans h) Bool.false_ne_true, fun _ j => ?_⟩
    rw [hafter hfail.coherent hroot, hfail.map hwf, hbefore]

end

/-! ### The order of the writes is needed -/

theorem kilobyte_blockSize : 1024 = 1024 ∨ 1024 = 2048 ∨ 1024 = 4096 := .inl rfl

/-- A volume of 64 blocks with its bitmap in block 3, in which only block 20 is free. -/
def smallLayout : Layout where
  blockSize := 1024
  inodesCount := 16
  blockSize_mem := kilobyte_blockSize
  blocksCount := 64
  firstDataBlock := 1
  blocksPerGroup := 8192
  groupsCount := 1
  blocksCount_lt := by decide
  firstDataBlock_eq := rfl
  blocksPerGroup_pos := by decide
  groupsCount_eq := by decide

/-- The volume when its blocks other than the bitmap hold `block`. -/
def smallFs (block : ℕ → Block) : Fs where
  block := update block 3 fun j => if j = 2 then 0xF7 else 0xFF
  bgd _ := ⟨3, 1⟩
  superFree := 1
  freeBlocksCount := 1
  nextBlockAllocGroup := 0
  ptrCache := List.replicate 8 ⟨0, 0, false, fun _ => 0⟩
  ptrCacheClock := 0

/-- Everything succeeds, except that there may be no buffer. -/
def plainEnv (buffer : Bool) : LevelEnv where
  alloc := ⟨true, fun _ => true, fun _ => true, fun _ => true, fun _ => true, true⟩
  buffer := buffer
  read := true
  empty := true
  free := ⟨true, true, true, true, true, true⟩

theorem smallFs_used (block : ℕ → Block) (n : ℕ) : (smallFs block).Used smallLayout n ↔
    Bitmap.test (fun j => if j = 2 then 0xF7 else 0xFF) (smallLayout.bitOf n) = true := by
  change Bitmap.test (update block 3 (fun j => if j = 2 then 0xF7 else 0xFF) 3) _ = _ ↔ _
  rw [update_self]

theorem smallFs_ready (block : ℕ → Block) : (smallFs block).Ready smallLayout := by
  have hcache : ∀ x ∈ (smallFs block).ptrCache, x.valid ≠ true := by
    intro x hx
    rw [eq_of_mem_replicate hx]
    exact Bool.false_ne_true
  refine ⟨⟨?_, ?_, ?_, fun g _ => (smallFs_used block 3).mpr (by decide),
    fun h => absurd h (by decide)⟩, fun x hx hv => absurd hv (hcache x hx),
    fun x hx hv => absurd hv (hcache x hx)⟩
  · exact fun g _ => (by decide : (3 : ℕ) ≠ 0)
  · exact fun g _ => (by decide : smallLayout.BlockValid 3)
  · intro g hg
    rw [Nat.lt_one_iff.mp hg]
    exact (by decide : smallLayout.groupOf 3 = 0)

theorem smallFs_held (block : ℕ → Block) {n : ℕ} (h4 : 4 ≤ n) (h16 : n < 16) :
    (smallFs block).Held smallLayout n := by
  have hbits : ∀ n < 16, 4 ≤ n → smallLayout.BlockValid n ∧
      Bitmap.test (fun j => if j = 2 then 0xF7 else 0xFF) (smallLayout.bitOf n) = true := by decide
  obtain ⟨hvalid, hbit⟩ := hbits n h16 h4
  refine ⟨hvalid, (smallFs_used block n).mpr hbit, fun g _ => ?_⟩
  change n ≠ 3
  omega

def onePtr (n : ℕ) : Block := setEntry (fun _ => 0) 0 n

/-- Trees of depth two and three over the same leaf: 9 leads to 10, 10 to 11, and 11 to 12. -/
def chainFs : Fs := smallFs fun n => if 9 ≤ n ∧ n ≤ 11 then onePtr (n + 1) else fun _ => 0

/-- A file whose tree of depth two starts in block 10. -/
def doubleNode : ℕ → ℕ := update (fun _ => 0) 13 10

/-- A file whose tree of depth three starts in block 9. -/
def tripleNode : ℕ → ℕ := update (fun _ => 0) 14 9

theorem doubleNode_wellFormed : WellFormed smallLayout chainFs doubleNode := by
  have hblocks : nodeBlocks smallLayout chainFs doubleNode = [10, 11, 12] := by decide +kernel
  refine ⟨smallFs_ready _, by rw [hblocks]; decide, fun n hn => ?_⟩
  rw [hblocks] at hn
  have hrange : ∀ n ∈ [10, 11, 12], 4 ≤ n ∧ n < 16 := by decide
  exact smallFs_held _ (hrange n hn).1 (hrange n hn).2

theorem tripleNode_wellFormed : WellFormed smallLayout chainFs tripleNode := by
  have hblocks : nodeBlocks smallLayout chainFs tripleNode = [9, 10, 11, 12] := by decide +kernel
  refine ⟨smallFs_ready _, by rw [hblocks]; decide, fun n hn => ?_⟩
  rw [hblocks] at hn
  have hrange : ∀ n ∈ [9, 10, 11, 12], 4 ≤ n ∧ n < 16 := by decide
  exact smallFs_held _ (hrange n hn).1 (hrange n hn).2

theorem setBmap_eq {L : Layout} {w : PtrWrites} {e : ℕ → LevelEnv} {s s' : Fs} {node : ℕ → ℕ}
    {i b t d index root' : ℕ} {rc : Bool} (hi : i < L.maxFileBlocks)
    (hplace : L.place i = (t, d, index))
    (hset : setIndirect L w e b d s (node t) index = (rc, root', s')) :
    setBmap L w e s node i b = (rc, update node t root', s') := by
  rw [setBmap, if_neg (not_le.mpr hi), hplace]
  dsimp only
  rw [hset]

/-- The free block still holds pointers, to itself. -/
def staleFs : Fs := smallFs fun n j => if n = 20 ∧ j % 4 = 0 then 20 else 0

theorem emptyNode_wellFormed : WellFormed smallLayout staleFs fun _ => 0 := by
  have hblocks : nodeBlocks smallLayout staleFs (fun _ => 0) = [] := rfl
  refine ⟨smallFs_ready _, by rw [hblocks]; exact nodup_nil, fun n hn => ?_⟩
  exact absurd hn not_mem_nil

section

variable {w : PtrWrites}

/-- A new pointer block that was not cleared is in the tree as soon as it is the root, here because
there is no buffer to go on with. -/
theorem setBmap_unzeroed {i t d index : ℕ} (hz : w.zero (d + 1) = false)
    (hi : i < smallLayout.maxFileBlocks) (hplace : smallLayout.place i = (t, d + 1, index)) :
    setBmap smallLayout w (fun _ => plainEnv false) staleFs (fun _ => 0) i 10 =
      (false, update (fun _ => 0) t 20,
        (allocBlock smallLayout (plainEnv false).alloc false staleFs).2) := by
  have hnew : (allocBlock smallLayout (plainEnv false).alloc false staleFs).1 = 20 := by
    decide
  refine setBmap_eq hi hplace ?_
  rw [setIndirect_of_null (by decide), hz]
  dsimp only
  rw [hnew, if_neg (by decide), setIndirect_of_root (by decide), if_pos (.inl rfl)]

/-- The map then has entries that nobody stored. -/
theorem not_bmapLaws_of_unzeroed {i t d index : ℕ} (hz : w.zero (d + 1) = false)
    (hi : i < smallLayout.maxFileBlocks) (hplace : smallLayout.place i = (t, d + 1, index))
    (hchanged : (bmap smallLayout (fun _ => true)
        (allocBlock smallLayout (plainEnv false).alloc false staleFs).2
        (update (fun _ => 0) t 20) i).1 ≠
      (bmap smallLayout (fun _ => true) staleFs (fun _ => 0) i).1) :
    ¬BmapLaws smallLayout w (fun _ => plainEnv false) staleFs (fun _ => 0) i 10 := by
  intro h
  have hset := setBmap_unzeroed hz hi hplace
  have hsame := h.2 (congrArg Prod.fst hset) i
  rw [hset] at hsame
  exact hchanged hsame

theorem storePtrBlock_true {L : Layout} {x : LevelEnv} {s : Fs} {root b : ℕ} {buf : Block}
    (hb : b ≠ 0) : storePtrBlock L true x s root buf b = (true, root, s.written root buf) := by
  rw [storePtrBlock, if_neg (by decide)]
  exact if_neg fun h => hb h.1

/-- The volume after the leaf of the chain was stored. -/
def leafFs : Fs := chainFs.written 11 (setEntry (chainFs.block 11) 0 13)

variable (h1 : w.ptr 1 = true)

include h1

theorem setIndirect_leaf :
    setIndirect smallLayout w (fun _ => plainEnv true) 13 1 chainFs 11 0 = (true, 11, leafFs) := by
  change storePtrBlock smallLayout (w.ptr 1) _ _ _ _ _ = _
  rw [h1]
  exact storePtrBlock_true (by decide)

/-- The level above the leaf, as the device takes its store or not. -/
theorem setIndirect_double :
    setIndirect smallLayout w (fun _ => plainEnv true) 13 2 chainFs 10 0 =
      storePtrBlock smallLayout (w.ptr 2) (plainEnv true) leafFs 10
        (setEntry (chainFs.block 10) 0 11) 13 := by
  have hchild : entry (chainFs.block 10) (0 / smallLayout.ptrs ^ 1) = 11 := by decide
  rw [setIndirect_of_root (by decide), if_neg (by decide), hchild, Nat.zero_mod, Nat.zero_div]
  rw [setIndirect_leaf h1, if_neg (by decide)]

/-- The root of the tree of depth three, when the two levels below were stored. -/
theorem setIndirect_triple (h2 : w.ptr 2 = true) :
    setIndirect smallLayout w (fun _ => plainEnv true) 13 3 chainFs 9 0 =
      storePtrBlock smallLayout (w.ptr 3) (plainEnv true)
        (leafFs.written 10 (setEntry (chainFs.block 10) 0 11)) 9
        (setEntry (chainFs.block 9) 0 10) 13 := by
  have hchild : entry (chainFs.block 9) (0 / smallLayout.ptrs ^ 2) = 10 := by decide
  rw [setIndirect_of_root (by decide), if_neg (by decide), hchild, Nat.zero_mod, Nat.zero_div]
  rw [setIndirect_double h1, h2, storePtrBlock_true (by decide), if_neg (by decide)]

/-- The second level fails after the leaf was stored. -/
theorem not_bmapLaws_double (h2 : w.ptr 2 = false) :
    ¬BmapLaws smallLayout w (fun _ => plainEnv true) chainFs doubleNode 268 13 := by
  intro h
  have hset : setBmap smallLayout w (fun _ => plainEnv true) chainFs doubleNode 268 13 =
      (false, update doubleNode 13 10, leafFs) := by
    refine setBmap_eq (by decide) rfl ((setIndirect_double h1).trans ?_)
    rw [h2]
    rfl
  have hsame := h.2 (congrArg Prod.fst hset) 268
  rw [hset] at hsame
  revert hsame
  decide

/-- The third level fails after the two below were stored. -/
theorem not_bmapLaws_triple (h2 : w.ptr 2 = true) (h3 : w.ptr 3 = false) :
    ¬BmapLaws smallLayout w (fun _ => plainEnv true) chainFs tripleNode 65804 13 := by
  intro h
  have hset : setBmap smallLayout w (fun _ => plainEnv true) chainFs tripleNode 65804 13 =
      (false, update tripleNode 14 9, leafFs.written 10 (setEntry (chainFs.block 10) 0 11)) := by
    refine setBmap_eq (by decide) rfl ((setIndirect_triple h1 h2).trans ?_)
    rw [h3]
    rfl
  have hsame := h.2 (congrArg Prod.fst hset) 65804
  rw [hset] at hsame
  revert hsame
  decide

omit h1

/-- The devices under which the block map of every file obeys its laws, whatever else fails, are
those that clear each new pointer block and take the upper stores after the lowest. -/
theorem bmapLaws_iff (w : PtrWrites) :
    (∀ L s node e i b, WellFormed L s node → i < L.maxFileBlocks → (b = 0 ∨ L.BlockValid b) →
      BmapLaws L w e s node i b) ↔ w.Orderly := by
  refine ⟨fun h => ⟨fun d hd hd3 => ?_, fun d hd hd3 h1 => ?_⟩,
    fun hw L s node e i b hwf hi hb => bmapLaws_of_orderly hw hwf hi hb⟩
  · by_contra hz
    have hlaws := fun i hi => h smallLayout staleFs (fun _ => 0) (fun _ => plainEnv false) i 10
      emptyNode_wellFormed hi (.inr (by decide))
    obtain rfl | rfl | rfl : d = 0 + 1 ∨ d = 1 + 1 ∨ d = 2 + 1 := by omega
    · exact not_bmapLaws_of_unzeroed (Bool.eq_false_iff.mpr hz) (by decide) rfl
        (by decide) (hlaws 12 (by decide))
    · exact not_bmapLaws_of_unzeroed (Bool.eq_false_iff.mpr hz) (by decide) rfl
        (by decide) (hlaws 268 (by decide))
    · exact not_bmapLaws_of_unzeroed (Bool.eq_false_iff.mpr hz) (by decide) rfl
        (by decide) (hlaws 65804 (by decide))
  · have h2 : w.ptr 2 = true := by
      by_contra h2
      exact not_bmapLaws_double h1 (Bool.eq_false_iff.mpr h2) (h _ _ _ _ 268 13
        doubleNode_wellFormed (by decide) (.inr (by decide)))
    have h3 : w.ptr 3 = true := by
      by_contra h3
      exact not_bmapLaws_triple h1 h2 (Bool.eq_false_iff.mpr h3) (h _ _ _ _ 65804 13
        tripleNode_wellFormed (by decide) (.inr (by decide)))
    obtain rfl | rfl | rfl : d = 1 ∨ d = 2 ∨ d = 3 := by omega
    · exact h1
    · exact h2
    · exact h3

/-- With a device that takes every write, the entry of the chain can be replaced. -/
theorem bmapLaws_iff_chain :
    BmapLaws smallLayout ⟨fun _ => true, fun _ => true⟩ (fun _ => plainEnv true) chainFs tripleNode
      65804 13 :=
  (bmapLaws_iff ⟨fun _ => true, fun _ => true⟩).mpr ⟨fun _ _ _ => rfl, fun _ _ _ _ => rfl⟩ _ _ _ _
    _ _ tripleNode_wellFormed (by decide) (.inr (by decide))

/-- The device takes the store of the leaf and refuses the one above it. -/
def onlyLeaf : PtrWrites := ⟨fun _ => true, fun d => d == 1⟩

/-- Block 13 is to replace block 12, two levels down. -/
def failedStore : Bool × (ℕ → ℕ) × Fs :=
  setBmap smallLayout onlyLeaf (fun _ => plainEnv true) chainFs doubleNode 268 13

/-- The call fails, and yet the file block is mapped to block 13. -/
theorem failed_store_remaps :
    WellFormed smallLayout chainFs doubleNode ∧ failedStore.1 = false ∧
      (bmap smallLayout (fun _ => true) chainFs doubleNode 268).1 = 12 ∧
      (bmap smallLayout (fun _ => true) failedStore.2.2 failedStore.2.1 268).1 = 13 ∧
      ¬BmapLaws smallLayout onlyLeaf (fun _ => plainEnv true) chainFs doubleNode 268 13 :=
  ⟨doubleNode_wellFormed, by decide, by decide, by decide, not_bmapLaws_double rfl rfl⟩

end

end RHKernel.Ext2
