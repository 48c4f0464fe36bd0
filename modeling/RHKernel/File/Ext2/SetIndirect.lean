import RHKernel.File.Ext2.Bmap

/-!
# Storing a pointer in a tree

What `ext2_set_indirect` does to the tree it works on is followed level by level. When it succeeds,
one place is mapped anew and the others are as before (`Done`); when it fails, no block that was in
use has changed (`Failed`). Both need the device to take the clearing of every new pointer block,
and the stores of the upper levels once the lowest one has been made (`PtrWrites.Orderly`):
`ext2_set_indirect` writes from the bottom to the top and has no way back.
-/

namespace RHKernel.Ext2

open Function IndexTree List

/-- The volume is in order, and the cache holds pointer blocks that are in use. -/
structure Fs.Ready (L : Layout) (s : Fs) : Prop where
  sane : s.Sane L
  coherent : s.Coherent
  cached : ∀ e ∈ s.ptrCache, e.valid = true → s.Held L e.block

/-- The tree below `root` is in order: distinct blocks, all in use, and every pointer is null or
leads to a block of the volume. -/
structure Fs.Tree (L : Layout) (s : Fs) (d root : ℕ) : Prop where
  nodup : (nodes (s.ptr L) L.ptrs d root).Nodup
  held : ∀ n ∈ nodes (s.ptr L) L.ptrs d root, s.Held L n
  plain : ∀ n ∈ nodes (s.ptr L) L.ptrs d root, ∀ k < L.ptrs, entry (s.block n) k = s.ptr L n k

/-- The device clears every new pointer block, and takes the upper stores after the lowest. -/
structure PtrWrites.Orderly (w : PtrWrites) : Prop where
  zero : ∀ d, 1 ≤ d → d ≤ 3 → w.zero d = true
  ptr : ∀ d, 1 ≤ d → d ≤ 3 → w.ptr 1 = true → w.ptr d = true

/-- `ext2_set_indirect` has succeeded. The last field says what may be taken back should a level
above fail. -/
structure Done (L : Layout) (w : PtrWrites) (b d : ℕ) (s : Fs) (root index root' : ℕ) (s' : Fs) :
    Prop where
  ready : s'.Ready L
  bitmap : ∀ g, (s'.bgd g).blockBitmap = (s.bgd g).blockBitmap
  root_valid : root' = 0 ∨ L.BlockValid root'
  look : ∀ i < L.ptrs ^ d, look (s'.ptr L) L.ptrs d root' i =
    if i = index then b else look (s.ptr L) L.ptrs d root i
  frame : ∀ n, s.Held L n → n ∉ nodes (s.ptr L) L.ptrs d root →
    s'.block n = s.block n ∧ s'.Held L n
  nodes : ∀ n ∈ nodes (s'.ptr L) L.ptrs d root',
    n ∈ nodes (s.ptr L) L.ptrs d root ∨ (L.BlockValid n ∧ ¬s.Used L n)
  quiet : w.ptr 1 = true ∨
    ((d ≤ 2 → ∀ n, s.Held L n → s'.block n = s.block n) ∧ (d = 1 → root = 0 ∧ root' = 0))

/-- `ext2_set_indirect` has failed. -/
structure Failed (L : Layout) (d : ℕ) (s : Fs) (root root' : ℕ) (s' : Fs) : Prop where
  coherent : s'.Coherent
  same : ∀ n, s.Held L n → s'.block n = s.block n
  root : root' = root ∨ root = 0 ∧ L.BlockValid root' ∧
    ∀ i < L.ptrs ^ d, IndexTree.look (s'.ptr L) L.ptrs d root' i = 0

section

variable {L : Layout} {w : PtrWrites} {e : ℕ → LevelEnv} {b d root root' index n m k c : ℕ}
  {s s' s₁ : Fs}
  {buf a : Block}

theorem Layout.BlockValid.lt (h : L.BlockValid n) : n < 2 ^ 32 := h.2.trans L.blocksCount_lt

/-! ### The volume after a step -/

theorem Taken.ready {zeroed : Bool} (ht : Taken L zeroed s n s') (hs : s.Ready L) : s'.Ready L where
  sane := ht.sane hs.sane
  coherent e he hv := by
    rw [ht.cache] at he
    rw [(ht.held (hs.cached e he hv)).2]
    exact hs.coherent e he hv
  cached e he hv := by
    rw [ht.cache] at he
    exact (ht.held (hs.cached e he hv)).1

/-- The volume after a pointer block was written. -/
def Fs.written (s : Fs) (n : ℕ) (buf : Block) : Fs :=
  ptrCacheInvalidate { s with block := update s.block n buf } n

theorem written_block (s : Fs) (n : ℕ) (buf : Block) :
    (s.written n buf).block = update s.block n buf := by
  unfold Fs.written ptrCacheInvalidate
  split_ifs <;> rfl

theorem written_bgd (s : Fs) (n : ℕ) (buf : Block) : (s.written n buf).bgd = s.bgd := by
  unfold Fs.written ptrCacheInvalidate
  split_ifs <;> rfl

theorem written_used (hn : s.Held L n) (hm : L.BlockValid m) :
    (s.written n buf).Used L m ↔ s.Used L m := by
  rw [Fs.Used, written_block, written_bgd,
    update_of_ne (hn.plain _ (Layout.groupOf_lt hm)).symm, Fs.Used]

theorem written_held (hn : s.Held L n) : (s.written n buf).Held L m ↔ s.Held L m := by
  refine ⟨fun h => ⟨h.valid, (written_used hn h.valid).mp h.used, ?_⟩,
    fun h => ⟨h.valid, (written_used hn h.valid).mpr h.used, ?_⟩⟩
  · have := h.plain
    rwa [written_bgd] at this
  · rw [written_bgd]
    exact h.plain

/-- A cache entry that survives the write is an old one for another block. -/
theorem written_cache (hn : n ≠ 0) {e : PtrEntry} (he : e ∈ (s.written n buf).ptrCache)
    (hv : e.valid = true) : e ∈ s.ptrCache ∧ e.block ≠ n := by
  unfold Fs.written ptrCacheInvalidate at he
  rw [if_neg hn] at he
  obtain ⟨f, hf, rfl⟩ := mem_map.mp he
  by_cases hfn : f.block = n
  · rw [if_pos hfn] at hv
    exact absurd hv Bool.false_ne_true
  · rw [if_neg hfn]
    exact ⟨hf, hfn⟩

theorem written_ready (hs : s.Ready L) (hn : s.Held L n) (hn0 : n ≠ 0) :
    (s.written n buf).Ready L where
  sane := hs.sane.mono (fun g => by rw [written_bgd]) fun m hm _ => (written_used hn hm).mpr
  coherent e he hv := by
    obtain ⟨hmem, hne⟩ := written_cache hn0 he hv
    rw [written_block, update_of_ne hne]
    exact hs.coherent e hmem hv
  cached e he hv := (written_held hn).mpr (hs.cached e (written_cache hn0 he hv).1 hv)

theorem Freed.ready (hf : Freed L s n s') (hs : s.Ready L) (hn : s.Held L n) (hn0 : n ≠ 0)
    (hcache : ∀ e ∈ s.ptrCache, e.valid = true → e.block ≠ n) : s'.Ready L where
  sane := hf.sane hs.sane hn hn0
  coherent e he hv := by
    rw [hf.cache] at he
    rw [hf.others _ (hs.cached e he hv).plain]
    exact hs.coherent e he hv
  cached e he hv := by
    rw [hf.cache] at he
    exact hf.held (hs.cached e he hv) (hcache e he hv)

/-! ### One level of `ext2_set_indirect` -/

theorem Fs.Tree.child (ht : s.Tree L (d + 1) root) (h0 : root ≠ 0) (hk : k < L.ptrs) :
    s.Tree L d (s.ptr L root k) where
  nodup := (nodup_succ h0 ht.nodup).2.1 k hk
  held n hn := ht.held n (mem_nodes_of_child h0 hk hn)
  plain n hn := ht.plain n (mem_nodes_of_child h0 hk hn)

theorem written_ptr_self (hc : c = 0 ∨ L.BlockValid c) (j : ℕ) :
    (s.written n (setEntry a k c)).ptr L n j = if j = k then c else L.checked (entry a j) := by
  have hlt : c < 2 ^ 32 := by
    rcases hc with rfl | hc
    · exact Nat.two_pow_pos 32
    · exact hc.lt
  rw [Fs.ptr, written_block, update_self, entry_setEntry a hlt]
  split_ifs
  · exact Layout.checked_of_valid hc
  · rfl

theorem written_ptr_of_ne (h : m ≠ n) (k : ℕ) : (s.written n buf).ptr L m k = s.ptr L m k :=
  ptr_congr (by rw [written_block, update_of_ne h]) k

/-- The level above one that succeeded, once its pointer block is written. -/
theorem Done.store (hc : Done L w b d s (s.ptr L root (index / L.ptrs ^ d)) (index % L.ptrs ^ d)
    root' s') (hwrite : w.ptr (d + 1) = true) (ht : s.Tree L (d + 1) root) (h0 : root ≠ 0)
    (hvalid : L.BlockValid root) (hindex : index < L.ptrs ^ (d + 1)) :
    Done L w b (d + 1) s root index root
      (s'.written root (setEntry (s.block root) (index / L.ptrs ^ d) root')) := by
  have hslot := digit_lt hindex
  obtain ⟨hself, -, hpair⟩ := nodup_succ h0 ht.nodup
  have hheld := ht.held root (self_mem_nodes h0)
  have hheld' := (hc.frame root hheld (hself _ hslot)).2
  generalize hbuf : setEntry (s.block root) (index / L.ptrs ^ d) root' = buf
  have hptr : ∀ k < L.ptrs, (s'.written root buf).ptr L root k =
      if k = index / L.ptrs ^ d then root' else s.ptr L root k := fun k _ =>
    hbuf ▸ written_ptr_self hc.root_valid k
  -- the subtree that was worked on does not contain the block above it
  have hnot : root ∉ IndexTree.nodes (s'.ptr L) L.ptrs d root' := fun h =>
    (hc.nodes root h).elim (hself _ hslot) fun h => h.2 hheld.used
  have hbelow : ∀ m ∈ IndexTree.nodes (s'.ptr L) L.ptrs d root', ∀ k < L.ptrs,
      (s'.written root buf).ptr L m k = s'.ptr L m k := fun m hm k _ =>
    written_ptr_of_ne (fun h : m = root => hnot (h ▸ hm)) k
  have hbeside : ∀ k < L.ptrs, k ≠ index / L.ptrs ^ d →
      ∀ m ∈ IndexTree.nodes (s.ptr L) L.ptrs d (s.ptr L root k), ∀ j < L.ptrs,
      (s'.written root buf).ptr L m j = s.ptr L m j := by
    intro k hk hne m hm j _
    have hmheld := ht.held m (mem_nodes_of_child h0 hk hm)
    rw [written_ptr_of_ne fun h : m = root => hself k hk (h ▸ hm)]
    exact ptr_congr (hc.frame m hmheld (hpair k hk _ hslot hne m hm)).1 j
  refine ⟨written_ready hc.ready hheld' h0, fun g => by rw [written_bgd, hc.bitmap], .inr hvalid,
    ?_, ?_, ?_, ?_⟩
  · intro i hi
    rw [look_store h0 hptr hbeside hi, look_congr hbelow (rest_lt hi), hc.look _ (rest_lt hi)]
    by_cases hdigit : i / L.ptrs ^ d = index / L.ptrs ^ d
    · rw [if_pos hdigit]
      by_cases hrest : i % L.ptrs ^ d = index % L.ptrs ^ d
      · rw [if_pos hrest, if_pos (eq_iff_digit_rest.mpr ⟨hdigit, hrest⟩)]
      · rw [if_neg hrest, if_neg fun h => hrest (by rw [h]), look_succ h0, hdigit]
    · rw [if_neg hdigit, if_neg fun h => hdigit (by rw [h])]
  · intro n hn hmem
    obtain ⟨hblock, hheldn⟩ := hc.frame n hn fun h => hmem (mem_nodes_of_child h0 hslot h)
    refine ⟨?_, (written_held hheld').mpr hheldn⟩
    have hne : n ≠ root := by
      rintro rfl
      exact hmem (self_mem_nodes h0)
    rw [written_block, update_of_ne hne, hblock]
  · intro n hn
    obtain ⟨-, rfl | ⟨k, hk, hn⟩⟩ := mem_nodes_succ.mp hn
    · exact .inl (self_mem_nodes h0)
    rw [hptr k hk] at hn
    split_ifs at hn with hkslot
    · rw [nodes_congr hbelow] at hn
      exact (hc.nodes n hn).imp_left (mem_nodes_of_child h0 hslot)
    · rw [nodes_congr (hbeside k hk hkslot)] at hn
      exact .inl (mem_nodes_of_child h0 hk hn)
  · rcases hc.quiet with h1 | ⟨hblocks, hroot⟩
    · exact .inl h1
    rcases eq_zero_or_pos d with rfl | hd
    · exact .inl hwrite
    refine .inr ⟨fun hd2 n hn => ?_, fun h => absurd h (by omega)⟩
    -- at the second level the pointer stored is the one that was there
    have hd1 : d = 1 := by omega
    rw [written_block]
    by_cases hnr : n = root
    · rw [hnr, update_self, ← hbuf, (hroot hd1).2, ← (hroot hd1).1,
        ← ht.plain root (self_mem_nodes h0) _ hslot]
      exact LittleEndian.wr_rd _ _ 4
    · rw [update_of_ne hnr]
      exact hblocks (by omega) n hn

theorem Done.free (hc : Done L w 0 (d + 1) s root index root s') (hwrite : w.ptr (d + 1) = true)
    (h0 : root ≠ 0) (hheld' : s'.Held L root)
    (hcache : ∀ x ∈ s'.ptrCache, x.valid = true → x.block ≠ root)
    (hempty : ∀ k < L.ptrs, entry (s'.block root) k = 0) (f : FreeEnv) :
    Done L w 0 (d + 1) s root index 0 (freeBlock L f s' root) := by
  have hf := freeBlock_spec hc.ready.sane f root
  refine ⟨hf.ready hc.ready hheld' h0 hcache, fun g => by rw [hf.bitmap, hc.bitmap], .inl rfl,
    ?_, ?_, ?_, ?_⟩
  · intro i hi
    have hnull : s'.ptr L root (i / L.ptrs ^ d) = 0 := by
      rw [Fs.ptr, hempty _ (digit_lt hi)]
      exact Layout.checked_of_valid (.inl rfl)
    have hlook := hc.look i hi
    rw [look_succ h0, hnull, look_null] at hlook
    rw [look_null, ← hlook]
  · intro n hn hmem
    obtain ⟨hblock, hheldn⟩ := hc.frame n hn hmem
    refine ⟨(hf.others n hheldn.plain).trans hblock, hf.held hheldn fun h => hmem ?_⟩
    rw [h]
    exact self_mem_nodes h0
  · intro n hn
    exact absurd hn not_mem_nil
  · rcases hc.quiet with h1 | ⟨hblocks, -⟩
    · exact .inl h1
    rcases eq_zero_or_pos d with rfl | hd
    · exact .inl hwrite
    · refine .inr ⟨fun hd2 n hn => ?_, fun h => absurd h (by omega)⟩
      rw [hf.others n fun g hg => hc.bitmap g ▸ hn.plain g hg]
      exact hblocks hd2 n hn

/-- The end of a level that has its block: the pointer block is written, and the level succeeds
unless the write fails. -/
theorem storePtrBlock_spec {x : LevelEnv} (hw : w.Orderly) (hd : d + 1 ≤ 3)
    (hc : Done L w b d s (s.ptr L root (index / L.ptrs ^ d)) (index % L.ptrs ^ d) root' s')
    (ht : s.Tree L (d + 1) root) (h0 : root ≠ 0) (hindex : index < L.ptrs ^ (d + 1)) :
    let r := storePtrBlock L (w.ptr (d + 1)) x s' root
      (setEntry (s.block root) (index / L.ptrs ^ d) root') b
    (r.1 = true ∧ Done L w b (d + 1) s root index r.2.1 r.2.2) ∨
      (r.1 = false ∧ r.2.1 = root ∧ Failed L (d + 1) s root r.2.1 r.2.2) := by
  set buf := setEntry (s.block root) (index / L.ptrs ^ d) root'
  intro r
  have hheld := ht.held root (self_mem_nodes h0)
  have hslot := digit_lt hindex
  have hheld' := (hc.frame root hheld ((nodup_succ h0 ht.nodup).1 _ hslot)).2
  by_cases hwrite : w.ptr (d + 1) = true
  · have hdone := hc.store hwrite ht h0 hheld.valid hindex
    have hr : r = if b = 0 ∧ ptrBlockEmpty L x (s'.written root buf) root then
        (true, 0, freeBlock L x.free (s'.written root buf) root)
        else (true, root, s'.written root buf) :=
      if_neg fun h => Bool.false_ne_true (h.symm.trans hwrite)
    rw [hr]
    split_ifs with hempty
    · obtain ⟨rfl, hempty⟩ := hempty
      rw [ptrBlockEmpty, Bool.and_eq_true, all_eq_true] at hempty
      refine .inl ⟨rfl, hdone.free hwrite h0 ((written_held hheld').mpr hheld')
        (fun y hy hv => (written_cache h0 hy hv).2) (fun k hk => ?_) x.free⟩
      exact beq_iff_eq.mp (hempty.2 k (List.mem_range.mpr hk))
    · exact .inl ⟨rfl, hdone⟩
  · have hr : r = (false, root, s') := if_pos (Bool.eq_false_iff.mpr hwrite)
    rw [hr]
    refine .inr ⟨rfl, rfl, hc.ready.coherent, fun n hn => ?_, .inl rfl⟩
    rcases hc.quiet with h1 | ⟨hblocks, -⟩
    · exact absurd (hw.ptr (d + 1) (by omega) hd h1) hwrite
    · exact hblocks (by omega) n hn

theorem Done.refl_null (hs : s.Ready L) (w : PtrWrites) (d index : ℕ) :
    Done L w 0 (d + 1) s 0 index 0 s where
  ready := hs
  bitmap _ := rfl
  root_valid := .inl rfl
  look i _ := by rw [look_null, ite_self]
  frame n hn _ := ⟨rfl, hn⟩
  nodes n hn := .inl hn
  quiet := .inr ⟨fun _ _ _ => rfl, fun _ => ⟨rfl, rfl⟩⟩

/-- The tree below a block that was just taken and cleared. -/
theorem Taken.tree (ht : Taken L true s n s') (hs : s.Sane L) (d : ℕ) :
    s'.Tree L (d + 1) n ∧ nodes (s'.ptr L) L.ptrs (d + 1) n = [n] := by
  have hptr : ∀ k, s'.ptr L n k = 0 := fun k => by
    rw [Fs.ptr, ht.self, if_pos rfl, entry_zero]
    exact Layout.checked_of_valid (.inl rfl)
  have hnodes : nodes (s'.ptr L) L.ptrs (d + 1) n = [n] := by
    rw [IndexTree.nodes, if_neg ht.ne_zero]
    simp only [hptr, nodes_null, flatMap_eq_nil_iff.mpr fun _ _ => rfl]
  refine ⟨⟨?_, ?_, ?_⟩, hnodes⟩
  · rw [hnodes]
    exact nodup_singleton n
  · rw [hnodes]
    rintro m hm
    rw [mem_singleton.mp hm]
    exact ht.held_self hs
  · rw [hnodes]
    rintro m hm k -
    rw [mem_singleton.mp hm, hptr, ht.self, if_pos rfl, entry_zero]

/-- What was done below a block just taken, seen from before. -/
theorem Done.of_taken (ht : Taken L true s n s₁) (hs : s.Ready L)
    (hc : Done L w b (d + 1) s₁ n index root' s') : Done L w b (d + 1) s 0 index root' s' := by
  obtain ⟨-, hnodes⟩ := ht.tree hs.sane d
  have hnot : ∀ m, s.Held L m → m ∉ IndexTree.nodes (s₁.ptr L) L.ptrs (d + 1) n := by
    intro m hm hmem
    rw [hnodes, mem_singleton] at hmem
    exact ht.unused (hmem ▸ hm.used)
  refine ⟨hc.ready, fun g => by rw [hc.bitmap, ht.bitmap], hc.root_valid, ?_, ?_, ?_, ?_⟩
  · intro i hi
    rw [hc.look i hi, look_null, look_succ ht.ne_zero]
    have hnull : s₁.ptr L n (i / L.ptrs ^ d) = 0 := by
      rw [Fs.ptr, ht.self, if_pos rfl, entry_zero]
      exact Layout.checked_of_valid (.inl rfl)
    rw [hnull, look_null]
  · intro m hm _
    obtain ⟨hm1, hblock⟩ := ht.held hm
    obtain ⟨hblock', hm'⟩ := hc.frame m hm1 (hnot m hm)
    exact ⟨hblock'.trans hblock, hm'⟩
  · intro m hm
    refine .inr ?_
    rcases hc.nodes m hm with h | ⟨hvalid, h⟩
    · rw [hnodes, mem_singleton] at h
      exact h ▸ ⟨ht.valid, ht.unused⟩
    · exact ⟨hvalid, fun hused => h ((ht.used m hvalid).mpr (.inl hused))⟩
  · refine hc.quiet.imp_right ?_
    rintro ⟨hblocks, hroot⟩
    refine ⟨fun hd m hm => ?_, fun hd => ?_⟩
    · obtain ⟨hm1, hblock⟩ := ht.held hm
      exact (hblocks hd m hm1).trans hblock
    · exact absurd (hroot hd).1 ht.ne_zero

/-- A level that fails below a block just taken leaves that block empty. -/
theorem Failed.of_taken (ht : Taken L true s n s₁) (hs : s.Ready L)
    (hc : Failed L (d + 1) s₁ n root' s') (hroot : root' = n) : Failed L (d + 1) s 0 root' s' := by
  subst hroot
  refine ⟨hc.coherent, fun m hm => ?_, .inr ⟨rfl, ht.valid, fun i _ => ?_⟩⟩
  · obtain ⟨hm1, hblock⟩ := ht.held hm
    exact (hc.same m hm1).trans hblock
  · have hnull : s'.ptr L root' (i / L.ptrs ^ d) = 0 := by
      rw [ptr_congr (hc.same root' (ht.held_self hs.sane)), Fs.ptr, ht.self, if_pos rfl, entry_zero]
      exact Layout.checked_of_valid (.inl rfl)
    rw [look_succ ht.ne_zero, hnull, look_null]

/-- What `ext2_set_indirect` does with a pointer block at hand. -/
theorem setIndirect_of_root (h0 : root ≠ 0) : setIndirect L w e b (d + 1) s root index =
    if (e (d + 1)).buffer = false ∨ (e (d + 1)).read = false ∨ L.blocksCount ≤ root then
      (false, root, s)
    else
      let child := setIndirect L w e b d s (entry (s.block root) (index / L.ptrs ^ d))
        (index % L.ptrs ^ d)
      if child.1 = false then (false, root, child.2.2)
      else
        storePtrBlock L (w.ptr (d + 1)) (e (d + 1)) child.2.2 root
          (setEntry (s.block root) (index / L.ptrs ^ d) child.2.1) b := by
  rw [setIndirect, if_neg fun h => h0 h.1, if_neg h0]
  simp only [h0, false_or]

/-- What it does where there is none. -/
theorem setIndirect_of_null (hb : b ≠ 0) : setIndirect L w e b (d + 1) s 0 index =
    let new := allocBlock L (e (d + 1)).alloc (w.zero (d + 1)) s
    if new.1 = 0 then (false, 0, new.2) else setIndirect L w e b (d + 1) new.2 new.1 index := by
  rw [setIndirect, if_neg fun h => hb h.2, if_pos rfl]
  generalize allocBlock L (e (d + 1)).alloc (w.zero (d + 1)) s = new
  obtain ⟨n, s₁⟩ := new
  dsimp only
  by_cases hn : n = 0
  · rw [if_pos (.inl hn), if_pos hn, hn]
  · rw [if_neg hn, setIndirect_of_root hn]
    simp only [hn, false_or]

/-- What `ext2_set_indirect` does to the tree it works on. -/
theorem setIndirect_spec (hw : w.Orderly) (hb : b = 0 ∨ L.BlockValid b) (hd : d ≤ 3)
    (hs : s.Ready L) (ht : s.Tree L d root) (hindex : index < L.ptrs ^ d) :
    let r := setIndirect L w e b d s root index
    (r.1 = true ∧ Done L w b d s root index r.2.1 r.2.2) ∨
      (r.1 = false ∧ Failed L d s root r.2.1 r.2.2) := by
  induction d generalizing s root index with
  | zero =>
    refine .inl ⟨rfl, hs, fun _ => rfl, hb, fun i hi => ?_, fun n hn _ => ⟨rfl, hn⟩,
      fun n hn => .inl hn, .inr ⟨fun _ _ _ => rfl, fun h => absurd h (by omega)⟩⟩
    rw [Nat.pow_zero] at hi hindex
    rw [if_pos (by omega)]
    rfl
  | succ d ih =>
    -- with a pointer block at hand
    have level : ∀ {s : Fs} {root : ℕ}, s.Ready L → s.Tree L (d + 1) root → root ≠ 0 →
        let r := setIndirect L w e b (d + 1) s root index
        (r.1 = true ∧ Done L w b (d + 1) s root index r.2.1 r.2.2) ∨
          (r.1 = false ∧ r.2.1 = root ∧ Failed L (d + 1) s root r.2.1 r.2.2) := by
      intro s root hs ht h0 r
      have hslot := digit_lt hindex
      have hchild := ht.plain root (self_mem_nodes h0) _ hslot
      have hr : r = _ := setIndirect_of_root h0
      rw [hr]
      split_ifs with hbad
      · exact .inr ⟨rfl, rfl, hs.coherent, fun _ _ => rfl, .inl rfl⟩
      have hrec := ih (by omega) hs (ht.child h0 hslot) (rest_lt hindex)
      rw [hchild]
      rcases hrec with ⟨hrc, hdone⟩ | ⟨hrc, hfail⟩
      · rw [if_neg fun h => Bool.false_ne_true (h.symm.trans hrc)]
        exact storePtrBlock_spec hw hd hdone ht h0 hindex
      · rw [if_pos hrc]
        exact .inr ⟨rfl, rfl, hfail.coherent, hfail.same, .inl rfl⟩
    by_cases h0 : root = 0
    · subst h0
      by_cases hb0 : b = 0
      · rw [setIndirect, if_pos ⟨rfl, hb0⟩, hb0]
        exact .inl ⟨rfl, Done.refl_null hs w d index⟩
      rw [setIndirect_of_null hb0]
      have halloc := allocBlock_spec hs.sane (e (d + 1)).alloc (w.zero (d + 1))
      generalize allocBlock L (e (d + 1)).alloc (w.zero (d + 1)) s = new at halloc ⊢
      rw [hw.zero (d + 1) (by omega) hd] at halloc
      rcases halloc with rfl | htaken
      · exact .inr ⟨rfl, hs.coherent, fun _ _ => rfl, .inl rfl⟩
      rw [if_neg htaken.ne_zero]
      rcases level (htaken.ready hs) (htaken.tree hs.sane d).1 htaken.ne_zero with
        ⟨hrc, hdone⟩ | ⟨hrc, hroot, hfail⟩
      · exact .inl ⟨hrc, hdone.of_taken htaken hs⟩
      · exact .inr ⟨hrc, hfail.of_taken htaken hs hroot⟩
    · exact (level hs ht h0).imp_right fun h => ⟨h.1, h.2.2⟩

end

end RHKernel.Ext2
