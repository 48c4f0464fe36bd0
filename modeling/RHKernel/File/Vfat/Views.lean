import RHKernel.File.Vfat.Chain
import RHKernel.Lib.Contents

/-!
# What a node shows of its file

`Sees` says what the bytes of a file are when it is looked at through a node. A read returns these
bytes, and a write and a truncation change them as they should and leave the directory entry in
agreement with the node. The bytes between the old end of a file and a write or truncation behind
it are those that the clusters held: zeros, as they should be, only if the file is `Clear` there.
-/

namespace RHKernel.Vfat

open Function List

variable {v : Volume} {d d' : Disk} {n n' : Node} {f f' : Contents} {l l' : List ℕ}

/-- Through the node, whose chain is `l`, the file looks like `f`. -/
structure Shows (v : Volume) (d : Disk) (n : Node) (f : Contents) (l : List ℕ) : Prop where
  chain : Chain v d n.firstCluster l
  fits : n.size ≤ room v l
  size_eq : f.size = n.size
  byte : ∀ p < n.size, f.byte p = byteAt v d l p

/-- Through the node the file looks like `f`. -/
def Sees (v : Volume) (d : Disk) (n : Node) (f : Contents) : Prop := ∃ l, Shows v d n f l

/-- The first `size` bytes of a chain. -/
def contentsOf (v : Volume) (d : Disk) (l : List ℕ) (size : ℕ) : Contents where
  size := size
  byte p := if p < size then byteAt v d l p else 0
  zero _ hp := if_neg (Nat.not_lt.mpr hp)

theorem shows_contentsOf {first size : ℕ} (h : Chain v d first l) (hroom : size ≤ room v l) :
    Shows v d ⟨first, size⟩ (contentsOf v d l size) l :=
  ⟨h, hroom, rfl, fun _ hp => if_pos hp⟩

/-- What is left of a write if the bytes in the gap behind the old end do not count. -/
def WriteOf (f : Contents) (off : ℕ) (buf : List UInt8) (k : ℕ) (f' : Contents) : Prop :=
  k ≤ buf.length ∧
    if k = 0 then f' = f
    else f'.size = (f.write off k fun j => buf.getD j 0).size ∧
      ∀ p, p < f.size ∨ off ≤ p → f'.byte p = (f.write off k fun j => buf.getD j 0).byte p

theorem writeOf_zero (f : Contents) (off : ℕ) (buf : List UInt8) : WriteOf f off buf 0 f :=
  ⟨Nat.zero_le _, rfl⟩

/-- What a write of `k` bytes should do. -/
def putBuf (f : Contents) (off : ℕ) (buf : List UInt8) (k : ℕ) : Contents :=
  if k = 0 then f else f.write off k fun j => buf.getD j 0

theorem WriteOf.eq_putBuf {off k : ℕ} {buf : List UInt8} (h : WriteOf f off buf k f')
    (hgap : k ≠ 0 → ∀ p, f.size ≤ p → p < off → f'.byte p = 0) : f' = putBuf f off buf k := by
  unfold putBuf
  by_cases hk : k = 0
  · rw [if_pos hk]
    simpa only [if_pos hk] using h.2
  obtain ⟨hsize, hbyte⟩ : _ ∧ _ := by simpa only [if_neg hk] using h.2
  rw [if_neg hk]
  refine Contents.ext hsize (funext fun p => ?_)
  by_cases hp : p < f.size ∨ off ≤ p
  · exact hbyte p hp
  · rw [not_or, not_lt, not_le] at hp
    rw [hgap hk p hp.1 hp.2]
    exact ((if_neg fun hc => absurd hc.1 (not_le.mpr hp.2)).trans (f.zero p hp.1)).symm

/-- The same for a truncation. -/
def TruncateOf (f : Contents) (size : ℕ) (f' : Contents) : Prop :=
  f'.size = size ∧ ∀ p < f.size, f'.byte p = (f.truncate size).byte p

theorem TruncateOf.eq_truncate {size : ℕ} (h : TruncateOf f size f')
    (hgap : ∀ p, f.size ≤ p → p < size → f'.byte p = 0) : f' = f.truncate size := by
  refine Contents.ext h.1 (funext fun p => ?_)
  by_cases hp : p < f.size
  · exact h.2 p hp
  · rw [not_lt] at hp
    have hzero : f'.byte p = 0 := by
      by_cases hlt : p < size
      · exact hgap p hp hlt
      · exact f'.zero p (h.1.symm ▸ not_lt.mp hlt)
    rw [hzero]
    exact ((ite_eq_right_iff.mpr fun _ => f.zero p hp)).symm

/-- The clusters of a file hold zeros from its end up to `stop`. -/
def Clear (v : Volume) (d : Disk) (n : Node) (stop : ℕ) : Prop :=
  ∀ l, Chain v d n.firstCluster l → ∀ p, n.size ≤ p → p < stop → p < room v l → byteAt v d l p = 0

/-- The entry describes what a node shows. -/
def Described (d : Disk) (n : Node) : Prop :=
  d.entrySize = n.size ∧ (d.entryFirst = n.firstCluster ∨ d.entryFirst = 0 ∧ n.size = 0)

/-- The entry has the size and the first cluster of the node. -/
def Entered (d : Disk) (n : Node) : Prop := d.entrySize = n.size ∧ d.entryFirst = n.firstCluster

theorem Described.sees (h : Described d n) (hs : Sees v d n f) :
    Sees v d ⟨d.entryFirst, d.entrySize⟩ f := by
  obtain ⟨l, hs⟩ := hs
  rcases h with ⟨h1, h2 | ⟨h2, h3⟩⟩
  · rw [h1, h2]
    exact ⟨l, hs.chain, hs.fits, hs.size_eq, hs.byte⟩
  · rw [h1, h2, h3]
    exact ⟨[], ⟨trivial, nodup_nil, rfl⟩, Nat.zero_le _, hs.size_eq.trans h3,
      fun p hp => absurd hp (Nat.not_lt_zero p)⟩

/-! ### A longer chain -/

theorem Shows.size_eq_zero (h : Shows v d n f []) : n.size = 0 := by
  have hfits := h.fits
  rw [room, length_nil, Nat.zero_mul] at hfits
  omega

theorem headD_append_eq (h : l <+: l') (hl : l ≠ []) : l'.headD 0 = l.headD 0 := by
  obtain ⟨t, rfl⟩ := h
  cases l with
  | nil => exact absurd rfl hl
  | cons c l => rfl

theorem Shows.grown (h : Shows v d n f l) (hg : Grown v d d' l l') :
    Shows v d' ⟨l'.headD 0, n.size⟩ f l' :=
  ⟨hg.chain, h.fits.trans (room_mono hg.isPrefix), h.size_eq,
    fun p hp => (h.byte p hp).trans (hg.byteAt (lt_of_lt_of_le hp h.fits)).symm⟩

theorem Shows.clear (h : Shows v d n f l) (hg : Grown v d d' l l') {stop p : ℕ}
    (hclear : Clear v d n stop) (hp : f.size ≤ p) (hstop : p < stop) (hroom : p < room v l') :
    byteAt v d' l' p = 0 := by
  by_cases hlt : p < room v l
  · rw [hg.byteAt hlt]
    exact hclear l h.chain p (h.size_eq ▸ hp) hstop hlt
  · exact hg.byteAt_eq_zero (not_lt.mp hlt) hroom

/-- A first cluster that the entry does not know belongs to an empty file. -/
theorem Shows.described (h : Shows v d n f l) (hd : Described d n) (hl : l <+: l')
    (hentry : d'.entryFirst = d.entryFirst ∧ d'.entrySize = d.entrySize) :
    Described d' ⟨l'.headD 0, n.size⟩ := by
  refine ⟨hentry.2.trans hd.1, ?_⟩
  rw [hentry.1]
  obtain rfl | hne := eq_or_ne l []
  · have hzero := h.chain.first_eq
    rcases hd.2 with h2 | h2
    · exact Or.inr ⟨h2.trans hzero, h.size_eq_zero⟩
    · exact Or.inr h2
  · simp only
    rw [headD_append_eq hl hne, ← h.chain.first_eq]
    exact hd.2

/-! ### Reading and writing -/

/-- **`vfat_read`** returns the bytes that there are. -/
theorem vfatRead_eq (h : Sees v d n f) (off size : ℕ) :
    vfatRead v d n off size = (List.range (f.count off size)).map fun k => f.byte (off + k) := by
  obtain ⟨l, hchain, hroom, hsize, hbyte⟩ := h
  have hpos := v.clusterBytes_pos
  unfold vfatRead Contents.count
  rw [hsize]
  by_cases hoff : n.size ≤ off
  · rw [if_pos hoff, Nat.sub_eq_zero_of_le hoff, min_zero]
    rfl
  rw [if_neg hoff]
  generalize hm : min size (n.size - off) = m
  by_cases h0 : m = 0
  · rw [if_pos h0, h0]
    rfl
  have hne : l ≠ [] := by
    rintro rfl
    rw [room, length_nil, Nat.zero_mul] at hroom
    omega
  have hk : off / v.clusterBytes < l.length := div_lt_of_lt_room (by omega)
  rw [if_neg h0, if_neg (mt hchain.first_eq_zero_iff.mp hne),
    (chainClusterAt_spec hchain _ false).1 hk, getElem?_eq_getElem hk]
  simp only
  have hsplit := Nat.div_add_mod' off v.clusterBytes
  rw [readLoop_spec hchain (getElem?_eq_getElem hk) (Nat.mod_lt _ hpos)
    (by rw [hsplit]; omega) (le_refl m), hsplit]
  refine map_congr_left fun k hk => ?_
  rw [List.mem_range] at hk
  exact (hbyte _ (by omega)).symm

theorem Shows.wrote {off k : ℕ} {buf : List UInt8} (h : Shows v d n f l)
    (hw : Wrote v d d' l l' off k buf) (hk : k ≠ 0) :
    WriteOf f off buf k (contentsOf v d' l' (max n.size (off + k))) := by
  have hn := h.fits
  refine ⟨hw.le, ?_⟩
  rw [if_neg hk]
  refine ⟨congrArg (max · (off + k)) h.size_eq.symm, fun p hp => ?_⟩
  rw [h.size_eq] at hp
  simp only [contentsOf, Contents.write]
  by_cases hin : off ≤ p ∧ p < off + k
  · have hbyte := hw.written (p - off) (by omega)
    rw [Nat.add_sub_cancel' hin.1] at hbyte
    rw [if_pos (by omega), if_pos hin, hbyte]
  · rw [if_neg hin]
    by_cases hlt : p < n.size
    · rw [if_pos (by omega), hw.kept p (by omega) (by omega), h.byte p hlt]
    · rw [if_neg (by omega), f.zero p (by rw [h.size_eq]; omega)]

theorem fatAllocCluster_updateEntry (h : fatAllocCluster v d = none) (n : Node) :
    fatAllocCluster v (updateEntry d n) = none := by
  unfold fatAllocCluster fatScanFreeRange updateEntry at *
  grind

/-- **`vfat_write`** writes the first bytes of the buffer, as many as it returns. -/
theorem vfatWrite_spec (h : Sees v d n f) (hd : Described d n) (off : ℕ) (buf : List UInt8) :
    ∃ f', WriteOf f off buf (vfatWrite v d n off buf).1 f' ∧
      Sees v (vfatWrite v d n off buf).2.2 (vfatWrite v d n off buf).2.1 f' ∧
      Described (vfatWrite v d n off buf).2.2 (vfatWrite v d n off buf).2.1 ∧
      (Clear v d n off → f' = putBuf f off buf (vfatWrite v d n off buf).1) ∧
      ((vfatWrite v d n off buf).1 ≠ 0 →
        Entered (vfatWrite v d n off buf).2.2 (vfatWrite v d n off buf).2.1) ∧
      ((vfatWrite v d n off buf).1 < buf.length → v.readonly = true ∨ sizeMax < off + buf.length ∨
        fatAllocCluster v (vfatWrite v d n off buf).2.2 = none) := by
  obtain ⟨l, h⟩ := h
  unfold vfatWrite
  split_ifs with href
  · exact ⟨f, writeOf_zero f off buf, ⟨l, h⟩, hd, fun _ => rfl, fun h => absurd rfl h,
      fun _ => href.imp_right fun h => .inl (by omega)⟩
  obtain ⟨-, l1, hg, hn1, hget, hnone⟩ := chainClusterAt_spec h.chain (off / v.clusterBytes) true
  generalize chainClusterAt v d n (off / v.clusterBytes) true = r at hg hn1 hget hnone ⊢
  obtain ⟨o, n1, d1⟩ := r
  obtain rfl := hn1
  have h1 := h.grown hg
  have hd1 := h.described hd hg.isPrefix hg.entry
  obtain _ | c := o
  · exact ⟨f, writeOf_zero f off buf, ⟨l1, h1⟩, hd1, fun _ => rfl, fun h => absurd rfl h,
      fun _ => .inr (.inr (hnone rfl rfl))⟩
  have hc := hget c rfl
  obtain ⟨l2, hw, hfull⟩ := writeLoop_spec h1.chain hc (Nat.mod_lt off v.clusterBytes_pos)
    (le_refl buf.length)
  rw [Nat.div_add_mod'] at hw
  simp only
  generalize writeLoop v buf.length d1 c (off % v.clusterBytes) buf = r at hw hfull ⊢
  obtain ⟨k, d2⟩ := r
  have hhead : l2.headD 0 = l1.headD 0 := headD_append_eq hw.isPrefix fun hnil => by
      rw [hnil, getElem?_nil] at hc
      exact Option.some_ne_none c hc.symm
  have hchain : Chain v d2 (l1.headD 0) l2 := ⟨hw.linked, hw.nodup, hhead.symm⟩
  by_cases hk : k = 0
  · -- Nothing was written: the node has got its clusters, and the entry is left alone.
    subst hk
    rw [if_neg fun hc : 0 ≠ 0 => hc rfl, if_neg fun hc : 0 ≠ 0 ∧ _ => hc.1 rfl]
    refine ⟨f, writeOf_zero f off buf, ⟨l2, hchain, ?_, h1.size_eq, fun p hp => ?_⟩, ?_,
      fun _ => rfl, fun h => absurd rfl h, fun hlt => .inr (.inr (hfull hlt))⟩
    · exact h1.fits.trans (room_mono hw.isPrefix)
    · rw [hw.kept p (lt_of_lt_of_le hp h1.fits) (by omega), h1.byte p hp]
    · have hdesc := h1.described hd1 hw.isPrefix hw.entry
      rwa [hhead] at hdesc
  · have hnode : (if k ≠ 0 ∧ n.size < off + k then (⟨l1.headD 0, off + k⟩ : Node)
        else ⟨l1.headD 0, n.size⟩) = ⟨l1.headD 0, max n.size (off + k)⟩ := by
      split_ifs with hlt
      · rw [max_eq_right hlt.2.le]
      · rw [max_eq_left (Nat.le_of_not_lt fun hc => hlt ⟨hk, hc⟩)]
    rw [hnode, if_pos hk]
    have hfits : max n.size (off + k) ≤ room v l2 :=
      max_le (h1.fits.trans (room_mono hw.isPrefix)) hw.fits
    refine ⟨_, h1.wrote hw hk, ⟨l2, ?_⟩, ⟨rfl, Or.inl rfl⟩, fun hclear => ?_, fun _ => ⟨rfl, rfl⟩,
      fun hlt => .inr (.inr (fatAllocCluster_updateEntry (hfull hlt) _))⟩
    · have hshow := shows_contentsOf hchain hfits
      exact { hshow with chain := hchain.congr fun _ _ => rfl }
    · -- The gap is in the clusters that the chain had when the first byte was written.
      refine (h1.wrote hw hk).eq_putBuf fun _ p hp hoff => ?_
      have hroom : off < room v l1 :=
        (Nat.div_lt_iff_lt_mul v.clusterBytes_pos).mp (List.getElem?_eq_some_iff.mp hc).1
      refine (if_pos (lt_of_lt_of_le hoff ?_)).trans ?_
      · exact (Nat.le_add_right off k).trans (le_max_right _ _)
      · rw [hw.kept p (hoff.trans hroom) (.inl hoff)]
        exact h.clear hg hclear hp hoff (hoff.trans hroom)

/-! ### Truncating -/

/-- `trim_chain` keeps the first clusters of the chain. -/
theorem trimChain_spec {keep : ℕ} (h : Chain v d n.firstCluster l) (hkeep : keep ≤ l.length) :
    (trimChain v d n keep).1 = true ∧ (trimChain v d n keep).2.1.size = n.size ∧
      Chain v (trimChain v d n keep).2.2 (trimChain v d n keep).2.1.firstCluster (l.take keep) ∧
      (trimChain v d n keep).2.2.data = d.data := by
  unfold trimChain
  by_cases h0 : keep = 0
  · rw [if_pos h0, h0, take_zero]
    refine ⟨rfl, rfl, ⟨trivial, nodup_nil, rfl⟩, ?_⟩
    split_ifs with hfirst
    · cases l with
      | nil => exact absurd (h.first_eq_zero_iff.mpr rfl) hfirst
      | cons c l =>
        rw [show n.firstCluster = c from h.first_eq]
        exact (fatFreeChain_spec h.linked h.nodup h.length_le).2.2
    · rfl
  · have hlt : keep - 1 < l.length := by omega
    have hc := getElem?_eq_getElem hlt
    generalize hcdef : l[keep - 1] = c at hc
    have hvalid := h.valid (mem_of_getElem? hc)
    have hnext := h.linked.get hc
    have hsplit : l = l.take (keep - 1) ++ c :: l.drop keep := by
      have hdrop := drop_eq_getElem_cons hlt
      rw [hcdef, Nat.sub_add_cancel (by omega)] at hdrop
      rw [← hdrop, take_append_drop]
    have hnodup := h.nodup
    rw [hsplit, nodup_append, nodup_cons] at hnodup
    obtain ⟨-, ⟨hcdrop, hdrop⟩, hdisj⟩ := hnodup
    rw [Nat.sub_add_cancel (by omega)] at hnext
    have hnot : c ∉ l.take (keep - 1) := fun hm => hdisj c hm c mem_cons_self rfl
    -- The chain ends with the cluster `c`, whatever becomes of those behind it.
    have htake : ∀ d' : Disk, d'.fat c = v.fatType.eocValue →
        (∀ b ∈ l.take (keep - 1), d'.fat b = d.fat b) →
        Chain v d' n.firstCluster (l.take keep) := by
      intro d' hlast hsame
      have hlinked := h.linked.take hc (fatNext_last hvalid hlast)
        fun b hb => fatNext_congr (hsame b hb)
      rw [Nat.sub_add_cancel (by omega)] at hlinked
      refine ⟨hlinked, h.nodup.sublist (take_sublist _ _), ?_⟩
      rw [h.first_eq]
      exact headD_append_eq ( take_prefix _ _) fun hnil => by
        rw [take_eq_nil_iff] at hnil
        rcases hnil with hnil | hnil
        · exact h0 hnil
        · rw [hnil, length_nil] at hlt
          omega
    rw [if_neg h0, (chainClusterAt_spec h _ false).1 hlt, hc]
    simp only
    rw [hnext]
    rcases hb : l[keep]? with _ | b
    · exact ⟨rfl, rfl, htake _ (update_self _ _ _) fun b hb =>
        update_of_ne (fun he : b = c => hnot (he ▸ hb)) _ _, rfl⟩
    have hkeep' := (List.getElem?_eq_some_iff.mp hb).1
    have hcons : l.drop keep = b :: l.drop (keep + 1) := by
      rw [drop_eq_getElem_cons hkeep', (List.getElem?_eq_some_iff.mp hb).2]
    have hrest : Threaded (fatNext v (fatSet d c v.fatType.eocValue)) (b :: l.drop (keep + 1)) := by
      rw [← hcons]
      exact (h.linked.drop keep).congr fun a ha => fatNext_congr
        (update_of_ne (fun he : a = c => hcdrop (he ▸ ha)) _ _)
    have hlen : (b :: l.drop (keep + 1)).length ≤ v.clusterCount := by
      rw [← hcons, length_drop]
      exact (Nat.sub_le _ _).trans h.length_le
    obtain ⟨-, h2, h3⟩ := fatFreeChain_spec hrest (hcons ▸ hdrop) hlen
    rw [← hcons] at h2
    refine ⟨rfl, rfl, htake _ ?_ fun a ha => ?_, h3⟩
    · rw [h2 c hcdrop]
      exact update_self _ _ _
    · rw [h2 a fun hm => hdisj a ha a (mem_cons_of_mem c hm) rfl]
      exact update_of_ne (fun he : a = c => hnot (he ▸ ha)) _ _

theorem size_le_clusters (v : Volume) (size : ℕ) :
    size ≤ (size + v.clusterBytes - 1) / v.clusterBytes * v.clusterBytes := by
  have hpos := v.clusterBytes_pos
  have hsplit := Nat.div_add_mod' (size + v.clusterBytes - 1) v.clusterBytes
  have hmod := Nat.mod_lt (size + v.clusterBytes - 1) hpos
  omega

theorem contentsOf_take {keep size p : ℕ} (hsize : size ≤ keep * v.clusterBytes)
    (hdata : d'.data = d.data) (hp : p < size) :
    (contentsOf v d' (l.take keep) size).byte p = byteAt v d l p := by
  have hk : p / v.clusterBytes < keep := Nat.div_lt_of_lt_mul (by rw [mul_comm]; omega)
  refine (if_pos hp).trans ?_
  rw [byteAt, byteAt, hdata, getD_eq_getElem?_getD, getElem?_take_of_lt hk, ← getD_eq_getElem?_getD]

theorem Shows.trimmed {keep size : ℕ} (h : Shows v d n f l)
    (hsize : size ≤ keep * v.clusterBytes) (hdata : d'.data = d.data) :
    TruncateOf f size (contentsOf v d' (l.take keep) size) := by
  refine ⟨rfl, fun p hp => ?_⟩
  by_cases hlt : p < size
  · rw [contentsOf_take hsize hdata hlt, ← h.byte p (h.size_eq ▸ hp)]
    exact (if_pos hlt).symm
  · exact (if_neg hlt).trans (if_neg hlt).symm

/-- **`vfat_truncate`** gives the file its new size, or leaves it as it is. -/
theorem vfatTruncate_spec (h : Sees v d n f) (hd : Described d n) (size : ℕ) :
    ∃ f', (if (vfatTruncate v d n size).1 = true then TruncateOf f size f' else f' = f) ∧
      Sees v (vfatTruncate v d n size).2.2 (vfatTruncate v d n size).2.1 f' ∧
      Described (vfatTruncate v d n size).2.2 (vfatTruncate v d n size).2.1 ∧
      ((vfatTruncate v d n size).1 = true → (Clear v d n size → f' = f.truncate size) ∧
        Entered (vfatTruncate v d n size).2.2 (vfatTruncate v d n size).2.1) ∧
      ((vfatTruncate v d n size).1 = false → v.readonly = true ∨ sizeMax < size ∨
        fatAllocCluster v (vfatTruncate v d n size).2.2 = none) := by
  obtain ⟨l, h⟩ := h
  unfold vfatTruncate
  by_cases href : v.readonly = true ∨ sizeMax < size
  · rw [if_pos href]
    exact ⟨f, rfl, ⟨l, h⟩, hd, nofun, fun _ => by tauto⟩
  rw [if_neg href]
  simp only
  generalize hneed : (if size ≠ 0 then (size + v.clusterBytes - 1) / v.clusterBytes else 0) = need
  have hsize : size ≤ need * v.clusterBytes := by
    rw [← hneed]
    split_ifs with h0
    · exact size_le_clusters v size
    · omega
  -- The chain is long enough now.
  have hcut : ∀ {d1 : Disk} {n1 : Node} {l1 : List ℕ}, Shows v d1 n1 f l1 → Grown v d d1 l l1 →
      need ≤ l1.length → ∃ f', TruncateOf f size f' ∧ (Clear v d n size → f' = f.truncate size) ∧
        (trimChain v d1 n1 need).1 = true ∧
        Sees v (updateEntry (trimChain v d1 n1 need).2.2
          ⟨(trimChain v d1 n1 need).2.1.firstCluster, size⟩)
          ⟨(trimChain v d1 n1 need).2.1.firstCluster, size⟩ f' := by
    intro d1 n1 l1 h1 hg hlen
    obtain ⟨hok, -, hchain, hdata⟩ := trimChain_spec h1.chain hlen
    have hroom : size ≤ room v (l1.take need) := by
      rw [room, length_take_of_le hlen]
      exact hsize
    have hshow := shows_contentsOf hchain hroom
    have hcut := h1.trimmed hsize hdata
    refine ⟨_, hcut, fun hclear => hcut.eq_truncate fun p hp hlt => ?_, hok, _,
      hchain.congr fun _ _ => rfl, hshow.fits, hshow.size_eq, hshow.byte⟩
    rw [contentsOf_take hsize hdata hlt]
    exact h.clear hg hclear hp hlt (lt_of_lt_of_le (lt_of_lt_of_le hlt hroom)
      (room_mono ( take_prefix _ _)))
  by_cases h0 : need = 0
  · obtain ⟨f', hf', hclear, hok, hsees⟩ := hcut h (.refl h.chain) (by omega)
    rw [if_neg (not_not.mpr h0)]
    generalize trimChain v d n need = r at hok hsees ⊢
    obtain ⟨ok, n2, d2⟩ := r
    obtain rfl : ok = true := hok
    exact ⟨f', hf', hsees, ⟨rfl, Or.inl rfl⟩, fun _ => ⟨hclear, rfl, rfl⟩, nofun⟩
  obtain ⟨-, l1, hg, hn1, hget, hnone⟩ := chainClusterAt_spec h.chain (need - 1) true
  rw [if_pos h0]
  generalize chainClusterAt v d n (need - 1) true = r at hg hn1 hget hnone ⊢
  obtain ⟨o, n1, d1⟩ := r
  obtain rfl := hn1
  cases o with
  | none =>
    exact ⟨f, rfl, ⟨l1, h.grown hg⟩, h.described hd hg.isPrefix hg.entry, nofun,
      fun _ => .inr (.inr (hnone rfl rfl))⟩
  | some c =>
    have hlen := (List.getElem?_eq_some_iff.mp (hget c rfl)).1
    obtain ⟨f', hf', hclear, hok, hsees⟩ := hcut (h.grown hg) hg (by omega)
    generalize trimChain v d1 ⟨l1.headD 0, n.size⟩ need = r at hok hsees ⊢
    obtain ⟨ok, n2, d2⟩ := r
    obtain rfl : ok = true := hok
    exact ⟨f', hf', hsees, ⟨rfl, Or.inl rfl⟩, fun _ => ⟨hclear, rfl, rfl⟩, nofun⟩

end RHKernel.Vfat
