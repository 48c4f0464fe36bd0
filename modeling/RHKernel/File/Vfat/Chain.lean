import RHKernel.File.Vfat.Fat
import Mathlib.Data.List.GetD
import Mathlib.Data.List.Perm.Subperm

/-!
# Chains of clusters

The chain of a file is a list in the table. Every walk of `vfat_next_cluster` stays on it or
continues it by a cluster that is in no file, so that what a file holds does not depend on the
clusters that are added behind it. A write changes the bytes it is for and no others, a truncation
keeps what is left of the file.
-/

namespace RHKernel.Vfat

open Function List Option

variable {v : Volume} {d d' d₁ d₂ d₃ : Disk} {n : Node} {l l' l₁ l₂ l₃ : List ℕ}
  {c x i first p k last j fuel inCluster left off k' t guard : ℕ}
  {buf : List UInt8}

theorem fatNext_congr (h : d'.fat c = d.fat c) : fatNext v d' c = fatNext v d c := by
  unfold fatNext
  rw [h]

theorem valid_of_fatNext (h : fatNext v d c ≠ none) : v.valid c := by
  by_contra hc
  exact h (if_pos hc)

theorem FatType.badValue_lt (t : FatType) : t.badValue < t.eocMin ∧ t.eocMin ≤ t.eocValue := by
  cases t <;> decide

theorem fatNext_free (h : d.fat c = 0) : fatNext v d c = none := by
  have hbad := v.fatType.badValue_lt
  have hcount := v.clusterCount_lt
  unfold fatNext
  by_cases hc : v.valid c
  · rw [if_neg (not_not.mpr hc), if_neg (by omega), if_neg (by omega),
      if_pos fun hv => absurd hv.1 (by omega)]
  · rw [if_pos hc]

theorem fatNext_last (hc : v.valid c) (h : d.fat c = v.fatType.eocValue) :
    fatNext v d c = some none := by
  have hbad := v.fatType.badValue_lt
  unfold fatNext
  rw [h, if_neg (not_not.mpr hc), if_neg (by omega), if_pos hbad.2]

theorem fatNext_to (hc : v.valid c) (h : d.fat c = x) (hx : v.valid x) :
    fatNext v d c = some (some x) := by
  have hbad := v.fatType.badValue_lt
  have hlt := Nat.lt_of_lt_of_le hx.2 v.clusterCount_lt
  unfold fatNext
  rw [h, if_neg (not_not.mpr hc), if_neg (by omega), if_neg (by omega), if_neg (not_not.mpr hx)]

/-! ### Chains -/

/-- The chain of clusters that begins with the cluster `first` of a node, which is zero if there is
none. -/
structure Chain (v : Volume) (d : Disk) (first : ℕ) (l : List ℕ) : Prop where
  linked : Threaded (fatNext v d) l
  nodup : l.Nodup
  first_eq : first = l.headD 0

variable (h : Chain v d first l)

include h

theorem Chain.valid (hc : c ∈ l) : v.valid c := valid_of_fatNext (h.linked.ne_none hc)

theorem Chain.first_eq_zero_iff : first = 0 ↔ l = [] := by
  rw [h.first_eq]
  cases l with
  | nil => exact ⟨fun _ => rfl, fun _ => rfl⟩
  | cons c l =>
    have hc := (h.valid (mem_cons_self)).1
    exact ⟨fun h0 => absurd (show c = 0 from h0) (by omega), fun h0 => absurd h0 (by simp)⟩

theorem Chain.congr (hfat : ∀ c ∈ l, d'.fat c = d.fat c) :
    Chain v d' first l :=
  ⟨h.linked.congr fun c hc => fatNext_congr (hfat c hc), h.nodup, h.first_eq⟩

theorem Chain.length_le : l.length ≤ v.clusterCount := by
  have hsub : l ⊆ List.range' 2 v.clusterCount := fun c hc => by
    have hv := h.valid hc
    rw [mem_range'_1]
    exact ⟨hv.1, by have := hv.2; omega⟩
  have hle := (subperm_of_subset h.nodup hsub).length_le
  rwa [length_range'] at hle

omit h

theorem fatScanFreeRange_spec (h : fatScanFreeRange d first last = some c) :
    first ≤ c ∧ c < last ∧ d.fat c = 0 := by
  have hmem := mem_of_find?_eq_some h
  have hfree := find?_some h
  rw [mem_range'_1] at hmem
  exact ⟨hmem.1, by omega, of_decide_eq_true hfree⟩

/-- What `fat_alloc_cluster` returns is in no file. -/
theorem fatAllocCluster_spec (h : fatAllocCluster v d = some (c, d')) :
    v.valid c ∧ d.fat c = 0 ∧ d'.fat = update d.fat c v.fatType.eocValue ∧
      d'.data = update d.data c (fun _ => 0) ∧
      d'.entryFirst = d.entryFirst ∧ d'.entrySize = d.entrySize := by
  unfold fatAllocCluster at h
  simp only at h
  generalize hstart : (if v.valid d.nextFree then d.nextFree else 2) = start at h
  have hrange : 2 ≤ start ∧ start ≤ v.clusterCount + 2 := by
    rw [← hstart]
    split_ifs with hv
    · exact ⟨hv.1, hv.2.le⟩
    · exact ⟨Nat.le_refl 2, Nat.le_add_left 2 _⟩
  split_ifs at h with h0
  cases hscan : (fatScanFreeRange d start (v.clusterCount + 2)).or
      (fatScanFreeRange d 2 start) with
  | none =>
    rw [hscan] at h
    exact absurd h (some_ne_none _).symm
  | some b =>
    rw [hscan] at h
    obtain ⟨rfl, rfl⟩ := Prod.mk.inj (some.inj h)
    have hb : 2 ≤ b ∧ b < v.clusterCount + 2 ∧ d.fat b = 0 := by
      rcases or_eq_some_iff.mp hscan with h1 | ⟨-, h1⟩
      · obtain ⟨h2, h3⟩ := fatScanFreeRange_spec h1
        exact ⟨hrange.1.trans h2, h3⟩
      · obtain ⟨h2, h3, h4⟩ := fatScanFreeRange_spec h1
        exact ⟨h2, Nat.lt_of_lt_of_le h3 hrange.2, h4⟩
    exact ⟨⟨hb.1, hb.2.1⟩, hb.2.2, rfl, rfl, rfl, rfl⟩

/-! ### Walks -/

/-- The chain has become `l'`: it is continued by cleared clusters, and the bytes of its own are the
same. -/
structure Grown (v : Volume) (d d' : Disk) (l l' : List ℕ) : Prop where
  linked : Threaded (fatNext v d') l'
  nodup : l'.Nodup
  isPrefix : l <+: l'
  data : ∀ c ∈ l, d'.data c = d.data c
  cleared : ∀ c ∈ l', c ∉ l → ∀ j, d'.data c j = 0
  entry : d'.entryFirst = d.entryFirst ∧ d'.entrySize = d.entrySize

theorem Grown.refl (h : Chain v d first l) : Grown v d d l l :=
  ⟨h.linked, h.nodup, prefix_refl l, fun _ _ => rfl, fun _ hc hn => absurd hc hn, rfl, rfl⟩

theorem Grown.trans (h : Grown v d₁ d₂ l₁ l₂) (h' : Grown v d₂ d₃ l₂ l₃) : Grown v d₁ d₃ l₁ l₃ := by
  refine ⟨h'.linked, h'.nodup, h.isPrefix.trans h'.isPrefix,
    fun c hc => (h'.data c (h.isPrefix.subset hc)).trans (h.data c hc), fun c hc hn j => ?_,
    h'.entry.1.trans h.entry.1, h'.entry.2.trans h.entry.2⟩
  by_cases hc2 : c ∈ l₂
  · rw [h'.data c hc2, h.cleared c hc2 hn]
  · exact h'.cleared c hc hc2 j

theorem Grown.chain (h : Grown v d d' l l') : Chain v d' (l'.headD 0) l' := ⟨h.linked, h.nodup, rfl⟩

theorem Grown.getElem? (h : Grown v d d' l l') (hc : l[i]? = some c) : l'[i]? = some c := by
  obtain ⟨t, rfl⟩ := h.isPrefix
  rw [getElem?_append_left (List.getElem?_eq_some_iff.mp hc).1, hc]

theorem grown_alloc (h : Chain v d first l) (hc : fatAllocCluster v d = some (c, d'))
    (hd : ∀ b ∈ l.getLast?, d₂ = fatSet d' b c) (hnil : l = [] → d₂ = d') :
    Grown v d d₂ l (l ++ [c]) := by
  obtain ⟨hvalid, hfree, hfat, hdata, hentry⟩ := fatAllocCluster_spec hc
  have hnot : c ∉ l := fun hm => h.linked.ne_none hm (fatNext_free hfree)
  have hd2 : d₂.data = d'.data ∧ d₂.entryFirst = d'.entryFirst ∧ d₂.entrySize = d'.entrySize := by
    cases hl : l.getLast? with
    | none =>
      rw [hnil (getLast?_eq_none_iff.mp hl)]
      exact ⟨rfl, rfl, rfl⟩
    | some b =>
      rw [hd b hl]
      exact ⟨rfl, rfl, rfl⟩
  have hfat2 : ∀ a, a ∉ l.getLast? → d₂.fat a = d'.fat a := by
    intro a ha
    cases hl : l.getLast? with
    | none => rw [hnil (getLast?_eq_none_iff.mp hl)]
    | some b =>
      rw [hd b hl]
      refine update_of_ne (fun he => ha ?_) _ _
      rw [he, hl]
      rfl
  refine ⟨h.linked.append h.nodup (fun b hb => ?_) ?_ (fun a ha halast => ?_), ?_,
    prefix_append _ _, fun b hb => ?_, fun b hb hn j => ?_, hd2.2.1.trans hentry.1,
    hd2.2.2.trans hentry.2⟩
  · have hfb : d₂.fat b = c := by
      rw [hd b hb]
      exact update_self _ _ _
    exact fatNext_to (h.valid (mem_of_getLast? hb)) hfb hvalid
  · refine fatNext_last hvalid ?_
    rw [hfat2 c fun hm => hnot (mem_of_getLast? hm), hfat, update_self]
  · refine fatNext_congr ?_
    rw [hfat2 a halast, hfat, update_of_ne fun he : a = c => hnot (he ▸ ha)]
  · rw [nodup_append]
    refine ⟨h.nodup, nodup_singleton c, fun a ha b hb he => hnot ?_⟩
    rw [mem_singleton] at hb
    exact hb ▸ he ▸ ha
  · rw [hd2.1, hdata, update_of_ne fun he : b = c => hnot (he ▸ hb)]
  · rw [mem_singleton.mp ((mem_append.mp hb).resolve_left hn), hd2.1, hdata, update_self]

/-- `vfat_next_cluster` stays on the chain or continues it. -/
theorem vfatNextCluster_spec (h : Chain v d first l) (hc : l[i]? = some c) (alloc : Bool) :
    (∃ b, vfatNextCluster v d c alloc = (some b, d) ∧ l[i + 1]? = some b) ∨
      l.length = i + 1 ∧ (vfatNextCluster v d c alloc = (none, d) ∧
          (alloc = true → fatAllocCluster v d = none) ∨
        alloc = true ∧ ∃ b d', vfatNextCluster v d c alloc = (some b, d') ∧
          Grown v d d' l (l ++ [b])) := by
  have hnext := h.linked.get hc
  have hlt := (List.getElem?_eq_some_iff.mp hc).1
  unfold vfatNextCluster
  rw [hnext]
  rcases hb : l[i + 1]? with _ | b
  swap
  · exact Or.inl ⟨b, rfl, rfl⟩
  have hlen := List.getElem?_eq_none_iff.mp hb
  refine Or.inr ⟨by omega, ?_⟩
  split_ifs with halloc
  · exact Or.inl ⟨rfl, fun h => absurd (h.symm.trans halloc) Bool.true_eq_false.mp⟩
  cases ha : fatAllocCluster v d with
  | none => exact Or.inl ⟨rfl, fun _ => rfl⟩
  | some y =>
    refine Or.inr ⟨Bool.not_eq_false _ ▸ halloc, y.1, fatSet y.2 c y.1, rfl,
      grown_alloc h ha (fun b hb' => ?_) fun hnil => ?_⟩
    · rw [getLast?_eq_getElem?, show l.length - 1 = i by omega, hc] at hb'
      rw [some.inj hb']
    · rw [hnil, length_nil] at hlt
      omega

theorem clusterAfter_spec (h : Chain v d first l) (hc : l[i]? = some c) (alloc : Bool) (steps : ℕ) :
    (i + steps < l.length → clusterAfter v alloc steps c d = (l[i + steps]?, d)) ∧
      ∃ l', Grown v d (clusterAfter v alloc steps c d).2 l l' ∧
        (∀ b, (clusterAfter v alloc steps c d).1 = some b → l'[i + steps]? = some b) ∧
        (alloc = true → (clusterAfter v alloc steps c d).1 = none →
          fatAllocCluster v (clusterAfter v alloc steps c d).2 = none) := by
  induction steps generalizing d first l i c with
  | zero =>
    refine ⟨fun _ => ?_, l, Grown.refl h, fun b hb => ?_, fun _ hb => ?_⟩
    · rw [Nat.add_zero, hc]
      rfl
    · rw [Nat.add_zero, hc, ← hb]
      rfl
    · exact absurd hb (some_ne_none c)
  | succ steps ih =>
    rw [clusterAfter]
    obtain ⟨b, hb, hget⟩ | ⟨hlen, ⟨hb, hfull⟩ | ⟨-, b, d₁, hb, hgrown⟩⟩ :=
      vfatNextCluster_spec h hc alloc
    · obtain ⟨h1, h2⟩ := ih h hget
      rw [hb]
      rw [show i + 1 + steps = i + (steps + 1) by omega] at h1 h2
      exact ⟨h1, h2⟩
    · rw [hb]
      exact ⟨fun hlt => absurd hlt (by omega), l, Grown.refl h, nofun, fun ha _ => hfull ha⟩
    · have hget : (l ++ [b])[i + 1]? = some b := by
        rw [← hlen, getElem?_concat_length]
      obtain ⟨-, l', h2, h3⟩ := ih hgrown.chain hget
      rw [hb]
      rw [show i + 1 + steps = i + (steps + 1) by omega] at h3
      exact ⟨fun hlt => absurd hlt (by omega), l', hgrown.trans h2, h3⟩

/-- `chain_cluster_at`: it stays on the chain of the node or continues it. -/
theorem chainClusterAt_spec (h : Chain v d n.firstCluster l) (index : ℕ) (alloc : Bool) :
    (index < l.length → chainClusterAt v d n index alloc = (l[index]?, n, d)) ∧
      ∃ l', Grown v d (chainClusterAt v d n index alloc).2.2 l l' ∧
        (chainClusterAt v d n index alloc).2.1 = ⟨l'.headD 0, n.size⟩ ∧
        (∀ b, (chainClusterAt v d n index alloc).1 = some b → l'[index]? = some b) ∧
        (alloc = true → (chainClusterAt v d n index alloc).1 = none →
          fatAllocCluster v (chainClusterAt v d n index alloc).2.2 = none) := by
  have hsame : n = ⟨l.headD 0, n.size⟩ := by
    rw [← h.first_eq]
  have hstay : (alloc = true → fatAllocCluster v d = none) →
      ∃ l', Grown v d d l l' ∧ n = ⟨l'.headD 0, n.size⟩ ∧
        (∀ b, (none : Option ℕ) = some b → l'[index]? = some b) ∧
        (alloc = true → (none : Option ℕ) = none → fatAllocCluster v d = none) :=
    fun hfull => ⟨l, Grown.refl h, hsame, nofun, fun ha _ => hfull ha⟩
  unfold chainClusterAt
  by_cases h0 : n.firstCluster = 0
  · -- The first cluster of an empty file.
    obtain rfl := h.first_eq_zero_iff.mp h0
    rw [if_pos h0]
    refine ⟨fun hlt => absurd hlt (Nat.not_lt_zero _), ?_⟩
    by_cases halloc : alloc = false
    · rw [if_pos halloc]
      exact hstay fun ha => absurd (ha.symm.trans halloc) Bool.true_eq_false.mp
    rw [if_neg halloc]
    rcases ha : fatAllocCluster v d with _ | y
    · exact hstay fun _ => ha
    have hgrown : Grown v d y.2 [] [y.1] :=
      grown_alloc h ha (fun b hb => absurd hb (by simp)) fun _ => rfl
    have hvalid := (fatAllocCluster_spec ha).1
    obtain ⟨-, l', h2, h3⟩ := clusterAfter_spec hgrown.chain (i := 0) rfl alloc index
    have hhead : l'.headD 0 = y.1 := by
      obtain ⟨t, rfl⟩ := h2.isPrefix
      rfl
    simp only
    rw [if_neg (not_not.mpr hvalid)]
    rw [Nat.zero_add] at h3
    exact ⟨l', hgrown.trans h2, by rw [hhead], h3⟩
  · rw [if_neg h0]
    obtain ⟨c, hc⟩ : ∃ c, l[0]? = some c := by
      cases l with
      | nil => exact absurd (h.first_eq_zero_iff.mpr rfl) h0
      | cons c l => exact ⟨c, rfl⟩
    have hfirst : n.firstCluster = c := by
      rw [h.first_eq, headD_eq_head?_getD, head?_eq_getElem?, hc]
      rfl
    rw [hfirst, if_neg (not_not.mpr (h.valid (mem_of_getElem? hc)))]
    obtain ⟨h1, l', h2, h3⟩ := clusterAfter_spec h hc alloc index
    rw [Nat.zero_add] at h1 h3
    refine ⟨fun hlt => ?_, l', h2, ?_, h3⟩
    · rw [h1 hlt]
    · have hhead : l'.headD 0 = c := by
        rw [headD_eq_head?_getD, head?_eq_getElem?, h2.getElem? hc]
        rfl
      rw [hhead, ← hfirst]

/-! ### Bytes -/

/-- The byte at a position of a file with this chain. -/
def byteAt (v : Volume) (d : Disk) (l : List ℕ) (p : ℕ) : UInt8 :=
  d.data (l.getD (p / v.clusterBytes) 0) (p % v.clusterBytes)

/-- The room in a chain. -/
def room (v : Volume) (l : List ℕ) : ℕ := l.length * v.clusterBytes

theorem div_lt_of_lt_room (h : p < room v l) : p / v.clusterBytes < l.length :=
  Nat.div_lt_of_lt_mul (by rwa [Nat.mul_comm])

theorem room_mono (h : l <+: l') : room v l ≤ room v l' := Nat.mul_le_mul_right _ h.length_le

theorem getD_prefix_eq (h : l <+: l') (hk : k < l.length) : l'.getD k 0 = l.getD k 0 := by
  obtain ⟨t, rfl⟩ := h
  rw [getD_append _ _ _ _ hk]

theorem Grown.byteAt (h : Grown v d d' l l') (hp : p < room v l) :
    byteAt v d' l' p = Vfat.byteAt v d l p := by
  have hk := div_lt_of_lt_room hp
  unfold Vfat.byteAt
  rw [getD_prefix_eq h.isPrefix hk, h.data]
  rw [getD_eq_getElem _ _ hk]
  exact getElem_mem hk

theorem Grown.byteAt_eq_zero (h : Grown v d d' l l') (hl : room v l ≤ p) (hl' : p < room v l') :
    Vfat.byteAt v d' l' p = 0 := by
  obtain ⟨t, rfl⟩ := h.isPrefix
  have hk : l.length ≤ p / v.clusterBytes := (Nat.le_div_iff_mul_le v.clusterBytes_pos).mpr hl
  have hmem : (l ++ t).getD (p / v.clusterBytes) 0 ∈ t := by
    rw [getD_append_right _ _ _ _ hk, getD_eq_getElem _ _ ?_]
    · exact getElem_mem _
    · have hlt := div_lt_of_lt_room hl'
      rw [length_append] at hlt
      omega
  exact h.cleared _ (mem_append_right l hmem)
    (fun hc => (nodup_append.mp h.nodup).2.2 _ hc _ hmem rfl) _

theorem byteAt_add (hj : j < v.clusterBytes) (hc : l[i]? = some c) :
    byteAt v d l (i * v.clusterBytes + j) = d.data c j := by
  have hdiv : (i * v.clusterBytes + j) / v.clusterBytes = i := by
    rw [Nat.add_comm, Nat.add_mul_div_right _ _ v.clusterBytes_pos, Nat.div_eq_of_lt hj,
      Nat.zero_add]
  have hmod : (i * v.clusterBytes + j) % v.clusterBytes = j := by
    rw [Nat.add_comm, Nat.add_mul_mod_self_right, Nat.mod_eq_of_lt hj]
  unfold byteAt
  rw [hdiv, hmod, getD_eq_getElem?_getD, hc]
  rfl

/-- The loop of `vfat_read` returns the bytes of the chain. -/
theorem readLoop_spec (h : Chain v d first l) (hc : l[i]? = some c)
    (hin : inCluster < v.clusterBytes) (hroom : i * v.clusterBytes + inCluster + left ≤ room v l)
    (hfuel : left ≤ fuel) :
    readLoop v d fuel c inCluster left =
      (List.range left).map fun k => byteAt v d l (i * v.clusterBytes + inCluster + k) := by
  induction fuel generalizing i c inCluster left with
  | zero =>
    obtain rfl : left = 0 := by omega
    rfl
  | succ fuel ih =>
    rw [readLoop]
    split_ifs with h0
    · rw [h0]
      rfl
    simp only
    generalize htake : min (v.clusterBytes - inCluster) left = take
    have hpos := v.clusterBytes_pos
    have hhead : (List.range take).map (fun k => d.data c (inCluster + k)) =
        (List.range take).map fun k => byteAt v d l (i * v.clusterBytes + inCluster + k) := by
      refine map_congr_left fun k hk => ?_
      rw [List.mem_range] at hk
      rw [Nat.add_assoc, byteAt_add (by omega) hc]
    rw [hhead]
    split_ifs with hdone
    · rw [append_nil, show left = take by omega]
    have hmore : i + 1 < l.length := by
      by_contra hle
      have hmul : room v l ≤ (i + 1) * v.clusterBytes :=
        Nat.mul_le_mul_right _ (Nat.le_of_not_lt hle)
      rw [Nat.add_mul, Nat.one_mul] at hmul
      omega
    obtain ⟨b, hb, hget⟩ | ⟨hlen, -⟩ := vfatNextCluster_spec h hc false
    · rw [hb]
      simp only
      have hnext : (i + 1) * v.clusterBytes = i * v.clusterBytes + inCluster + take := by
        rw [Nat.add_mul, Nat.one_mul]
        omega
      rw [ih hget hpos (by omega) (by omega), Nat.add_zero, hnext]
      have hsplit : left = take + (left - take) := by omega
      conv_rhs => rw [hsplit, range_add, map_append, List.map_map]
      refine congrArg _ (map_congr_left fun k _ => ?_)
      rw [comp_apply, ← Nat.add_assoc]
    · omega

theorem byteAt_putBytes (h : Chain v d first l) (hc : l[i]? = some c)
    (hfit : off + buf.length ≤ v.clusterBytes) (hp : p < room v l) :
    byteAt v (putBytes d c off buf) l p =
      if i * v.clusterBytes + off ≤ p ∧ p < i * v.clusterBytes + off + buf.length then
        buf.getD (p - (i * v.clusterBytes + off)) 0
      else byteAt v d l p := by
  have hk := div_lt_of_lt_room hp
  have hsplit := Nat.div_add_mod' p v.clusterBytes
  have hget : l[p / v.clusterBytes]? = some (l.getD (p / v.clusterBytes) 0) := by
    rw [getD_eq_getElem _ _ hk]
    exact getElem?_eq_getElem hk
  obtain heq | hne := eq_or_ne (p / v.clusterBytes) i
  · rw [heq] at hsplit hget
    have hcc : l.getD (p / v.clusterBytes) 0 = c := by
      rw [heq]
      exact some.inj (hget.symm.trans hc)
    unfold byteAt putBytes
    simp only
    rw [hcc, update_self]
    by_cases hin : i * v.clusterBytes + off ≤ p ∧ p < i * v.clusterBytes + off + buf.length
    · rw [if_pos hin, if_pos (by omega)]
      congr 1
      omega
    · rw [if_neg hin, if_neg (by omega)]
  · have hcc : l.getD (p / v.clusterBytes) 0 ≠ c := by
      intro he
      rw [he] at hget
      exact hne ((getElem?_inj hk h.nodup).mp (hget.trans hc.symm))
    have hout : ¬(i * v.clusterBytes + off ≤ p ∧ p < i * v.clusterBytes + off + buf.length) := by
      rintro ⟨h1, h2⟩
      refine hne (Nat.div_eq_of_lt_le (by omega) ?_)
      rw [Nat.add_mul, Nat.one_mul]
      omega
    rw [if_neg hout]
    unfold byteAt putBytes
    simp only
    rw [update_of_ne hcc]

/-- The first `k` bytes of `buf` have been written at the position `x` of the file, whose chain has
become `l'`. -/
structure Wrote (v : Volume) (d d' : Disk) (l l' : List ℕ) (x k : ℕ) (buf : List UInt8) : Prop where
  linked : Threaded (fatNext v d') l'
  nodup : l'.Nodup
  isPrefix : l <+: l'
  le : k ≤ buf.length
  fits : x + k ≤ room v l'
  written : ∀ j < k, byteAt v d' l' (x + j) = buf.getD j 0
  kept : ∀ p < room v l, p < x ∨ x + k ≤ p → byteAt v d' l' p = byteAt v d l p
  entry : d'.entryFirst = d.entryFirst ∧ d'.entrySize = d.entrySize

theorem Wrote.nil (h : Chain v d first l) (hx : x ≤ room v l) : Wrote v d d l l x 0 buf :=
  ⟨h.linked, h.nodup, prefix_refl l, Nat.zero_le _, hx,
    fun j hj => absurd hj (Nat.not_lt_zero j), fun _ _ _ => rfl, rfl, rfl⟩

theorem Wrote.append (h : Wrote v d d₁ l l₁ x k buf)
    (h' : Wrote v d₁ d₂ l₁ l₂ (x + k) k' (buf.drop k)) : Wrote v d d₂ l l₂ x (k + k') buf := by
  have hle := h'.le
  have hroom := room_mono (v := v) h.isPrefix
  have hk := h.fits
  rw [length_drop] at hle
  refine ⟨h'.linked, h'.nodup, h.isPrefix.trans h'.isPrefix, by have := h.le; omega,
    by have := h'.fits; omega, fun j hj => ?_, fun p hp hout => ?_,
    h'.entry.1.trans h.entry.1, h'.entry.2.trans h.entry.2⟩
  · obtain hlt | hge := Nat.lt_or_ge j k
    · rw [h'.kept _ (by omega) (Or.inl (by omega)), h.written j hlt]
    · have hw := h'.written (j - k) (by omega)
      rw [show x + k + (j - k) = x + j by omega] at hw
      rw [hw, getD_eq_getElem?_getD, getElem?_drop, Nat.add_sub_cancel' hge,
        ← getD_eq_getElem?_getD]
  · rw [h'.kept p (by omega) (by omega), h.kept p hp (by omega)]

theorem wrote_putBytes (h : Chain v d first l) (hc : l[i]? = some c)
    (ht : t ≤ buf.length) (hfit : off + t ≤ v.clusterBytes) :
    Wrote v d (putBytes d c off (buf.take t)) l l (i * v.clusterBytes + off) t buf := by
  have hlen : (buf.take t).length = t := length_take_of_le ht
  have hi := (List.getElem?_eq_some_iff.mp hc).1
  have hroom : i * v.clusterBytes + off + t ≤ room v l := by
    have hmul : (i + 1) * v.clusterBytes ≤ room v l := Nat.mul_le_mul_right _ hi
    rw [Nat.add_mul, Nat.one_mul] at hmul
    omega
  have hchain : Chain v (putBytes d c off (buf.take t)) first l := h.congr fun _ _ => rfl
  refine ⟨hchain.linked, h.nodup, prefix_refl l, ht, hroom, fun j hj => ?_,
    fun p hp hout => ?_, rfl, rfl⟩
  · rw [byteAt_putBytes h hc (by omega) (by omega), if_pos (by omega), Nat.add_sub_cancel_left,
      getD_eq_getElem?_getD, getElem?_take_of_lt hj, ← getD_eq_getElem?_getD]
  · rw [byteAt_putBytes h hc (by omega) hp, if_neg (by omega)]

theorem Wrote.grown (h : Wrote v d d₁ l l₁ x k buf) (h' : Grown v d₁ d₂ l₁ l₂) :
    Wrote v d d₂ l l₂ x k buf := by
  have hroom := room_mono (v := v) h.isPrefix
  have hroom' := room_mono (v := v) h'.isPrefix
  have hk := h.fits
  exact ⟨h'.linked, h'.nodup, h.isPrefix.trans h'.isPrefix, h.le, by omega,
    fun j hj => (h'.byteAt (by omega)).trans (h.written j hj),
    fun p hp hout => (h'.byteAt (by omega)).trans (h.kept p hp hout),
    h'.entry.1.trans h.entry.1, h'.entry.2.trans h.entry.2⟩

/-- The loop of `vfat_write` writes the first bytes of the buffer. -/
theorem writeLoop_spec (h : Chain v d first l) (hc : l[i]? = some c)
    (hin : inCluster < v.clusterBytes) (hfuel : buf.length ≤ fuel) :
    ∃ l', Wrote v d (writeLoop v fuel d c inCluster buf).2 l l' (i * v.clusterBytes + inCluster)
        (writeLoop v fuel d c inCluster buf).1 buf ∧
      ((writeLoop v fuel d c inCluster buf).1 < buf.length →
        fatAllocCluster v (writeLoop v fuel d c inCluster buf).2 = none) := by
  have hi := (List.getElem?_eq_some_iff.mp hc).1
  have hroom : i * v.clusterBytes + inCluster ≤ room v l := by
    have hmul : (i + 1) * v.clusterBytes ≤ room v l := Nat.mul_le_mul_right _ hi
    rw [Nat.add_mul, Nat.one_mul] at hmul
    omega
  induction fuel generalizing d first l i c inCluster buf with
  | zero => exact ⟨l, Wrote.nil h hroom, fun hlt => absurd hfuel (Nat.not_le.mpr hlt)⟩
  | succ fuel ih =>
    rw [writeLoop]
    split_ifs with h0
    · exact ⟨l, Wrote.nil h hroom, fun hlt => absurd h0 hlt.ne'⟩
    generalize htake : min (v.clusterBytes - inCluster) buf.length = take
    have hput : Wrote v d (putBytes d c inCluster (buf.take take)) l l
        (i * v.clusterBytes + inCluster) take buf := wrote_putBytes h hc (by omega) (by omega)
    have hchain : Chain v (putBytes d c inCluster (buf.take take)) first l := h.congr fun _ _ => rfl
    by_cases hdone : buf.length - take = 0
    · rw [if_pos hdone]
      exact ⟨l, hput, fun hlt => absurd hdone (Nat.sub_ne_zero_of_lt hlt)⟩
    rw [if_neg hdone]
    have hnext : (i + 1) * v.clusterBytes + 0 = i * v.clusterBytes + inCluster + take := by
      rw [Nat.add_mul, Nat.one_mul]
      omega
    -- The rest of the buffer goes to the cluster that follows, on the chain or new.
    have hrest : ∀ {d₁ : Disk} {l₁ : List ℕ} {b : ℕ},
        Wrote v d d₁ l l₁ (i * v.clusterBytes + inCluster) take buf → l₁[i + 1]? = some b →
        ∃ l', Wrote v d (writeLoop v fuel d₁ b 0 (buf.drop take)).2 l l'
            (i * v.clusterBytes + inCluster)
            (take + (writeLoop v fuel d₁ b 0 (buf.drop take)).1) buf ∧
          (take + (writeLoop v fuel d₁ b 0 (buf.drop take)).1 < buf.length →
            fatAllocCluster v (writeLoop v fuel d₁ b 0 (buf.drop take)).2 = none) := by
      intro d₁ l₁ b hw hget
      have hlen : (buf.drop take).length ≤ fuel := by
        rw [length_drop]
        omega
      obtain ⟨l', hl', hfull⟩ := ih ⟨hw.linked, hw.nodup, rfl⟩ hget v.clusterBytes_pos hlen
        (List.getElem?_eq_some_iff.mp hget).1
        (Nat.mul_le_mul_right _ (List.getElem?_eq_some_iff.mp hget).1.le)
      rw [hnext] at hl'
      refine ⟨l', hw.append hl', fun hlt => hfull ?_⟩
      rw [length_drop]
      omega
    obtain ⟨b, hb, hget⟩ | ⟨hlen, ⟨hb, hfull⟩ | ⟨-, b, d₁, hb, hgrown⟩⟩ :=
      vfatNextCluster_spec hchain hc true
    · rw [hb]
      exact hrest hput hget
    · rw [hb]
      exact ⟨l, hput, fun _ => hfull rfl⟩
    · rw [hb]
      exact hrest (hput.grown hgrown) (by rw [← hlen, getElem?_concat_length])

/-! ### Cutting a chain off -/

/-- `fat_free_chain` frees the clusters of a chain and no others. -/
theorem fatFreeChain_spec (h : Threaded (fatNext v d) (c :: l)) (hl : (c :: l).Nodup)
    (hguard : (c :: l).length ≤ guard) :
    (∀ b ∈ c :: l, (fatFreeChain v guard c d).fat b = 0) ∧
      (∀ b, b ∉ c :: l → (fatFreeChain v guard c d).fat b = d.fat b) ∧
      (fatFreeChain v guard c d).data = d.data := by
  induction l generalizing c d guard with
  | nil =>
    obtain ⟨guard, rfl⟩ : ∃ k, guard = k + 1 := ⟨guard - 1, by simp at hguard; omega⟩
    have hc : fatNext v d c = some none := h
    have hvalid : v.valid c := valid_of_fatNext (by rw [hc]; exact some_ne_none _)
    rw [fatFreeChain, if_pos hvalid, hc]
    refine ⟨fun b hb => ?_, fun b hb => ?_, rfl⟩
    · rw [mem_singleton.mp hb]
      exact update_self _ _ _
    · exact update_of_ne (fun he : b = c => hb (he ▸ mem_cons_self)) _ _
  | cons a l ih =>
    obtain ⟨guard, rfl⟩ : ∃ k, guard = k + 1 := ⟨guard - 1, by simp at hguard; omega⟩
    have hc : fatNext v d c = some (some a) := h.1
    have hvalid : v.valid c := valid_of_fatNext (by rw [hc]; exact some_ne_none _)
    obtain ⟨hnot, hl'⟩ := nodup_cons.mp hl
    have hrest : Threaded (fatNext v (freeCluster v d c)) (a :: l) := h.tail.congr fun b hb =>
      fatNext_congr (update_of_ne (fun he : b = c => hnot (he ▸ hb)) _ _)
    obtain ⟨h1, h2, h3⟩ := ih hrest hl' (Nat.le_of_succ_le_succ hguard)
    rw [fatFreeChain, if_pos hvalid, hc]
    refine ⟨fun b hb => ?_, fun b hb => ?_, h3⟩
    · rcases mem_cons.mp hb with rfl | hb
      · exact (h2 b hnot).trans (update_self _ _ _)
      · exact h1 b hb
    · rw [mem_cons, not_or] at hb
      exact (h2 b hb.2).trans (update_of_ne hb.1 _ _)

end RHKernel.Vfat
