import RHKernel.Lib.Buckets
import RHKernel.Lib.Step
import RHKernel.File.BlockCache.Model

/-!
# The entries of the block cache

An entry that holds a block, or is being filled with one, is in its chain of the hash table and in
the LRU list, and no other entry is for the same block; the others are on the free list. Each
critical section keeps this. What it does to the entries is stated entry by entry, so that the
lists are not mentioned again.
-/

namespace RHKernel.BlockCache

open Buckets Function List

def Entry.busy (x : Entry) : Prop := x.valid = true ∨ x.loading = true

/-- The entry with its flag `hashed` set or cleared. -/
def Entry.setHashed (x : Entry) (hashed : Bool) : Entry := { x with hashed := hashed }

@[simp] theorem Entry.setHashed_hashed (x : Entry) (b : Bool) : (x.setHashed b).hashed = b := rfl
@[simp] theorem Entry.setHashed_node (x : Entry) (b : Bool) : (x.setHashed b).node = x.node := rfl

@[simp] theorem Entry.setHashed_block (x : Entry) (b : Bool) :
    (x.setHashed b).block = x.block := rfl

theorem Entry.setHashed_self {x : Entry} {b : Bool} (h : x.hashed = b) : x.setHashed b = x := by
  rw [Entry.setHashed, ← h]

/-- The lists are in order. -/
structure Cache.Ok (k : Cache) : Prop where
  indexed : Indexed k.hash k.slot fun e => (k.entry e).hashed = true
  hashed : ∀ e, (k.entry e).hashed = true ↔ (k.entry e).busy
  key : ∀ {e e'}, (k.entry e).hashed = true → (k.entry e').hashed = true →
    (k.entry e).node = (k.entry e').node → (k.entry e).block = (k.entry e').block → e = e'
  bound : ∀ {e}, (k.entry e).hashed = true → e < cacheEntries ∧ k.ready = true
  lru : ∀ {e}, e ∈ k.lru ↔ (k.entry e).hashed = true
  lru_nodup : k.lru.Nodup
  free : ∀ {e}, e ∈ k.free → e < cacheEntries ∧ (k.entry e).hashed = false
  free_nodup : k.free.Nodup
  ready : k.ready = true → ∀ {e}, e < cacheEntries → (k.entry e).hashed = false → e ∈ k.free

namespace Cache

variable {k k' k₁ : Cache} {node block e y firstBlock i n c : ℕ}

/-- The boot value of the variables. -/
structure Empty (k : Cache) : Prop where
  entry : ∀ e, (k.entry e).valid = false ∧ (k.entry e).loading = false ∧ (k.entry e).hashed = false
  hash : ∀ n, k.hash n = []
  lru : k.lru = []
  free : k.free = []
  ready : k.ready = false

theorem Empty.ok (h : k.Empty) : k.Ok where
  indexed :=
    { mem := fun {n e} => by simp [h.hash, h.entry e]
      nodup := fun n => by rw [h.hash]; exact nodup_nil }
  hashed e := by
    obtain ⟨h1, h2, h3⟩ := h.entry e
    simp [Entry.busy, h1, h2, h3]
  key {e _} he := absurd he (by simp [h.entry e])
  bound {e} he := absurd he (by simp [h.entry e])
  lru {e} := by simp [h.lru, h.entry e]
  lru_nodup := h.lru ▸ nodup_nil
  free he := absurd (h.free ▸ he) not_mem_nil
  free_nodup := h.free ▸ nodup_nil
  ready hr := absurd (h.ready.symm.trans hr) Bool.false_ne_true

/-! ### Searching -/

theorem holds_iff : k.holds node block e = true ↔
    (k.entry e).busy ∧ (k.entry e).node = node ∧ (k.entry e).block = block := by
  simp [holds, Entry.busy, and_assoc]

theorem Ok.slot_eq (hp : k.holds node block e = true) : k.slot e = hashIndex node block := by
  obtain ⟨-, h1, h2⟩ := holds_iff.mp hp
  rw [slot, h1, h2]

theorem Ok.find_eq_some_iff (hk : k.Ok) : k.find node block = some e ↔
    (k.entry e).busy ∧ (k.entry e).node = node ∧ (k.entry e).block = block := by
  rw [find, hk.indexed.find?_eq_some_iff Ok.slot_eq, holds_iff, hk.hashed]
  · exact ⟨And.right, fun h => ⟨h.1, h⟩⟩
  · intro x y hx hy hpx hpy
    obtain ⟨-, h1, h2⟩ := holds_iff.mp hpx
    obtain ⟨-, h3, h4⟩ := holds_iff.mp hpy
    exact hk.key hx hy (h1.trans h3.symm) (h2.trans h4.symm)

theorem Ok.find_eq_none_iff (hk : k.Ok) : k.find node block = none ↔
    ∀ e, (k.entry e).busy → (k.entry e).node = node → (k.entry e).block ≠ block := by
  rw [find, hk.indexed.find?_eq_none_iff Ok.slot_eq]
  constructor
  · intro h e hb hn hbl
    exact h e ((hk.hashed e).mpr hb) (holds_iff.mpr ⟨hb, hn, hbl⟩)
  · intro h e _ hp
    obtain ⟨h1, h2, h3⟩ := holds_iff.mp hp
    exact h e h1 h2 h3

/-! ### Moving entries between the lists -/

theorem Ok.lruFront (hk : k.Ok) (he : (k.entry e).hashed = true) : (k.lruFront e).Ok where
  indexed := hk.indexed
  hashed := hk.hashed
  key := hk.key
  bound := hk.bound
  lru {x} := by
    rw [show (k.lruFront e).lru = e :: k.lru.erase e from rfl, mem_cons,
      hk.lru_nodup.mem_erase_iff, hk.lru]
    constructor
    · rintro (rfl | ⟨-, hx⟩)
      · exact he
      · exact hx
    · intro hx
      by_cases hxe : x = e
      · exact .inl hxe
      · exact .inr ⟨hxe, hx⟩
  lru_nodup := nodup_cons.mpr
    ⟨fun h => (hk.lru_nodup.mem_erase_iff.mp h).1 rfl, hk.lru_nodup.erase e⟩
  free := hk.free
  free_nodup := hk.free_nodup
  ready := hk.ready

/-- The lists are in order except for `e`, which is out of the hash table and the free list. -/
structure Taken (k : Cache) (e : ℕ) : Prop where
  indexed : Indexed k.hash k.slot fun x => (k.entry x).hashed = true
  unhashed : (k.entry e).hashed = false
  bound : e < cacheEntries
  hashed : ∀ {x}, x ≠ e → ((k.entry x).hashed = true ↔ (k.entry x).busy)
  key : ∀ {x y}, (k.entry x).hashed = true → (k.entry y).hashed = true →
    (k.entry x).node = (k.entry y).node → (k.entry x).block = (k.entry y).block → x = y
  bounds : ∀ {x}, (k.entry x).hashed = true → x < cacheEntries ∧ k.ready = true
  lru : ∀ {x}, x ≠ e → (x ∈ k.lru ↔ (k.entry x).hashed = true)
  lru_nodup : k.lru.Nodup
  free : ∀ {x}, x ∈ k.free → x < cacheEntries ∧ (k.entry x).hashed = false ∧ x ≠ e
  free_nodup : k.free.Nodup
  ready : k.ready = true →
    ∀ {x}, x < cacheEntries → x ≠ e → (k.entry x).hashed = false → x ∈ k.free

theorem Taken.ne (hk : k.Taken e) (hy : (k.entry y).hashed = true) : y ≠ e := by
  rintro rfl
  exact Bool.false_ne_true (hk.unhashed.symm.trans hy)

/-- An entry that was taken comes into use as `x`. -/
def enter (k : Cache) (e : ℕ) (x : Entry) : Cache :=
  { k with
    entry := update k.entry e (x.setHashed true)
    hash := update k.hash (hashIndex x.node x.block)
      (e :: k.hash (hashIndex x.node x.block))
    lru := e :: k.lru.erase e }

theorem Taken.enter {x : Entry} (hk : k.Taken e) (hready : k.ready = true) (hx : x.busy)
    (hnew : ∀ y, (k.entry y).hashed = true → (k.entry y).node = x.node →
      (k.entry y).block ≠ x.block) : (k.enter e x).Ok := by
  have hself : (k.enter e x).entry e = x.setHashed true := update_self _ _ _
  have hne : ∀ {y}, y ≠ e → (k.enter e x).entry y = k.entry y := fun hy => update_of_ne hy _ _
  have hon : ∀ y, ((k.enter e x).entry y).hashed = true ↔ y = e ∨ (k.entry y).hashed = true := by
    intro y
    by_cases hy : y = e
    · subst hy
      simp [hself]
    · simp [hne hy, hy]
  refine ⟨?_, fun y => ?_, fun {y z} hy hz hn hb => ?_, fun {y} hy => ?_, fun {y} => ?_, ?_,
    fun {y} hy => ?_, hk.free_nodup, fun hr y hy hf => ?_⟩
  · have hslot : (k.enter e x).slot e = hashIndex x.node x.block := by
      rw [slot, hself, Entry.setHashed_node, Entry.setHashed_block]
    have h : Indexed (update k.hash ((k.enter e x).slot e)
        (e :: k.hash ((k.enter e x).slot e))) (k.enter e x).slot
        fun y => ((k.enter e x).entry y).hashed = true :=
      hk.indexed.insert (by rw [hk.unhashed]; exact Bool.false_ne_true) hon
        fun hy => by rw [slot, slot, hne (hk.ne hy)]
    rw [hslot] at h
    exact h
  · by_cases hy : y = e
    · subst hy
      rw [hself]
      exact iff_of_true rfl hx
    · rw [hne hy]
      exact hk.hashed hy
  · rw [hon] at hy hz
    rcases hy with rfl | hy
    · rcases hz with rfl | hz
      · rfl
      · rw [hself, hne (hk.ne hz)] at hn hb
        exact absurd hb.symm (hnew z hz hn.symm)
    · rcases hz with rfl | hz
      · rw [hself, hne (hk.ne hy)] at hn hb
        exact absurd hb (hnew y hy hn)
      · rw [hne (hk.ne hy), hne (hk.ne hz)] at hn hb
        exact hk.key hy hz hn hb
  · rcases (hon y).mp hy with rfl | hy
    · exact ⟨hk.bound, hready⟩
    · exact hk.bounds hy
  · rw [hon, show (k.enter e x).lru = e :: k.lru.erase e from rfl, mem_cons,
      hk.lru_nodup.mem_erase_iff]
    refine or_congr_right ⟨fun ⟨h1, h2⟩ => (hk.lru h1).mp h2, fun hy => ?_⟩
    exact ⟨hk.ne hy, (hk.lru (hk.ne hy)).mpr hy⟩
  · exact nodup_cons.mpr
      ⟨fun h => (hk.lru_nodup.mem_erase_iff.mp h).1 rfl, hk.lru_nodup.erase e⟩
  · obtain ⟨h1, h2, h3⟩ := hk.free hy
    rw [hne h3]
    exact ⟨h1, h2⟩
  · have hye : y ≠ e := by
      rintro rfl
      rw [hself] at hf
      exact Bool.false_ne_true hf.symm
    rw [hne hye] at hf
    exact hk.ready hr hy hye hf

theorem unhash_entry (k : Cache) (e : ℕ) :
    (k.unhash e).entry = update k.entry e ((k.entry e).setHashed false) := by
  unfold unhash
  split_ifs with h
  · rfl
  · rw [Bool.not_eq_true] at h
    rw [Entry.setHashed_self h, update_eq_self]

/-- An entry is taken out of the hash table and the free list; its flags may change. -/
theorem Ok.taken (hk : k.Ok) (he : e < cacheEntries) {x : Entry} (hnode : x.node = (k.entry e).node)
    (hblock : x.block = (k.entry e).block) (hhashed : x.hashed = (k.entry e).hashed) :
    (({ k with
        entry := update k.entry e x
        free := k.free.erase e } : Cache).unhash e).Taken e := by
  generalize hk1 : ({ k with
    entry := update k.entry e x
    free := k.free.erase e } : Cache) = k₁
  have hentry : k₁.entry = update k.entry e x := by rw [← hk1]
  have hrest : k₁.hash = k.hash ∧ k₁.lru = k.lru ∧ k₁.free = k.free.erase e ∧
      k₁.ready = k.ready := by
    rw [← hk1]
    exact ⟨rfl, rfl, rfl, rfl⟩
  have hself : (k₁.unhash e).entry e = x.setHashed false := by
    rw [unhash_entry, update_self, hentry, update_self]
  have hne : ∀ {y}, y ≠ e → (k₁.unhash e).entry y = k.entry y := fun hy => by
    rw [unhash_entry, update_of_ne hy, hentry, update_of_ne hy]
  have hlists : (k₁.unhash e).lru = k.lru ∧ (k₁.unhash e).free = k.free.erase e ∧
      (k₁.unhash e).ready = k.ready := by
    unfold unhash
    split
    · exact hrest.2
    · exact hrest.2
  have hold : ∀ {y}, ((k₁.unhash e).entry y).hashed = true → y ≠ e := by
    rintro y hy rfl
    rw [hself] at hy
    exact Bool.false_ne_true hy
  have hon : ∀ y, ((k₁.unhash e).entry y).hashed = true ↔ y ≠ e ∧ (k.entry y).hashed = true := by
    intro y
    refine ⟨fun hy => ⟨hold hy, by rwa [hne (hold hy)] at hy⟩, fun ⟨h1, h2⟩ => by rwa [hne h1]⟩
  have hslot : ∀ {y}, ((k₁.unhash e).entry y).hashed = true → (k₁.unhash e).slot y = k.slot y :=
    fun hy => by rw [slot, slot, hne (hold hy)]
  have hchains : (k₁.unhash e).hash = if (k.entry e).hashed = true
      then update k.hash (k.slot e) ((k.hash (k.slot e)).erase e) else k.hash := by
    have hslot1 : k₁.slot e = k.slot e := by
      rw [slot, slot, hentry, update_self, hnode, hblock]
    unfold unhash
    rw [hentry, update_self, hhashed, hslot1, hrest.1]
    split
    · rfl
    · exact hrest.1
  refine ⟨?_, by rw [hself]; rfl, he, fun hy => by rw [hne hy]; exact hk.hashed _,
    fun {y z} hy hz hn hb => ?_, fun {y} hy => ?_, fun hy => ?_, ?_, fun {y} hy => ?_, ?_,
    fun hr y hy hye hf => ?_⟩
  · rw [hchains]
    split_ifs with hnot
    · exact hk.indexed.erase hon hslot
    · refine hk.indexed.congr (fun y => ?_) fun {y} hy => ?_
      · rw [hon]
        exact ⟨And.right, fun hy => ⟨fun he => hnot (he ▸ hy), hy⟩⟩
      · exact hslot ((hon y).mpr ⟨fun he => hnot (he ▸ hy), hy⟩)
  · rw [hne (hold hy), hne (hold hz)] at hn hb
    exact hk.key ((hon y).mp hy).2 ((hon z).mp hz).2 hn hb
  · rw [hlists.2.2]
    exact hk.bound ((hon y).mp hy).2
  · rw [hlists.1, hne hy]
    exact hk.lru
  · rw [hlists.1]
    exact hk.lru_nodup
  · rw [hlists.2.1, hk.free_nodup.mem_erase_iff] at hy
    rw [hne hy.1]
    exact ⟨(hk.free hy.2).1, (hk.free hy.2).2, hy.1⟩
  · rw [hlists.2.1]
    exact hk.free_nodup.erase e
  · rw [hlists.2.1, hk.free_nodup.mem_erase_iff]
    rw [hlists.2.2] at hr
    rw [hne hye] at hf
    exact ⟨hye, hk.ready hr hy hf⟩

theorem Taken.freePush (hk : k.Taken e) (hidle : ¬(k.entry e).busy) : (k.freePush e).Ok := by
  have hloading : ¬((k.entry e).loading = true ∨ e ∈ k.free) := by
    rintro (h | h)
    · exact hidle (.inr h)
    · exact (hk.free h).2.2 rfl
  rw [Cache.freePush, if_neg hloading]
  refine ⟨hk.indexed, fun y => ?_, hk.key, hk.bounds, fun {y} => ?_, hk.lru_nodup.erase e,
    fun {y} hy => ?_, ?_, fun hr y hy hf => ?_⟩
  · by_cases hy : y = e
    · subst hy
      exact iff_of_false (by rw [lruRemove, hk.unhashed]; exact Bool.false_ne_true) hidle
    · exact hk.hashed hy
  · simp only [lruRemove, hk.lru_nodup.mem_erase_iff]
    constructor
    · exact fun ⟨h1, h2⟩ => (hk.lru h1).mp h2
    · exact fun hy => ⟨hk.ne hy, (hk.lru (hk.ne hy)).mpr hy⟩
  · rcases mem_cons.mp hy with rfl | hy
    · exact ⟨hk.bound, hk.unhashed⟩
    · exact ⟨(hk.free hy).1, (hk.free hy).2.1⟩
  · exact nodup_cons.mpr ⟨fun h => (hk.free h).2.2 rfl, hk.free_nodup⟩
  · by_cases hye : y = e
    · exact mem_cons.mpr (.inl hye)
    · exact mem_cons_of_mem _ (hk.ready hr hy hye hf)

/-! ### Picking an entry -/

theorem Ok.init (hk : k.Ok) : k.init.Ok ∧ k.init.entry = k.entry ∧ k.init.ready = true := by
  unfold Cache.init
  split_ifs with hr
  · exact ⟨hk, rfl, hr⟩
  have hidle : ∀ e, (k.entry e).hashed = false := fun e => by
    rw [← Bool.not_eq_true]
    exact fun he => hr (hk.bound he).2
  have hlru : k.lru = [] := eq_nil_iff_forall_not_mem.mpr fun e he => by
    rw [hk.lru, hidle] at he
    exact Bool.false_ne_true he
  -- the entries below `i` are on the free list, and nothing else has changed
  have hfold := Step.foldl_range (m := cacheEntries) (f := freePush)
    (P := fun i k' => k' = { k with free := k'.free } ∧ k'.free.Nodup ∧
      (∀ {e}, e ∈ k'.free → e < cacheEntries) ∧ ∀ e < i, e ∈ k'.free)
    (fun {i k'} hi ⟨h1, h2, h3, h4⟩ => by
      unfold freePush
      have hloading : (k'.entry i).loading = false := by
        rw [h1, ← Bool.not_eq_true]
        exact fun hl => Bool.false_ne_true ((hidle i).symm.trans ((hk.hashed i).mpr (.inr hl)))
      split_ifs with h
      · have hmem : i ∈ k'.free := h.resolve_left (by rw [hloading]; exact Bool.false_ne_true)
        refine ⟨h1, h2, h3, fun e he => ?_⟩
        rcases Nat.lt_succ_iff_lt_or_eq.mp he with he | rfl
        · exact h4 e he
        · exact hmem
      have hnot : i ∉ k'.free := fun hmem => h (.inr hmem)
      refine ⟨?_, nodup_cons.mpr ⟨hnot, h2⟩, fun {e} he => ?_, fun e he => ?_⟩
      · rw [lruRemove, h1, hlru]
        rfl
      · rcases mem_cons.mp he with rfl | he
        · exact hi
        · exact h3 he
      · rcases Nat.lt_succ_iff_lt_or_eq.mp he with he | rfl
        · exact mem_cons_of_mem _ (h4 e he)
        · exact mem_cons_self)
    (s := k) ⟨rfl, hk.free_nodup, fun he => (hk.free he).1,
      fun e he => absurd he (Nat.not_lt_zero e)⟩
  generalize (List.range cacheEntries).foldl freePush k = k₁ at hfold ⊢
  obtain ⟨h1, h2, h3, h4⟩ := hfold
  rw [h1]
  refine ⟨⟨hk.indexed, hk.hashed, hk.key, fun he => ⟨(hk.bound he).1, rfl⟩, hk.lru, hk.lru_nodup,
    fun he => ⟨h3 he, hidle _⟩, h2, fun _ e he _ => h4 e he⟩, rfl, rfl⟩

/-- **`block_cache_pick_locked`** picks an entry that is not being filled, if there is one. -/
theorem Ok.pick_some (hk : k.Ok) (h : k.pick = (some e, k₁)) :
    (k₁.unhash e).Taken e ∧ (k₁.unhash e).ready = true ∧ (k.entry e).loading = false ∧
      (k₁.unhash e).entry = update k.entry e ((k.entry e).setHashed false) := by
  obtain ⟨hk0, hentry, hready⟩ := hk.init
  have hunhash : ∀ k2 : Cache, (k2.unhash e).ready = k2.ready := by
    intro k2
    unfold unhash
    split
    · rfl
    · rfl
  have htaken : ∀ k2 : Cache, e < cacheEntries →
      k2 = { k.init with free := k.init.free.erase e } →
      (k2.unhash e).Taken e ∧ (k2.unhash e).ready = true ∧
        (k2.unhash e).entry = update k.entry e ((k.entry e).setHashed false) := by
    rintro k2 he rfl
    have h := hk0.taken he rfl rfl rfl
    rw [update_eq_self] at h
    refine ⟨h, (hunhash _).trans hready, ?_⟩
    rw [unhash_entry, hentry]
  unfold pick at h
  simp only at h
  split at h
  · rename_i e' rest hfree
    obtain ⟨he, rfl⟩ := Prod.mk.inj h
    obtain rfl := Option.some.inj he
    obtain ⟨hb, hh⟩ := hk0.free (hfree ▸ mem_cons_self)
    obtain ⟨h1, h2, h3⟩ := htaken { k.init with free := rest } hb
      (by rw [hfree, erase_cons_head])
    refine ⟨h1, h2, ?_, h3⟩
    rw [← Bool.not_eq_true, ← hentry]
    exact fun hl => Bool.false_ne_true (hh.symm.trans ((hk0.hashed _).mpr (.inr hl)))
  · rename_i hfree
    obtain ⟨he, rfl⟩ := Prod.mk.inj h
    have hmem := hk0.lru.mp (mem_reverse.mp (mem_of_find?_eq_some he))
    obtain ⟨h1, h2, h3⟩ := htaken k.init (hk0.bound hmem).1
      (by rw [hfree, erase_nil, ← hfree])
    refine ⟨h1, h2, ?_, h3⟩
    rw [← hentry]
    simpa using find?_some he

theorem Ok.pick_none (hk : k.Ok) (h : k.pick = (none, k₁)) :
    k₁.Ok ∧ k₁.entry = k.entry ∧ ∀ e < cacheEntries, (k.entry e).loading = true := by
  obtain ⟨hk0, hentry, hready⟩ := hk.init
  unfold pick at h
  simp only at h
  split at h
  · cases (Prod.mk.inj h).1
  rename_i hfree
  obtain ⟨hnone, rfl⟩ := Prod.mk.inj h
  refine ⟨hk0, hentry, fun e he => ?_⟩
  have hhashed : (k.init.entry e).hashed = true := by
    rw [← Bool.not_eq_false]
    intro hf
    exact absurd (hfree ▸ hk0.ready hready he hf) not_mem_nil
  have h := find?_eq_none.mp hnone e (mem_reverse.mpr (hk0.lru.mpr hhashed))
  rw [← hentry]
  simpa using h

/-! ### The critical sections -/

/-- The flags of an entry in use change, and it stays in use. -/
theorem Ok.flags (hk : k.Ok) {x : Entry} (hnode : x.node = (k.entry e).node)
    (hblock : x.block = (k.entry e).block) (hhashed : x.hashed = (k.entry e).hashed)
    (hbusy : x.busy ↔ (k.entry e).busy) : ({ k with entry := update k.entry e x }).Ok := by
  have hfield : ∀ {α : Type} (f : Entry → α), f x = f (k.entry e) → ∀ y,
      f (update k.entry e x y) = f (k.entry y) := by
    exact fun f hf => apply_update_of_eq f hf
  have hn := hfield Entry.node hnode
  have hb := hfield Entry.block hblock
  have hh := hfield Entry.hashed hhashed
  have hbs := hfield Entry.busy (propext hbusy)
  refine ⟨?_, fun y => by rw [hh, hbs]; exact hk.hashed y, fun {y z} => ?_, fun {y} => ?_,
    fun {y} => by rw [hh]; exact hk.lru, hk.lru_nodup, fun {y} => by rw [hh]; exact hk.free,
    hk.free_nodup, fun hr y => by rw [hh]; exact hk.ready hr⟩
  · refine hk.indexed.congr (fun y => by rw [hh]) fun {y} _ => ?_
    rw [slot, slot, hn, hb]
  · rw [hh, hh, hn, hn, hb, hb]
    exact hk.key
  · rw [hh]
    exact hk.bound

/-- The first critical section of `block_cache_load` puts the entry it has picked into use. -/
theorem claim_enter (k : Cache) (e : ℕ) {f : Entry → Entry} (hf : (f (k.entry e)).hashed = false) :
    ((k.setEntry e f).lruFront e).hashEntry e = k.enter e (f (k.entry e)) := by
  have hentry : ((k.setEntry e f).lruFront e).entry e = f (k.entry e) := update_self _ _ _
  unfold hashEntry
  rw [hentry, hf, if_neg Bool.false_ne_true]
  simp only [slot, setEntry, lruFront, enter, update_self, update_idem]
  rfl

theorem Ok.claim_hit (hk : k.Ok) (h : k.claim node block = (.hit e, k')) :
    k'.Ok ∧ k'.entry = k.entry ∧ (k.entry e).valid = true ∧ (k.entry e).loading = false ∧
      (k.entry e).node = node ∧ (k.entry e).block = block := by
  unfold claim at h
  split at h
  · rename_i hfind
    obtain ⟨hbusy, hn, hb⟩ := hk.find_eq_some_iff.mp hfind
    split_ifs at h with hl
    · cases (Prod.mk.inj h).1
    rw [Bool.not_eq_true] at hl
    obtain ⟨he, rfl⟩ := Prod.mk.inj h
    cases he
    refine ⟨hk.lruFront ((hk.hashed _).mpr hbusy), rfl, hbusy.resolve_right ?_, hl, hn, hb⟩
    rw [hl]
    exact Bool.false_ne_true
  · split at h
    · cases (Prod.mk.inj h).1
    · cases (Prod.mk.inj h).1

theorem Ok.claim_again (hk : k.Ok) (h : k.claim node block = (.again, k')) :
    k'.Ok ∧ k'.entry = k.entry ∧ ∃ e, (k.entry e).loading = true := by
  unfold claim at h
  split at h
  · rename_i x hfind
    split_ifs at h with hl
    · obtain ⟨-, rfl⟩ := Prod.mk.inj h
      exact ⟨hk, rfl, x, hl⟩
    · cases (Prod.mk.inj h).1
  · split at h
    · rename_i k₁ hpick
      obtain ⟨-, rfl⟩ := Prod.mk.inj h
      obtain ⟨h1, h2, h3⟩ := hk.pick_none hpick
      exact ⟨h1, h2, 0, h3 0 (by decide)⟩
    · cases (Prod.mk.inj h).1

/-- An entry that begins to be filled with a block. -/
def claimedEntry (x : Entry) (node block : ℕ) : Entry :=
  { x with
    node := node, block := block, valid := false, loading := true, hashed := true,
    discardAfterLoad := false }

theorem Ok.claim_claimed (hk : k.Ok) (h : k.claim node block = (.claimed e, k')) :
    k'.Ok ∧ (k.entry e).loading = false ∧
      (∀ x, (k.entry x).busy → (k.entry x).node = node → (k.entry x).block ≠ block) ∧
      k'.entry = update k.entry e (claimedEntry (k.entry e) node block) := by
  unfold claim at h
  split at h
  · split at h
    · cases (Prod.mk.inj h).1
    · cases (Prod.mk.inj h).1
  rename_i hfind
  have hnew := hk.find_eq_none_iff.mp hfind
  split at h
  · cases (Prod.mk.inj h).1
  rename_i k₁ hpick
  obtain ⟨he, rfl⟩ := Prod.mk.inj h
  cases he
  obtain ⟨htaken, hready, hl, hentry⟩ := hk.pick_some hpick
  rw [claim_enter _ e htaken.unhashed]
  refine ⟨htaken.enter hready (.inr rfl) fun y hy hn => ?_, hl, hnew, ?_⟩
  · have hye := htaken.ne hy
    rw [hentry, update_of_ne hye] at hy hn ⊢
    exact hnew y ((hk.hashed y).mp hy) hn
  · simp only [Cache.enter, hentry, update_self, update_idem]
    rfl

def keptEntry (x : Entry) : Entry := { x with loading := false, valid := true }

/-- An entry that nothing is in. -/
def idleEntry (x : Entry) : Entry :=
  { x with loading := false, valid := false, discardAfterLoad := false }

/-- What the second critical section of `block_cache_load` makes of the entry. -/
def settledEntry (x : Entry) (got : ℕ) : Entry :=
  if got = blockSize ∧ x.discardAfterLoad = false then keptEntry x
  else (idleEntry x).setHashed false

theorem freePush_entry (k : Cache) (e : ℕ) : (k.freePush e).entry = k.entry := by
  unfold freePush
  split
  · rfl
  · rfl

theorem Ok.release (hk : k.Ok) (he : e < cacheEntries) (x : Entry)
    (hnode : x.node = (k.entry e).node) (hblock : x.block = (k.entry e).block)
    (hhashed : x.hashed = (k.entry e).hashed) (hidle : ¬x.busy) :
    ((({ k with entry := update k.entry e x } : Cache).unhash e).freePush e).Ok ∧
      ((({ k with entry := update k.entry e x } : Cache).unhash e).freePush e).entry =
        update k.entry e (x.setHashed false) := by
  have hentry := unhash_entry ({ k with entry := update k.entry e x } : Cache) e
  simp only [update_self, update_idem] at hentry
  refine ⟨?_, by rw [freePush_entry, hentry]⟩
  by_cases hmem : e ∈ k.free
  · -- it is there already
    have hoff : x.hashed = false := hhashed.trans (hk.free hmem).2
    have hsame : ({ k with entry := update k.entry e x } : Cache).unhash e =
        { k with entry := update k.entry e x } := by
      unfold unhash
      simp [hoff]
    rw [hsame, Cache.freePush, if_pos (.inr hmem)]
    refine hk.flags hnode hblock hhashed (iff_of_false hidle fun hb => ?_)
    exact Bool.false_ne_true ((hk.free hmem).2.symm.trans ((hk.hashed e).mpr hb))
  · have h := hk.taken he hnode hblock hhashed
    rw [erase_of_not_mem hmem] at h
    refine h.freePush ?_
    rw [hentry, update_self]
    exact hidle

theorem Ok.settle (hk : k.Ok) (he : (k.entry e).loading = true) (got : ℕ) :
    (k.settle e got).2.Ok ∧
      (k.settle e got).1 = decide (got = blockSize ∧ (k.entry e).discardAfterLoad = false) ∧
      (k.settle e got).2.entry = update k.entry e (settledEntry (k.entry e) got) := by
  have hhashed := (hk.hashed e).mpr (.inr he)
  unfold Cache.settle settledEntry
  simp only [setEntry, update_self, update_idem]
  split_ifs with hkeep
  · have hentry : update k.entry e (keptEntry (k.entry e)) e = keptEntry (k.entry e) :=
      update_self _ _ _
    have h : ({ k with entry := update k.entry e (keptEntry (k.entry e)) } : Cache).Ok :=
      hk.flags rfl rfl rfl (iff_of_true (.inl rfl) (.inr he))
    refine ⟨h.lruFront ?_, (decide_eq_true hkeep).symm, rfl⟩
    simp only [hentry]
    exact hhashed
  · have hidle : ¬(idleEntry (k.entry e)).busy := by
      rintro (hv | hl)
      · exact Bool.false_ne_true hv
      · exact Bool.false_ne_true hl
    obtain ⟨h1, h2⟩ := hk.release (hk.bound hhashed).1 (idleEntry (k.entry e)) rfl rfl rfl hidle
    exact ⟨h1, (decide_eq_false hkeep).symm, h2⟩

/-- What `block_cache_invalidate` makes of an entry in its range. -/
def droppedEntry (x : Entry) : Entry :=
  if x.loading then { x with valid := false, discardAfterLoad := true }
  else { x with valid := false, hashed := false }

theorem Ok.drop (hk : k.Ok) (he : e < cacheEntries) (node firstBlock lastBlock : ℕ) :
    (drop node firstBlock lastBlock k e).Ok ∧
      (drop node firstBlock lastBlock k e).entry = update k.entry e
        (if (k.entry e).within node firstBlock lastBlock then droppedEntry (k.entry e)
          else k.entry e) := by
  unfold Cache.drop
  by_cases hin : (k.entry e).within node firstBlock lastBlock
  · rw [if_pos hin, if_pos hin]
    unfold droppedEntry
    simp only [setEntry, update_self, update_idem]
    by_cases hl : (k.entry e).loading = true
    · rw [if_pos hl, if_pos hl]
      exact ⟨hk.flags rfl rfl rfl (iff_of_true (.inr hl) (.inr hl)), rfl⟩
    rw [if_neg hl, if_neg hl]
    have hidle : ∀ {x : Entry}, x.valid = false → x.loading = (k.entry e).loading →
        ¬x.busy := by
      rintro x hv hxl (h | h)
      · exact Bool.false_ne_true (hv.symm.trans h)
      · exact hl (hxl.symm.trans h)
    exact hk.release he _ rfl rfl rfl (hidle rfl rfl)
  · rw [if_neg hin, if_neg hin, update_eq_self]
    exact ⟨hk, rfl⟩

theorem Ok.invalidate (hk : k.Ok) (node firstBlock lastBlock : ℕ) :
    (k.invalidate node firstBlock lastBlock).Ok ∧
      ∀ e, (k.invalidate node firstBlock lastBlock).entry e =
        if e < cacheEntries ∧ (k.entry e).within node firstBlock lastBlock
        then droppedEntry (k.entry e) else k.entry e := by
  unfold Cache.invalidate
  refine Step.foldl_range (m := cacheEntries) (f := Cache.drop node firstBlock lastBlock)
    (P := fun i (k' : Cache) => k'.Ok ∧ ∀ e, k'.entry e =
      if e < i ∧ (k.entry e).within node firstBlock lastBlock
      then droppedEntry (k.entry e) else k.entry e) (fun {i k'} hi ⟨hk', hentry⟩ => ?_)
    ⟨hk, fun e => by rw [if_neg fun h => Nat.not_lt_zero e h.1]⟩
  obtain ⟨h1, h2⟩ := hk'.drop hi node firstBlock lastBlock
  have hi' : k'.entry i = k.entry i := by rw [hentry, if_neg fun h => lt_irrefl i h.1]
  refine ⟨h1, fun e => ?_⟩
  rw [h2]
  by_cases he : e = i
  · subst he
    rw [update_self, hi']
    simp only [Nat.lt_succ_self, true_and]
  · rw [update_of_ne he, hentry]
    have hlt : e < i + 1 ↔ e < i := ⟨fun h => by omega, fun h => by omega⟩
    simp only [hlt]

/-- The entry holds block `i` of a run of blocks that has been read to `src`. -/
structure Stored (x : Entry) (node firstBlock : ℕ) (src : ℕ → UInt8) (i : ℕ) : Prop where
  node : x.node = node
  block : x.block = firstBlock + i
  valid : x.valid = true
  loading : x.loading = false
  data : ∀ {j}, j < blockSize → x.data j = src (i * blockSize + j)

/-- What `block_cache_install_read_run` does to an entry. -/
def Installed (x x' : Entry) (node firstBlock : ℕ) (src : ℕ → UInt8) (i n : ℕ) : Prop :=
  x' = x ∨
    (x.loading = true ∧ x.node = node ∧ firstBlock + i ≤ x.block ∧ x.block < firstBlock + i + n ∧
      x' = { x with discardAfterLoad := true }) ∨
    (x.loading = false ∧ ∃ j, i ≤ j ∧ j < i + n ∧ Stored x' node firstBlock src j)

theorem Installed.trans {x x' x'' : Entry} {src : ℕ → UInt8}
    (h : Installed x x' node firstBlock src i 1)
    (h' : Installed x' x'' node firstBlock src (i + 1) n) :
    Installed x x'' node firstBlock src i (n + 1) := by
  rcases h with rfl | ⟨hl, hn, hb1, hb2, rfl⟩ | ⟨hl, j, hj1, hj2, hst⟩
  · rcases h' with rfl | ⟨hl, hn, hb1, hb2, rfl⟩ | ⟨hl, j, hj1, hj2, hst⟩
    · exact .inl rfl
    · exact .inr (.inl ⟨hl, hn, by omega, by omega, rfl⟩)
    · exact .inr (.inr ⟨hl, j, by omega, by omega, hst⟩)
  · rcases h' with rfl | ⟨-, -, -, -, rfl⟩ | ⟨hl', -⟩
    · exact .inr (.inl ⟨hl, hn, hb1, by omega, rfl⟩)
    · exact .inr (.inl ⟨hl, hn, hb1, by omega, rfl⟩)
    · exact absurd (hl'.symm.trans hl) Bool.false_ne_true
  · rcases h' with rfl | ⟨hl', -⟩ | ⟨-, j', hj1', hj2', hst'⟩
    · exact .inr (.inr ⟨hl, j, hj1, by omega, hst⟩)
    · exact absurd (hst.loading.symm.trans hl') Bool.false_ne_true
    · exact .inr (.inr ⟨hl, j', by omega, by omega, hst'⟩)

/-- `block_cache_install_read_run` puts the entry it has picked into use. -/
theorem install_enter (k : Cache) (e : ℕ) {f : Entry → Entry} (src : ℕ → UInt8)
    (hf : (f (k.entry e)).hashed = false) :
    ((k.setEntry e f).hashEntry e).store e src = k.enter e ((f (k.entry e)).filled src) := by
  have hentry : (k.setEntry e f).entry e = f (k.entry e) := update_self _ _ _
  unfold hashEntry
  rw [hentry, hf, if_neg Bool.false_ne_true]
  simp only [store, slot, setEntry, lruFront, enter, update_self, update_idem]
  rfl

/-- **`block_cache_install_read_run`**, the loop. -/
theorem Ok.installFrom (hk : k.Ok) (node firstBlock : ℕ) (src : ℕ → UInt8) (i n : ℕ) :
    (k.installFrom node firstBlock src i n).Ok ∧
      ∀ e, Installed (k.entry e) ((k.installFrom node firstBlock src i n).entry e) node firstBlock
        src i n := by
  induction n generalizing k i with
  | zero => exact ⟨hk, fun _ => .inl rfl⟩
  | succ n ih =>
    -- a round changes one entry
    have hround : ∀ {k₁ : Cache} {e : ℕ} {x : Entry}, k₁.Ok →
        k₁.entry = update k.entry e x →
        Installed (k.entry e) x node firstBlock src i 1 →
        (k₁.installFrom node firstBlock src (i + 1) n).Ok ∧ ∀ y, Installed (k.entry y)
          ((k₁.installFrom node firstBlock src (i + 1) n).entry y) node firstBlock src i
          (n + 1) := by
      intro k₁ e x hk1 hentry hx
      obtain ⟨h1, h2⟩ := ih hk1 (i + 1)
      refine ⟨h1, fun y => Installed.trans ?_ (h2 y)⟩
      rw [hentry]
      exact update_elim hx (fun _ _ => .inl rfl) y
    unfold Cache.installFrom
    simp only
    split
    · rename_i e hfind
      obtain ⟨hbusy, hn, hb⟩ := hk.find_eq_some_iff.mp hfind
      split_ifs with hl
      · refine hround (hk.flags rfl rfl rfl (iff_of_true (.inr hl) (.inr hl))) rfl
          (.inr (.inl ⟨hl, hn, hb.ge, by omega, rfl⟩))
      rw [Bool.not_eq_true] at hl
      have hstore : (k.store e fun j => src (i * blockSize + j)).Ok := by
        have h := hk.flags (e := e) (x := (k.entry e).filled fun j => src (i * blockSize + j))
          rfl rfl rfl (iff_of_true (.inl rfl) hbusy)
        refine h.lruFront ?_
        simp only [update_self]
        exact (hk.hashed e).mpr hbusy
      exact hround hstore rfl (.inr (.inr ⟨hl, i, le_rfl, Nat.lt_succ_self i, hn, hb, rfl, rfl,
        fun hj => if_pos hj⟩))
    · rename_i hfind
      have hnew := hk.find_eq_none_iff.mp hfind
      split
      · rename_i k₁ hpick
        obtain ⟨h1, h2, -⟩ := hk.pick_none hpick
        exact ⟨h1, fun e => .inl (by rw [h2])⟩
      rename_i e k₁ hpick
      obtain ⟨htaken, hready, hl, hentry⟩ := hk.pick_some hpick
      rw [install_enter _ e _ rfl]
      refine hround (htaken.enter hready (.inl rfl) fun y hy hn => ?_)
        (by simp only [Cache.enter, hentry, update_idem]; rfl)
        (.inr (.inr ⟨hl, i, le_rfl, Nat.lt_succ_self i, rfl, rfl, rfl, rfl,
          fun hj => if_pos hj⟩))
      · have hye := htaken.ne hy
        rw [hentry, update_of_ne hye] at hy hn ⊢
        exact hnew y ((hk.hashed y).mp hy) hn

/-- The blocks up to `c` have been copied to `out'`, and nothing else. -/
structure Copied (k : Cache) (node firstBlock copied : ℕ) (out : ℕ → UInt8) (n c : ℕ)
    (out' : ℕ → UInt8) (k' : Cache) : Prop where
  ok : k'.Ok
  entry : k'.entry = k.entry
  ge : copied ≤ c
  le : c ≤ copied + n
  data : ∀ j, copied ≤ j → j < c → ∃ e, (k.entry e).valid = true ∧ (k.entry e).loading = false ∧
    (k.entry e).node = node ∧ (k.entry e).block = firstBlock + j ∧
    ∀ b < blockSize, out' (j * blockSize + b) = (k.entry e).data b
  rest : ∀ j, j < copied * blockSize ∨ c * blockSize ≤ j → out' j = out j

theorem Ok.copied (hk : k.Ok) (node firstBlock copied : ℕ) (out : ℕ → UInt8) (n : ℕ) :
    Copied k node firstBlock copied out n copied out k :=
  ⟨hk, rfl, le_rfl, Nat.le_add_right _ _, fun _ h1 h2 => absurd h2 (not_lt.mpr h1), fun _ _ => rfl⟩

/-- **`block_cache_copy_hot_run`**, the loop. -/
theorem Ok.copyFrom (hk : k.Ok) (copied : ℕ) (out : ℕ → UInt8) (n : ℕ)
    {out' : ℕ → UInt8} (h : k.copyFrom node firstBlock copied out n = (c, out', k')) :
    Copied k node firstBlock copied out n c out' k' := by
  induction n generalizing k copied out with
  | zero =>
    cases h
    exact hk.copied _ _ _ _ _
  | succ n ih =>
    unfold Cache.copyFrom at h
    split at h
    · cases h
      exact hk.copied _ _ _ _ _
    rename_i e hfind
    split_ifs at h with hready
    · cases h
      exact hk.copied _ _ _ _ _
    simp only [Bool.or_eq_true, Bool.not_eq_eq_eq_not, Bool.not_true, not_or,
      Bool.not_eq_false, Bool.not_eq_true] at hready
    obtain ⟨hbusy, hn, hb⟩ := hk.find_eq_some_iff.mp hfind
    obtain ⟨h1, h2, h3, h4, h5, h6⟩ :=
      ih (hk.lruFront ((hk.hashed e).mpr hbusy)) (copied + 1) _ h
    refine ⟨h1, h2, by omega, by omega, fun j hj hjc => ?_, fun j hj => ?_⟩
    · rcases eq_or_lt_of_le hj with rfl | hj
      · refine ⟨e, hready.2, hready.1, hn, hb, fun b hb => ?_⟩
        rw [h6 _ (.inl (by rw [Nat.succ_mul]; omega)), if_pos ⟨Nat.le_add_right _ _, by
          rw [Nat.succ_mul]; omega⟩, Nat.add_sub_cancel_left]
      · exact h5 j hj hjc
    · have hmono : (copied + 1) * blockSize ≤ c * blockSize := Nat.mul_le_mul_right _ h3
      rw [h6 j (by rw [Nat.succ_mul] at *; omega), if_neg (by rw [Nat.succ_mul] at *; omega)]

/-- **`block_cache_uncached_run`**, the loop: the blocks it has passed are in no entry. -/
theorem uncachedFrom_spec (k : Cache) (node firstBlock run n : ℕ) :
    run ≤ k.uncachedFrom node firstBlock run n ∧ k.uncachedFrom node firstBlock run n ≤ run + n ∧
      (∀ j, run ≤ j → j < k.uncachedFrom node firstBlock run n →
        k.find node (firstBlock + j) = none) ∧
      (k.uncachedFrom node firstBlock run n < run + n →
        k.find node (firstBlock + k.uncachedFrom node firstBlock run n) ≠ none) := by
  induction n generalizing run with
  | zero =>
    exact ⟨le_rfl, le_rfl, fun j h1 h2 => absurd h2 (not_lt.mpr h1),
      fun h => absurd h (lt_irrefl _)⟩
  | succ n ih =>
    unfold uncachedFrom
    split
    · rename_i hsome
      exact ⟨le_rfl, Nat.le_add_right _ _, fun j h1 h2 => absurd h2 (not_lt.mpr h1),
        fun _ => Option.isSome_iff_ne_none.mp hsome⟩
    rename_i hnone
    rw [Bool.not_eq_true, Option.isSome_eq_false_iff, Option.isNone_iff_eq_none] at hnone
    obtain ⟨h1, h2, h3, h4⟩ := ih (run + 1)
    refine ⟨by omega, by omega, fun j hj hjr => ?_, fun h => h4 (by omega)⟩
    rcases eq_or_lt_of_le hj with rfl | hj
    · exact hnone
    · exact h3 j hj hjr

end Cache

end RHKernel.BlockCache
