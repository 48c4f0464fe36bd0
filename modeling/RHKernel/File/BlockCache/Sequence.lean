import RHKernel.File.BlockCache.Table

/-!
# Reads one after the other

When each call ends before the next one starts, no entry is being filled between two calls, and
every entry that holds a block holds the bytes of the device, as long as nobody writes to a cached
block behind the back of the cache.

A read then returns what the device would, with one exception. An entry holds whole blocks only, so
`block_cache_load` fails for the last block of a device whose size is no multiple of 4096. A read
gets the bytes of that block only by a transfer of several blocks at once, and stops short of it
otherwise.
-/

namespace RHKernel.BlockCache

open Cache Function Relation

variable {r : Read} {d : Device} {n : ℕ} {out : ℕ → UInt8}

namespace Read

def run (r : Read) (y : Sys) : ℕ → Read × Sys
  | 0 => (r, y)
  | n + 1 => (r.step y).1.run (r.step y).2 n

/-- The read comes to this state. -/
def Leads (r : Read) (y : Sys) (r' : Read) (y' : Sys) : Prop := ∃ n, r.run y n = (r', y')

variable {r r' r'' : Read} {y y' y'' : Sys}

theorem Leads.refl (r : Read) (y : Sys) : Leads r y r y := ⟨0, rfl⟩

theorem run_add (r : Read) (y : Sys) (m n : ℕ) :
    r.run y (m + n) = (r.run y m).1.run (r.run y m).2 n := by
  induction m generalizing r y with
  | zero => rw [zero_add]; rfl
  | succ m ih =>
    rw [Nat.succ_add]
    exact ih _ _

theorem Leads.trans (h : Leads r y r' y') (h' : Leads r' y' r'' y'') : Leads r y r'' y'' := by
  obtain ⟨m, hm⟩ := h
  obtain ⟨n, hn⟩ := h'
  exact ⟨m + n, by rw [run_add, hm, hn]⟩

theorem Leads.head (h : r.step y = (r', y')) (h' : Leads r' y' r'' y'') : Leads r y r'' y'' :=
  Leads.trans ⟨1, by rw [run, h]; rfl⟩ h'

theorem run_of_done (h : r.pc = .done) (n : ℕ) : r.run y n = (r, y) := by
  induction n with
  | zero => rfl
  | succ n ih =>
    have hstep : r.step y = (r, y) := by rw [step, h]
    rw [run, hstep, ih]

theorem Leads.unique (h : Leads r y r' y') (hd : r'.pc = .done) (h' : Leads r y r'' y'')
    (hd' : r''.pc = .done) : r' = r'' ∧ y' = y'' := by
  obtain ⟨m, hm⟩ := h
  obtain ⟨n, hn⟩ := h'
  have hkey : ∀ {a b : ℕ} {p q : Read × Sys}, r.run y a = p → r.run y (a + b) = q →
      p.1.pc = .done → q = p := by
    rintro a b p q ha rfl hp
    rw [run_add, ha]
    exact run_of_done hp b
  rcases le_total m n with hle | hle
  · obtain ⟨b, rfl⟩ := Nat.exists_eq_add_of_le hle
    have he := hkey hm hn hd
    exact ⟨(Prod.mk.inj he).1.symm, (Prod.mk.inj he).2.symm⟩
  · obtain ⟨b, rfl⟩ := Nat.exists_eq_add_of_le hle
    exact Prod.mk.inj (hkey hn hm hd')

end Read

/-! ### Entries that agree with the devices -/

/-- The entry is not being filled, and if it holds a block, then the bytes of the device. -/
def Entry.Right (dev : ℕ → Device) (x : Entry) : Prop :=
  x.loading = false ∧ (x.valid = true → (dev x.node).block = true ∧
    (x.block + 1) * blockSize ≤ (dev x.node).size ∧
    ∀ j < blockSize, x.data j = (dev x.node).byte (x.block * blockSize + j))

/-- The cache agrees with the devices. -/
structure Sys.Coherent (y : Sys) : Prop where
  ok : y.cache.Ok
  right : ∀ e, ((y.cache.entry e).Right y.dev)

variable {y y' : Sys} {node block e : ℕ}

theorem Sys.Coherent.of_entry {k : Cache} (hy : y.Coherent) (hk : k.Ok)
    (he : k.entry = y.cache.entry) : Sys.Coherent { y with cache := k } :=
  ⟨hk, fun e => by rw [he]; exact hy.right e⟩

/-- The block is wholly on the device. -/
def Device.Full (d : Device) (block : ℕ) : Prop := (block + 1) * blockSize ≤ d.size

theorem count_eq_blockSize_iff (d : Device) (block : ℕ) :
    d.count (block * blockSize) blockSize = blockSize ↔ d.Full block := by
  unfold Device.count Device.Full
  rw [Nat.succ_mul]
  have : 0 < blockSize := by decide
  omega

theorem receive_congr (h : y'.dev = y.dev) : y'.receive = y.receive := by
  funext node offset n done out j
  rw [Sys.receive, Sys.receive, h]

section Steps

variable {r : Read} {goal : Goal} {k : Cache}

theorem Read.loaded_pc (r : Read) (pc : Pc) (ok : Bool) (block : ℕ) (goal : Goal) :
    ({ r with pc := pc } : Read).loaded ok block goal = r.loaded ok block goal := by
  cases goal <;> rfl

/-- The read after a transfer to its buffer. -/
def Read.received (r : Read) (y : Sys) (n : ℕ) : Read :=
  { r with out := y.receive r.node r.abs n r.done r.out }

theorem Read.step_direct (n : ℕ) : ({ r with pc := .direct n } : Read).step y =
    if (y.dev r.node).count r.abs n = 0 then ({ r.received y n with pc := .done }, y)
    else ((r.received y n).advance ((y.dev r.node).count r.abs n) n, y) := rfl

theorem Read.step_batch (run : ℕ) : ({ r with pc := .batch run } : Read).step y =
    if (y.dev r.node).count r.abs (run * blockSize) = 0
    then ({ r.received y (run * blockSize) with pc := .done }, y)
    else if (y.dev r.node).count r.abs (run * blockSize) / blockSize = 0
    then ((r.received y (run * blockSize)).advance
      ((y.dev r.node).count r.abs (run * blockSize)) (run * blockSize), y)
    else ({ r.received y (run * blockSize) with
      pc := .install ((y.dev r.node).count r.abs (run * blockSize)) (run * blockSize) }, y) := rfl

theorem Read.step_install (got bytes : ℕ) :
    ({ r with pc := .install got bytes } : Read).step y = (r.advance got bytes,
      { y with
        cache := y.cache.installReadRun r.node (r.abs / blockSize) (got / blockSize)
          fun j => r.out (r.done + j) }) := rfl

theorem Read.step_uncachedRun : ({ r with pc := .uncachedRun } : Read).step y =
    if batchReadMin ≤ y.cache.uncachedRun r.node (r.abs / blockSize) (r.left / blockSize)
    then ({ r with
      pc := .batch (y.cache.uncachedRun r.node (r.abs / blockSize) (r.left / blockSize)) }, y)
    else ({ r with pc := .claim (r.abs / blockSize) .single }, y) := rfl

theorem Read.step_hotRun {c : ℕ} {out : ℕ → UInt8}
    (h : y.cache.copyHotRun r.node (r.abs / blockSize) (r.left / blockSize)
      (fun j => r.out (r.done + j)) = (c, out, k)) :
    ({ r with pc := .hotRun } : Read).step y =
      if c = 0 then ({ r with pc := .uncachedRun }, { y with cache := k })
      else (({ r with
        done := r.done + c * blockSize
        out := fun j => if r.done ≤ j then out (j - r.done) else r.out j } : Read).loop,
        { y with cache := k }) := by
  have hstep : ({ r with pc := .hotRun } : Read).step y =
      (let x := y.cache.copyHotRun r.node (r.abs / blockSize) (r.left / blockSize)
        (fun j => r.out (r.done + j))
      if x.1 = 0 then ({ r with pc := .uncachedRun }, { y with cache := x.2.2 })
      else (({ r with
        done := r.done + x.1 * blockSize
        out := fun j => if r.done ≤ j then x.2.1 (j - r.done) else r.out j } : Read).loop,
        { y with cache := x.2.2 })) := rfl
  rw [hstep, h]

theorem Read.step_claim_hit (hb : block ≤ uint64Max / blockSize)
    (h : y.cache.claim r.node block = (.hit e, k)) :
    ({ r with pc := .claim block goal } : Read).step y =
      (r.loaded true block goal, { y with cache := k }) := by
  simp only [step, if_neg (not_lt.mpr hb), h, loaded_pc]

theorem Read.step_claim_claimed (hb : block ≤ uint64Max / blockSize)
    (h : y.cache.claim r.node block = (.claimed e, k)) :
    ({ r with pc := .claim block goal } : Read).step y =
      ({ r with pc := .fill e block goal }, { y with cache := k }) := by
  simp only [step, if_neg (not_lt.mpr hb), h]

/-- The bytes of a block have been transferred into the entry `e`. -/
def Sys.filled (y : Sys) (node e block : ℕ) : Cache :=
  y.cache.setEntry e fun x =>
    { x with data := y.receive node (block * blockSize) blockSize 0 x.data }

theorem Read.step_settle {got : ℕ} :
    ({ r with pc := .settle e block got goal } : Read).step y =
      (r.loaded (y.cache.settle e got).1 block goal,
        { y with cache := (y.cache.settle e got).2 }) := by
  simp only [step, loaded_pc]

end Steps

open Read

/-- **`block_cache_load`** comes to its end. It succeeds if the block is wholly on the device. -/
theorem Sys.Coherent.load (hy : y.Coherent) (hdev : (y.dev r.node).block = true) (goal : Goal)
    (hb : block ≤ uint64Max / blockSize) :
    ∃ ok y', Leads { r with pc := .claim block goal } y (r.loaded ok block goal) y' ∧
      y'.Coherent ∧ y'.dev = y.dev ∧ (ok = false → ¬(y.dev r.node).Full block) ∧
      (ok = true → ∃ e, (y'.cache.entry e).valid = true ∧ (y'.cache.entry e).node = r.node ∧
        (y'.cache.entry e).block = block) := by
  cases hclaim : y.cache.claim r.node block with
  | mk c k1 =>
  cases c with
  | hit e =>
    obtain ⟨h1, h2, h3, -, h4, h5⟩ := hy.ok.claim_hit hclaim
    refine ⟨true, { y with cache := k1 }, .head (step_claim_hit hb hclaim) (.refl _ _),
      hy.of_entry h1 h2, rfl, fun h => absurd h.symm Bool.false_ne_true, fun _ => ⟨e, ?_⟩⟩
    simp only [h2]
    exact ⟨h3, h4, h5⟩
  | again =>
    obtain ⟨-, -, e, he⟩ := hy.ok.claim_again hclaim
    exact absurd ((hy.right e).1.symm.trans he) Bool.false_ne_true
  | claimed e =>
    obtain ⟨h1, -, -, h4⟩ := hy.ok.claim_claimed hclaim
    -- the entry once the transfer is over, and what becomes of it
    generalize hy1 : ({ y with cache := k1 } : Sys) = y1
    have hdev1 : y1.dev = y.dev := by rw [← hy1]
    have hk1 : y1.cache = k1 := by rw [← hy1]
    generalize hgot : (y.dev r.node).count (block * blockSize) blockSize = got
    set k2 := y1.filled r.node e block with hk2
    have hloading : (k2.entry e).loading = true := by
      simp only [hk2, Sys.filled, setEntry, hk1, h4, update_self]
      rfl
    have hfilled : k2.Ok := (hk1.symm ▸ h1).flags rfl rfl rfl .rfl
    obtain ⟨hs1, hs2, hs3⟩ := hfilled.settle hloading got
    have hother : ∀ {x}, x ≠ e → (k2.settle e got).2.entry x = y.cache.entry x := fun hx => by
      rw [hs3, update_of_ne hx]
      simp only [hk2, Sys.filled, setEntry, hk1, h4, update_of_ne hx]
    have hself : (k2.settle e got).2.entry e =
        settledEntry { claimedEntry (y.cache.entry e) r.node block with
          data := y.receive r.node (block * blockSize) blockSize 0
            (y.cache.entry e).data } got := by
      rw [hs3, update_self]
      simp only [hk2, Sys.filled, setEntry, hk1, h4, update_self, receive_congr hdev1]
      rfl
    refine ⟨(k2.settle e got).1, { y with cache := (k2.settle e got).2 }, ?_, ⟨hs1, fun x => ?_⟩,
      rfl, fun hno => ?_, fun hyes => ⟨e, ?_⟩⟩
    · refine .head (step_claim_claimed hb hclaim) (.head rfl (.head step_settle ?_))
      rw [hy1, hdev1, hgot, hk2, ← hy1]
      exact .refl _ _
    · by_cases hx : x = e
      · subst hx
        simp only [hself]
        unfold settledEntry
        split_ifs with hkeep
        · have hfull := (count_eq_blockSize_iff _ _).mp (hgot.trans hkeep.1)
          refine ⟨rfl, fun _ => ⟨hdev, hfull, fun j hj => ?_⟩⟩
          simp only [keptEntry, claimedEntry, Sys.receive, hgot, hkeep.1]
          rw [if_pos ⟨Nat.zero_le j, by omega⟩, Nat.sub_zero]
        · exact ⟨rfl, fun h => absurd h Bool.false_ne_true⟩
      · simp only [hother hx]
        exact hy.right x
    · rw [hs2, decide_eq_false_iff_not] at hno
      intro hfull
      refine hno ⟨hgot.symm.trans ((count_eq_blockSize_iff _ _).mpr hfull), ?_⟩
      simp only [hk2, Sys.filled, setEntry, hk1, h4, update_self]
      rfl
    · rw [hs2, decide_eq_true_iff] at hyes
      have hkept := hself.trans (if_pos ⟨hyes.1, rfl⟩)
      simp only [hkept]
      exact ⟨rfl, rfl, rfl⟩

/-- **`block_cache_prefetch`** comes to its end. -/
theorem Sys.Coherent.prefetch (hy : y.Coherent) (hdev : (y.dev r.node).block = true)
    {firstBlock maxBlock : ℕ} (hmax : maxBlock ≤ uint64Max / blockSize) (i : ℕ) :
    ∃ y', Leads (r.prefetch firstBlock i maxBlock) y r.loop y' ∧ y'.Coherent ∧ y'.dev = y.dev := by
  -- the rounds that are left
  induction hn : readaheadBlocks - i generalizing i y with
  | zero =>
    refine ⟨y, ?_, hy, rfl⟩
    unfold Read.prefetch
    rw [if_neg fun h => absurd h.1 (by omega)]
    exact .refl _ _
  | succ n ih =>
    unfold Read.prefetch
    split_ifs with hi
    · obtain ⟨y1, hl1, hy1, hdev1⟩ : ∃ y1, Leads { r with pc := .present firstBlock i maxBlock } y
            (r.prefetch firstBlock (i + 1) maxBlock) y1 ∧ y1.Coherent ∧ y1.dev = y.dev := by
        by_cases hfind : (y.cache.find r.node (firstBlock + i)).isSome = true
        · refine ⟨y, .head ?_ (.refl _ _), hy, rfl⟩
          simp only [Read.step, if_pos hfind]
          rfl
        · obtain ⟨ok, y1, hl, hy1, hdev1, -⟩ := hy.load (r := r) hdev
            (.prefetch firstBlock i maxBlock) (hi.2.2.trans hmax)
          refine ⟨y1, .head ?_ hl, hy1, hdev1⟩
          simp only [Read.step, if_neg hfind]
      obtain ⟨y2, hl2, hy2, hdev2⟩ := ih hy1 (by rw [hdev1]; exact hdev) (i + 1) (by omega)
      exact ⟨y2, hl1.trans hl2, hy2, hdev2.trans hdev1⟩
    · exact ⟨y, .refl _ _, hy, rfl⟩

/-! ### The bytes that a read has got -/

/-- The read has got the bytes of the device so far. -/
structure Read.Sound (r : Read) (d : Device) : Prop where
  fit : r.offset + r.size ≤ uint64Max
  le : r.done ≤ r.size
  inside : r.done = 0 ∨ r.offset + r.done ≤ d.size
  bytes : ∀ j < r.done, r.out j = d.byte (r.offset + j)

def Read.take (r : Read) (n : ℕ) (out : ℕ → UInt8) : Read :=
  { r with done := r.done + n, out := out }

theorem Read.Sound.take (hr : r.Sound d) (hn : n ≤ r.left) (hin : r.abs + n ≤ d.size)
    (hold : ∀ j < r.done, out j = r.out j) (hnew : ∀ j < n, out (r.done + j) = d.byte (r.abs + j)) :
    (r.take n out).Sound d where
  fit := hr.fit
  le := by
    have := hr.le
    unfold Read.left at hn
    simp only [Read.take]
    omega
  inside := by
    unfold Read.abs at hin
    simp only [Read.take]
    omega
  bytes j hj := by
    simp only [Read.take] at hj ⊢
    by_cases hlt : j < r.done
    · rw [hold j hlt, hr.bytes j hlt]
    · obtain ⟨b, rfl⟩ := Nat.exists_eq_add_of_le (not_lt.mp hlt)
      rw [hnew b (by omega), Read.abs, add_assoc]

theorem Read.Sound.receive (hr : r.Sound (y.dev r.node)) {got : ℕ}
    (hgot : (y.dev r.node).count r.abs n = got) (hn : n ≤ r.left) (hpos : got ≠ 0) :
    (r.take got (y.receive r.node r.abs n r.done r.out)).Sound (y.dev r.node) := by
  have hc : got ≤ n ∧ got ≤ (y.dev r.node).size - r.abs := by
    rw [← hgot]
    exact ⟨min_le_left _ _, min_le_right _ _⟩
  refine hr.take (hc.1.trans hn) (by omega) (fun j hj => ?_) fun j hj => ?_
  · rw [Sys.receive, if_neg fun h => absurd h.1 (not_le.mpr hj)]
  · rw [Sys.receive, hgot, if_pos ⟨Nat.le_add_right _ _, by omega⟩, Nat.add_sub_cancel_left]

theorem Sys.Coherent.copy (hy : y.Coherent) (hdev : (y.dev r.node).block = true)
    (hr : r.Sound (y.dev r.node))
    (he : (y.cache.entry e).valid = true ∧ (y.cache.entry e).node = r.node ∧
      (y.cache.entry e).block = r.abs / blockSize) :
    ∃ out y', Leads { r with pc := .copy (r.abs / blockSize) } y (r.take r.chunk out).loop y' ∧
      y'.Coherent ∧ y'.dev = y.dev ∧ (r.take r.chunk out).Sound (y.dev r.node) ∧
      (y.dev r.node).Full (r.abs / blockSize) := by
  obtain ⟨hv, hn, hb⟩ := he
  obtain ⟨hl, hright⟩ := hy.right e
  obtain ⟨-, hfull, hbytes⟩ := hright hv
  rw [hn, hb] at hfull hbytes
  have hfind : y.cache.find r.node (r.abs / blockSize) = some e :=
    hy.ok.find_eq_some_iff.mpr ⟨.inl hv, hn, hb⟩
  have hchunk : r.chunk ≤ blockSize - r.abs % blockSize ∧ r.chunk ≤ r.left :=
    ⟨min_le_left _ _, min_le_right _ _⟩
  have hmod : r.abs / blockSize * blockSize + r.abs % blockSize = r.abs := Nat.div_add_mod' _ _
  have hltb : r.abs % blockSize < blockSize := Nat.mod_lt _ (by decide)
  generalize hout : (fun j => if r.done ≤ j ∧ j < r.done + r.chunk
    then (y.cache.entry e).data (r.abs % blockSize + (j - r.done)) else r.out j) = out
  have hsound : (r.take r.chunk out).Sound (y.dev r.node) := by
    refine hr.take hchunk.2 ?_ (fun j hj => ?_) fun j hj => ?_
    · rw [Nat.succ_mul] at hfull
      omega
    · rw [← hout]
      exact if_neg fun h => absurd h.1 (not_le.mpr hj)
    rw [← hout]
    simp only
    rw [if_pos ⟨Nat.le_add_right _ _, by omega⟩, Nat.add_sub_cancel_left, hbytes _ (by omega)]
    congr 1
    omega
  have hfront : Sys.Coherent { y with cache := y.cache.lruFront e } :=
    hy.of_entry (hy.ok.lruFront ((hy.ok.hashed e).mpr (.inl hv))) rfl
  -- read-ahead or not, the loop goes on
  obtain ⟨y', hl', hy', hdev'⟩ : ∃ y', Leads
      (if r.abs % blockSize + r.chunk = blockSize ∧ (r.take r.chunk out).done < r.size
        then (r.take r.chunk out).prefetch (r.abs / blockSize + 1) 0
          ((r.offset + r.size - 1) / blockSize)
        else (r.take r.chunk out).loop)
      { y with cache := y.cache.lruFront e } (r.take r.chunk out).loop y' ∧
      y'.Coherent ∧ y'.dev = y.dev := by
    split
    · refine hfront.prefetch (r := r.take r.chunk out) hdev (Nat.div_le_div_right ?_) 0
      have := hr.fit
      omega
    · exact ⟨_, .refl _ _, hfront, rfl⟩
  refine ⟨out, y', .head ?_ hl', hy', hdev', hsound, hfull⟩
  simp only [Read.step, hfind, hl, Bool.false_eq_true, if_false]
  rw [apply_ite (fun x => (x, ({ y with cache := y.cache.lruFront e } : Sys))), ← hout]
  rfl

/-- The block at `abs` is read through an entry: it is read to its end, or to the end of what is
asked for, or it is not wholly on the device and the read ends. -/
theorem Sys.Coherent.single (hy : y.Coherent) (hdev : (y.dev r.node).block = true)
    (hr : r.Sound (y.dev r.node)) :
    (∃ y', Leads { r with pc := .claim (r.abs / blockSize) .single } y { r with pc := .done } y' ∧
        y'.Coherent ∧ y'.dev = y.dev ∧ ¬(y.dev r.node).Full (r.abs / blockSize)) ∨
      ∃ out y', Leads { r with pc := .claim (r.abs / blockSize) .single } y
          (r.take r.chunk out).loop y' ∧ y'.Coherent ∧ y'.dev = y.dev ∧
        (r.take r.chunk out).Sound (y.dev r.node) ∧ (y.dev r.node).Full (r.abs / blockSize) := by
  have hb : r.abs / blockSize ≤ uint64Max / blockSize := by
    have h1 := hr.fit
    have h2 := hr.le
    exact Nat.div_le_div_right (by unfold Read.abs; omega)
  obtain ⟨ok, y1, hl, hy1, hdev1, hno, hyes⟩ := hy.load (r := r) hdev .single hb
  cases ok with
  | false => exact .inl ⟨y1, hl, hy1, hdev1, hno rfl⟩
  | true =>
    obtain ⟨e, he⟩ := hyes rfl
    obtain ⟨out, y2, hl2, hy2, hdev2, hs, hfull⟩ :=
      hy1.copy (by rw [hdev1]; exact hdev) (by rw [hdev1]; exact hr) he
    rw [hdev1] at hs hfull
    exact .inr ⟨out, y2, hl.trans hl2, hy2, hdev2.trans hdev1, hs, hfull⟩

/-! ### The last block of a device -/

/-- A read from `abs` up to `stop` does not come to a last block that is not whole, or it gets it by
a transfer of several blocks whatever is in the cache. -/
def Device.Covered (d : Device) (abs stop : ℕ) : Prop :=
  d.size % blockSize = 0 ∨ stop ≤ d.size / blockSize * blockSize ∨ d.size ≤ abs ∨
    abs ≤ d.size / blockSize * blockSize ∧ ((d.size / blockSize + 2) * blockSize ≤ stop ∨
      (d.size / blockSize + 1) * blockSize ≤ stop ∧
        (abs + (blockSize - 1)) / blockSize * blockSize + directTailMin ≤ stop)

/-- The read begins or ends inside the last block, which is not whole. -/
def Device.Cut (d : Device) (abs stop : ℕ) : Prop :=
  d.size % blockSize ≠ 0 ∧ abs < d.size ∧ abs < stop ∧ d.size / blockSize * blockSize < stop ∧
    (stop < (d.size / blockSize + 1) * blockSize ∨ d.size / blockSize * blockSize < abs)

/-- How a read has ended. -/
structure Read.Ended (r r' : Read) (d : Device) : Prop where
  done : r'.pc = .done
  offset : r'.offset = r.offset
  size : r'.size = r.size
  sound : r'.Sound d
  covered : d.Covered r.abs (r.offset + r.size) → r'.done = d.count r.offset r.size
  cut : d.Cut r.abs (r.offset + r.size) → r'.done ≠ d.count r.offset r.size

theorem Read.Ended.of_take {r' : Read} (h : (r.take n out).Ended r' d)
    (hcov : d.Covered r.abs (r.offset + r.size) → d.Covered (r.abs + n) (r.offset + r.size))
    (hcut : d.Cut r.abs (r.offset + r.size) → d.Cut (r.abs + n) (r.offset + r.size)) :
    r.Ended r' d := by
  have habs : (r.take n out).abs = r.abs + n := (add_assoc _ _ _).symm
  refine { h with covered := fun hc => ?_, cut := fun hc => ?_ }
  · exact h.covered (habs ▸ hcov hc)
  · exact h.cut (habs ▸ hcut hc)

theorem Read.Ended.here (hr : r.Sound d)
    (hcov : d.Covered r.abs (r.offset + r.size) → r.done = d.count r.offset r.size)
    (hcut : ¬d.Cut r.abs (r.offset + r.size) ∨ r.done ≠ d.count r.offset r.size) :
    r.Ended { r with pc := .done } d :=
  ⟨rfl, rfl, rfl, { hr with }, hcov, fun hc => hcut.resolve_left (not_not_intro hc)⟩

theorem Read.Ended.past (hr : r.Sound d) (h : d.size ≤ r.abs) :
    r.Ended { r with pc := .done } d := by
  refine .here hr (fun _ => ?_) (.inl fun hc => absurd hc.2.1 (not_lt.mpr h))
  have h1 := hr.le
  have h2 := hr.inside
  unfold Read.abs at h
  unfold Device.count
  omega

theorem Read.Ended.short (hr : (r.take n out).Sound d) (h : r.abs + n = d.size)
    (hcut : ¬d.Cut r.abs (r.offset + r.size)) : r.Ended { r.take n out with pc := .done } d := by
  refine ⟨rfl, rfl, rfl, { hr with }, fun _ => ?_, fun hc => absurd hc hcut⟩
  have h1 := hr.le
  unfold Read.abs at h
  simp only [Device.count, Read.take] at h1 ⊢
  omega

theorem Read.received_of_count_eq_zero (h : (y.dev r.node).count r.abs n = 0) :
    r.received y n = r := by
  have hout : y.receive r.node r.abs n r.done r.out = r.out := by
    funext j
    exact if_neg fun hj => by omega
  rw [Read.received, hout]

section Arithmetic

variable {d : Device} {abs stop n : ℕ}

/-- A read of whole blocks from the start of a block keeps the two conditions, unless a direct
transfer would have been made. -/
theorem Device.Covered.blocks (h : d.Covered abs stop) (ha : abs % blockSize = 0)
    (hn : n % blockSize = 0)
    (hless : stop < abs + directTailMin ∨ n = (stop - abs) / blockSize * blockSize) :
    d.Covered (abs + n) stop := by
  simp only [Covered, blockSize, directTailMin, directThreshold] at *
  omega

theorem Device.Cut.blocks (h : d.Cut abs stop) (ha : abs % blockSize = 0)
    (hn : n % blockSize = 0) (hin : abs + n ≤ d.size) : d.Cut (abs + n) stop := by
  simp only [Cut, blockSize] at *
  omega

/-- Whole blocks up to the end of a cut read are on the device. -/
theorem Device.Cut.le_size (h : d.Cut abs stop) (ha : abs % blockSize = 0)
    (hn : n % blockSize = 0) (hstop : abs + n ≤ stop) : abs + n ≤ d.size := by
  simp only [Cut, blockSize] at *
  omega

end Arithmetic

/-- What a round of the loop comes to when it stands at `p`: the read ends, or it has got something
and goes on. -/
inductive Read.Round (r p : Read) (y : Sys) : Prop
  | ended {r' : Read} {y' : Sys} (hl : Leads p y r' y') (hy : y'.Coherent) (hdev : y'.dev = y.dev)
      (h : r.Ended r' (y.dev r.node)) : Read.Round r p y
  | goes {n : ℕ} {out : ℕ → UInt8} {y' : Sys} (hn : n ≠ 0) (hl : Leads p y (r.take n out).loop y')
      (hy : y'.Coherent) (hdev : y'.dev = y.dev) (hs : (r.take n out).Sound (y.dev r.node))
      (hcov : (y.dev r.node).Covered r.abs (r.offset + r.size) →
        (y.dev r.node).Covered (r.abs + n) (r.offset + r.size))
      (hcut : (y.dev r.node).Cut r.abs (r.offset + r.size) →
        (y.dev r.node).Cut (r.abs + n) (r.offset + r.size)) : Read.Round r p y

section Rounds

variable {r : Read}

theorem Read.Round.head {p p' : Read} {y1 : Sys} (hstep : p.step y = (p', y1))
    (hdev : y1.dev = y.dev) (h : r.Round p' y1) : r.Round p y := by
  cases h with
  | ended hl hy hdev' h => exact .ended (.head hstep hl) hy (hdev'.trans hdev) (hdev ▸ h)
  | goes hn hl hy hdev' hs hcov hcut =>
    rw [hdev] at hs hcov hcut
    exact .goes hn (.head hstep hl) hy (hdev'.trans hdev) hs hcov hcut

theorem Read.Sound.stop (hr : r.Sound (y.dev r.node)) : r.abs + r.left = r.offset + r.size := by
  have := hr.le
  unfold Read.abs Read.left
  omega

theorem Sys.Coherent.round_advance {p : Read} {y1 : Sys} {n got : ℕ} (hy1 : y1.Coherent)
    (hdev1 : y1.dev = y.dev) (hr : r.Sound (y.dev r.node)) (ha : r.abs % blockSize = 0)
    (hn : n % blockSize = 0) (hleft : n ≤ r.left)
    (hless : r.left < directTailMin ∨ n = r.left / blockSize * blockSize)
    (hgot : (y.dev r.node).count r.abs n = got) (hpos : got ≠ 0)
    (hl : Leads p y ((r.received y n).advance got n) y1) : r.Round p y := by
  have hs := hr.receive hgot hleft hpos
  have hstop := hr.stop
  have hc : got ≤ n ∧ (got = n ∧ r.abs + n ≤ (y.dev r.node).size ∨
      got ≠ n ∧ r.abs + got = (y.dev r.node).size) := by
    unfold Device.count at hgot
    omega
  unfold Read.advance at hl
  by_cases hfull : got = n
  · rw [if_pos hfull] at hl
    have hin : r.abs + got ≤ (y.dev r.node).size := by omega
    refine .goes hpos hl hy1 hdev1 hs (fun h => h.blocks ha (hfull ▸ hn) ?_)
      fun h => h.blocks ha (hfull ▸ hn) hin
    rcases hless with h | h
    · exact .inl (by omega)
    · exact .inr (by rw [hfull, h, ← hstop, Nat.add_sub_cancel_left])
  · rw [if_neg hfull] at hl
    refine .ended hl hy1 hdev1 (.short hs (by omega) fun h => ?_)
    have := h.le_size ha hn (by omega)
    omega

variable (hy : y.Coherent)

include hy

theorem Sys.Coherent.round_direct (hr : r.Sound (y.dev r.node))
    (hdirect : alignedTail r.abs r.left ≠ 0) :
    r.Round { r with pc := .direct (alignedTail r.abs r.left) } y := by
  unfold alignedTail at *
  split_ifs at hdirect with h
  · exact absurd rfl hdirect
  rw [if_neg h]
  rw [not_or, not_not] at h
  generalize hgot : (y.dev r.node).count r.abs (r.left / blockSize * blockSize) = got
  by_cases hzero : got = 0
  · refine .ended (.head ?_ (.refl _ _)) hy rfl (.past hr ?_)
    · rw [step_direct, if_pos (hgot.trans hzero), received_of_count_eq_zero (hgot.trans hzero)]
    · unfold Device.count at hgot
      omega
  · refine hy.round_advance rfl hr h.1 (Nat.mul_mod_left _ _) (Nat.div_mul_le_self _ _)
      (.inr rfl) hgot hzero (.head ?_ (.refl _ _))
    rw [step_direct, hgot, if_neg hzero]

/-- A run of blocks that was read from the device is put into the cache. -/
theorem Sys.Coherent.install (hdev : (y.dev node).block = true) {abs blocks : ℕ}
    (ha : abs % blockSize = 0) {src : ℕ → UInt8}
    (hin : abs + blocks * blockSize ≤ (y.dev node).size)
    (hsrc : ∀ j < blocks * blockSize, src j = (y.dev node).byte (abs + j)) :
    Sys.Coherent { y with cache := y.cache.installReadRun node (abs / blockSize) blocks src } := by
  obtain ⟨h1, h2⟩ := hy.ok.installFrom node (abs / blockSize) src 0 (min blocks batchReadBlocks)
  refine ⟨h1, fun e => ?_⟩
  rcases h2 e with he | ⟨hl, -⟩ | ⟨-, i, -, hi, hst⟩
  · simp only [Cache.installReadRun, he]
    exact hy.right e
  · exact absurd ((hy.right e).1.symm.trans hl) Bool.false_ne_true
  refine ⟨hst.loading, fun _ => ?_⟩
  simp only [Cache.installReadRun, hst.node, hst.block]
  have hi' : i < blocks := by omega
  have habs : abs / blockSize * blockSize = abs := Nat.div_mul_cancel (Nat.dvd_of_mod_eq_zero ha)
  have hmul : (i + 1) * blockSize ≤ blocks * blockSize := Nat.mul_le_mul_right _ hi'
  rw [Nat.succ_mul] at hmul
  refine ⟨hdev, ?_, fun j hj => ?_⟩
  · rw [Nat.succ_mul, Nat.add_mul, habs]
    omega
  · rw [hst.data hj, hsrc _ (by omega), Nat.add_mul, habs, add_assoc]

variable (hdev : (y.dev r.node).block = true)

include hdev

variable (hr : r.Sound (y.dev r.node))

include hr

theorem Sys.Coherent.round_batch (ha : r.abs % blockSize = 0) (hless : r.left < directTailMin)
    {run : ℕ} (hpos : 0 < run) (hrun : run ≤ r.left / blockSize) :
    r.Round { r with pc := .batch run } y := by
  have hbytes : run * blockSize ≤ r.left :=
    (Nat.mul_le_mul_right _ hrun).trans (Nat.div_mul_le_self _ _)
  have hb : 0 < run * blockSize := Nat.mul_pos hpos (by decide)
  generalize hgot : (y.dev r.node).count r.abs (run * blockSize) = got
  have hle : got ≤ run * blockSize ∧ got ≤ (y.dev r.node).size - r.abs := by
    rw [← hgot]
    exact ⟨min_le_left _ _, min_le_right _ _⟩
  by_cases hzero : got = 0
  · refine .ended (.head ?_ (.refl _ _)) hy rfl (.past hr ?_)
    · rw [step_batch, if_pos (hgot.trans hzero), received_of_count_eq_zero (hgot.trans hzero)]
    · unfold Device.count at hgot
      omega
  by_cases hnone : got / blockSize = 0
  · refine hy.round_advance rfl hr ha (Nat.mul_mod_left _ _) hbytes (.inl hless) hgot hzero
      (.head ?_ (.refl _ _))
    rw [step_batch, hgot, if_neg hzero, if_pos hnone]
  have hfull : got / blockSize * blockSize ≤ got := Nat.div_mul_le_self _ _
  have hinst : Sys.Coherent { y with
      cache := y.cache.installReadRun r.node (r.abs / blockSize) (got / blockSize)
        fun j => (r.received y (run * blockSize)).out (r.done + j) } := by
    refine hy.install hdev ha (by omega) fun j hj => ?_
    simp only [Read.received, Sys.receive, hgot]
    rw [if_pos ⟨Nat.le_add_right _ _, by omega⟩, Nat.add_sub_cancel_left]
  refine hinst.round_advance rfl hr ha (Nat.mul_mod_left _ _) hbytes (.inl hless) hgot hzero
    (.head ?_ (.head (step_install (r := r.received y (run * blockSize)) got (run * blockSize))
      (.refl _ _)))
  rw [step_batch, hgot, if_neg hzero, if_neg hnone]

/-- One block through an entry. `hfail` is the case that it is the last one and not whole. -/
theorem Sys.Coherent.round_single (hlt : r.done < r.size)
    (hless : r.left < directTailMin ∨ r.abs % blockSize ≠ 0)
    (hfail : r.abs < (y.dev r.node).size → ¬(y.dev r.node).Full (r.abs / blockSize) →
      ¬(y.dev r.node).Covered r.abs (r.offset + r.size)) :
    r.Round { r with pc := .claim (r.abs / blockSize) .single } y := by
  have hstop := hr.stop
  have hleft : 0 < r.left := Nat.sub_pos_of_lt hlt
  rcases hy.single hdev hr with ⟨y', hl, hy', hdev', hnot⟩ | ⟨out, y', hl, hy', hdev', hs, hfull⟩
  · refine .ended hl hy' hdev' ?_
    by_cases hin : (y.dev r.node).size ≤ r.abs
    · exact .past hr hin
    · refine .here hr (fun hc => absurd hc (hfail (not_le.mp hin) hnot)) (.inr ?_)
      unfold Read.abs at hin
      unfold Device.count
      omega
  · refine .goes ?_ hl hy' hdev' hs (fun hc => ?_) fun hc => ?_ <;>
      simp only [Read.chunk, Device.Covered, Device.Cut, Device.Full, blockSize, directTailMin,
        directThreshold] at *
    · omega
    · omega
    · omega

/-- Whole blocks: those in the cache, a batch of those that are not, or a single one. -/
theorem Sys.Coherent.round_hotRun (hlt : r.done < r.size) (hless : r.left < directTailMin)
    (hwhole : r.abs % blockSize = 0 ∧ blockSize ≤ r.left) : r.Round { r with pc := .hotRun } y := by
  have hstop := hr.stop
  have habs : r.abs / blockSize * blockSize = r.abs :=
    Nat.div_mul_cancel (Nat.dvd_of_mod_eq_zero hwhole.1)
  cases hcopy : y.cache.copyHotRun r.node (r.abs / blockSize) (r.left / blockSize)
    (fun j => r.out (r.done + j)) with
  | mk c x =>
  obtain ⟨out, k⟩ := x
  obtain ⟨h1, h2, -, h4, h5, -⟩ := hy.ok.copyFrom 0 _ _ hcopy
  have hy1 : Sys.Coherent { y with cache := k } := hy.of_entry h1 h2
  by_cases hc : c = 0
  · have hstep : ({ r with pc := .hotRun } : Read).step y =
        ({ r with pc := .uncachedRun }, { y with cache := k }) := by
      rw [step_hotRun hcopy, if_pos hc]
    refine .head hstep rfl ?_
    obtain ⟨-, hu2, -, hu4⟩ := k.uncachedFrom_spec r.node (r.abs / blockSize) 0
      (min (r.left / blockSize) batchReadBlocks)
    rw [zero_add] at hu2 hu4
    by_cases hrun : batchReadMin ≤ k.uncachedRun r.node (r.abs / blockSize) (r.left / blockSize)
    · refine .head (step_uncachedRun.trans (if_pos hrun)) rfl
        (hy1.round_batch hdev hr hwhole.1 hless (lt_of_lt_of_le (by decide) hrun)
          (hu2.trans (min_le_left _ _)))
    refine .head (step_uncachedRun.trans (if_neg hrun)) rfl
      (hy1.round_single hdev hr hlt (.inl hless) fun hin hnot hcov => ?_)
    -- if two whole blocks were left, the run would have been longer
    have htwo : r.left / blockSize < 2 := by
      by_contra htwo
      have hcap : (2 : ℕ) ≤ batchReadBlocks := by decide
      have hmin : batchReadMin = 2 := rfl
      unfold Cache.uncachedRun at hrun
      obtain ⟨e, he⟩ := Option.ne_none_iff_exists'.mp (hu4 (by omega))
      obtain ⟨hbusy, hn, hb⟩ := h1.find_eq_some_iff.mp he
      obtain ⟨hl, hright⟩ := hy1.right e
      obtain ⟨-, hfull, -⟩ := hright (hbusy.resolve_right (by rw [hl]; exact Bool.false_ne_true))
      simp only [hn, hb] at hfull
      refine hnot (le_trans (Nat.mul_le_mul_right _ ?_) hfull)
      omega
    simp only [Device.Covered, Device.Full, blockSize, directTailMin, directThreshold] at *
    omega
  · have hcount : c * blockSize ≤ r.left :=
      (Nat.mul_le_mul_right _ ((Nat.zero_add _ ▸ h4).trans (min_le_left _ _))).trans
        (Nat.div_mul_le_self _ _)
    have hblock : ∀ i < c, r.abs + (i + 1) * blockSize ≤ (y.dev r.node).size ∧
        ∀ b < blockSize, out (i * blockSize + b) =
          (y.dev r.node).byte (r.abs + (i * blockSize + b)) := by
      intro i hi
      obtain ⟨e, hv, -, hn, hb, hout⟩ := h5 i (Nat.zero_le i) hi
      obtain ⟨-, hfull, hbytes⟩ := (hy.right e).2 hv
      rw [hn, hb] at hfull hbytes
      rw [Nat.add_assoc, Nat.add_mul, habs] at hfull
      refine ⟨hfull, fun b hlt => ?_⟩
      rw [hout b hlt, hbytes b hlt, Nat.add_mul, habs, Nat.add_assoc]
    have hin : r.abs + c * blockSize ≤ (y.dev r.node).size := by
      have h := (hblock (c - 1) (by omega)).1
      rwa [Nat.sub_add_cancel (by omega)] at h
    refine .goes (n := c * blockSize) (by simp only [blockSize]; omega) (.head
      ((step_hotRun hcopy).trans (if_neg hc)) (.refl _ _)) hy1 rfl (hr.take hcount hin
      (fun j hj => if_neg (Nat.not_le.mpr hj)) fun j hj => ?_)
      (fun h => h.blocks hwhole.1 (Nat.mul_mod_left _ _) (.inl (by omega)))
      fun h => h.blocks hwhole.1 (Nat.mul_mod_left _ _) hin
    have hj' := (hblock (j / blockSize) (Nat.div_lt_of_lt_mul (by rwa [Nat.mul_comm]))).2
      (j % blockSize) (Nat.mod_lt _ (by decide))
    rw [Nat.div_add_mod'] at hj'
    rw [if_pos (Nat.le_add_right _ _), Nat.add_sub_cancel_left, hj']

/-- **The loop of `cached_block_read`** comes to its end. -/
theorem Sys.Coherent.loop :
    ∃ r' y', Leads r.loop y r' y' ∧ y'.Coherent ∧ y'.dev = y.dev ∧ r.Ended r' (y.dev r.node) := by
  induction hn : r.size - r.done using Nat.strong_induction_on generalizing r y with
  | _ n ih =>
  by_cases hlt : r.done < r.size
  · have hround : r.Round r.loop y := by
      unfold Read.loop
      rw [if_pos hlt]
      split
      · rename_i hdirect
        exact hy.round_direct hr hdirect
      rename_i hdirect
      have hless : r.left < directTailMin ∨ r.abs % blockSize ≠ 0 := by
        by_contra hno
        rw [not_or, not_not] at hno
        refine hdirect ?_
        unfold alignedTail
        rw [if_neg fun h => hno.1 (h.resolve_left (not_not_intro hno.2))]
        have h8 : directTailMin = 8 * blockSize := rfl
        have : 8 ≤ r.left / blockSize := (Nat.le_div_iff_mul_le (by decide)).mpr (by omega)
        exact ne_of_gt (Nat.mul_pos (by omega) (by decide))
      split_ifs with hwhole
      · exact hy.round_hotRun hdev hr hlt (hless.resolve_right (not_not_intro hwhole.1)) hwhole
      have hstop := hr.stop
      have hleft : 0 < r.left := Nat.sub_pos_of_lt hlt
      refine hy.round_single hdev hr hlt hless fun hin hnot hcov => ?_
      simp only [Device.Covered, Device.Full, blockSize, directTailMin, directThreshold] at *
      omega
    cases hround with
    | ended hl hy' hdev' h => exact ⟨_, _, hl, hy', hdev', h⟩
    | @goes m out y1 hm hl hy1 hdev1 hs hcov hcut =>
      have hfewer : (r.take m out).size - (r.take m out).done < n := by
        simp only [Read.take]
        omega
      obtain ⟨r', y', hl', hy', hdev', hend⟩ := ih _ hfewer hy1 (by rw [hdev1]; exact hdev)
        (by rw [hdev1]; exact hs) rfl
      rw [hdev1] at hend
      exact ⟨r', y', hl.trans hl', hy', hdev'.trans hdev1, hend.of_take hcov hcut⟩
  · have hle := hr.le
    unfold Read.loop
    rw [if_neg hlt]
    refine ⟨_, y, .refl _ _, hy, rfl, .here hr (fun _ => ?_) (.inl fun hc => ?_)⟩
    · have hin := hr.inside
      unfold Device.count
      omega
    · have h := hc.2.2.1
      unfold Read.abs at h
      omega

end Rounds

/-! ### Calls -/

/-- What `vfs::read` returns: this many bytes, and these. -/
def Device.Same (d : Device) (offset size done : ℕ) (out : ℕ → UInt8) : Prop :=
  done = d.count offset size ∧ ∀ j < done, out j = d.byte (offset + j)

/-- The reads that return what the device would. -/
def Device.Readable (d : Device) (offset size : ℕ) : Prop :=
  d.block = false ∨ offset + size ≤ uint64Max ∧ d.Covered offset (offset + size) ∨ d.size ≤ offset

/-- The reads that return less. -/
def Device.Unreadable (d : Device) (offset size : ℕ) : Prop :=
  d.block = true ∧ (uint64Max < offset + size ∧ offset < d.size ∨ d.Cut offset (offset + size))

theorem Read.direct_leads (h0 : r.done = 0) :
    ∃ r', Leads { r with pc := .direct r.size } y r' y ∧ r'.pc = .done ∧
      (y.dev r.node).Same r.offset r.size r'.done r'.out := by
  have habs : r.abs = r.offset := by rw [Read.abs, h0, add_zero]
  have hcount : (y.dev r.node).count r.abs r.size = (y.dev r.node).count r.offset r.size := by
    rw [habs]
  have hbytes : ∀ j < (y.dev r.node).count r.offset r.size,
      (r.received y r.size).out j = (y.dev r.node).byte (r.offset + j) := by
    intro j hj
    simp only [Read.received, Sys.receive, h0, habs]
    rw [if_pos ⟨Nat.zero_le j, by omega⟩, Nat.sub_zero]
  by_cases hzero : (y.dev r.node).count r.abs r.size = 0
  · refine ⟨_, .head ((step_direct _).trans (if_pos hzero)) (.refl _ _), rfl, ?_, fun j hj => ?_⟩
    · rw [← hcount, hzero]
      exact h0
    · exact absurd (h0 ▸ hj) (Nat.not_lt_zero j)
  refine ⟨_, .head ((step_direct _).trans (if_neg hzero)) (.refl _ _), ?_⟩
  have hdone : (r.received y r.size).done + (y.dev r.node).count r.abs r.size =
      (y.dev r.node).count r.offset r.size := by
    rw [hcount]
    exact (congrArg (· + _) h0).trans (zero_add _)
  unfold Read.advance
  split_ifs with hall
  · unfold Read.loop
    rw [if_neg (not_lt.mpr (hdone.trans (hcount ▸ hall)).ge)]
    exact ⟨rfl, hdone, fun j hj => hbytes j (hdone ▸ hj)⟩
  · exact ⟨rfl, hdone, fun j hj => hbytes j (hdone ▸ hj)⟩

/-- **`cached_block_read`** on a cache that agrees with the devices. -/
theorem Sys.Coherent.read (hy : y.Coherent) {offset : ℕ} (hoffset : offset ≤ uint64Max)
    (node size : ℕ) (buffer : ℕ → UInt8) :
    ∃ r' y', Leads (Read.start y node offset size buffer) y r' y' ∧ r'.pc = .done ∧ y'.Coherent ∧
      y'.dev = y.dev ∧
      ((y.dev node).Readable offset size → (y.dev node).Same offset size r'.done r'.out) ∧
      ((y.dev node).Unreadable offset size → r'.done ≠ (y.dev node).count offset size) := by
  unfold Read.start
  split
  · rename_i hb
    obtain ⟨r', hl, hd, hsame⟩ := direct_leads (y := y)
      (r := ⟨node, offset, size, 0, buffer, .done⟩) rfl
    exact ⟨r', y, hl, hd, hy, rfl, fun _ => hsame,
      fun h => absurd (hb.symm.trans h.1) Bool.false_ne_true⟩
  rename_i hb
  rw [Bool.not_eq_false] at hb
  split
  · rename_i hwrap
    refine ⟨_, y, .refl _ _, rfl, hy, rfl,
      fun h => ⟨?_, fun j hj => absurd hj (Nat.not_lt_zero j)⟩, fun h => ?_⟩
    · change 0 = min size ((y.dev node).size - offset)
      rcases h with h | h | h
      · exact absurd (hb.symm.trans h).symm Bool.false_ne_true
      · omega
      · omega
    · change 0 ≠ min size ((y.dev node).size - offset)
      rcases h.2 with h | h
      · omega
      · have h1 := h.2.1
        omega
  · rename_i hwrap
    split_ifs with hdirect
    · obtain ⟨r', hl, hd, hsame⟩ := direct_leads (y := y)
        (r := ⟨node, offset, size, 0, buffer, .done⟩) rfl
      refine ⟨r', y, hl, hd, hy, rfl, fun _ => hsame, fun h => ?_⟩
      rcases h.2 with h | h
      · omega
      · simp only [directIo, Device.Cut, blockSize] at *
        omega
    obtain ⟨r', y', hl, hy', hdev', hend⟩ := hy.loop
      (r := ⟨node, offset, size, 0, buffer, .done⟩) hb
      ⟨by simp only; omega, Nat.zero_le _, .inl rfl, fun j hj => absurd hj (Nat.not_lt_zero j)⟩
    have hbytes := hend.sound.bytes
    rw [hend.offset] at hbytes
    refine ⟨r', y', hl, hend.done, hy', hdev', fun h => ?_, fun h => ?_⟩
    · rcases h with h | h | h
      · exact absurd (hb.symm.trans h).symm Bool.false_ne_true
      · exact ⟨hend.covered h.2, hbytes⟩
      · exact ⟨hend.covered (.inr (.inr (.inl h))), hbytes⟩
    · rcases h.2 with h | h
      · omega
      · exact hend.cut h

/-- `cached_block_write`, which takes at most two steps. -/
def Write.run (w : Write) (y : Sys) : Write × Sys := (w.step y).1.step (w.step y).2

/-- A call on the node of a device. -/
inductive Call where
  | blockRead (node offset size : ℕ) (buffer : ℕ → UInt8)
  | blockWrite (node offset size : ℕ) (buffer : ℕ → UInt8)
  | vfsRead (node offset size : ℕ)
  | vfsWrite (node offset size : ℕ) (buffer : ℕ → UInt8)

/-- A call from its start to its end. -/
inductive Call.Step : Call → Sys → Sys → Prop
  | blockRead {y y' : Sys} {r' : Read} {node offset size : ℕ} {buffer : ℕ → UInt8}
      (hoffset : offset ≤ uint64Max)
      (hl : Leads (Read.start y node offset size buffer) y r' y')
      (hd : r'.pc = .done) : Call.Step (.blockRead node offset size buffer) y y'
  | blockWrite {y : Sys} {node offset size : ℕ} {buffer : ℕ → UInt8} :
      Call.Step (.blockWrite node offset size buffer) y
        ((Write.start y node offset size buffer).run y).2
  | vfsRead {y : Sys} {node offset size : ℕ} : Call.Step (.vfsRead node offset size) y y
  | vfsWrite {y : Sys} {node offset size : ℕ} {buffer : ℕ → UInt8} :
      Call.Step (.vfsWrite node offset size buffer) y
        { y with dev := update y.dev node ((y.dev node).write offset size buffer) }

/-- The call writes to a block that is in the cache, and not through the cache. -/
def Call.Bad (c : Call) (y : Sys) : Prop :=
  match c with
  | .vfsWrite node offset size _ => ∃ e, (y.cache.entry e).valid = true ∧
      (y.cache.entry e).node = node ∧ ∃ x, offset ≤ x ∧
        x < offset + (y.dev node).count offset size ∧ x / blockSize = (y.cache.entry e).block
  | _ => False

/-- A write that misses a block leaves its entry right. -/
theorem Entry.Right.write {dev : ℕ → Device} {x : Entry} (hx : x.Right dev) {offset size : ℕ}
    {buffer : ℕ → UInt8}
    (hmiss : x.valid = true → x.node = node → ∀ i, offset ≤ i →
      i < offset + (dev node).count offset size → i / blockSize ≠ x.block) :
    x.Right (update dev node ((dev node).write offset size buffer)) := by
  refine ⟨hx.1, fun hv => ?_⟩
  obtain ⟨h1, h2, h3⟩ := hx.2 hv
  by_cases hn : x.node = node
  · subst hn
    rw [update_self]
    refine ⟨h1, h2, fun j hj => ?_⟩
    have hdiv : (x.block * blockSize + j) / blockSize = x.block := by
      rw [mul_comm, Nat.mul_add_div (by decide), Nat.div_eq_of_lt hj, add_zero]
    rw [h3 j hj]
    simp only [Device.write]
    rw [if_neg fun h => hmiss hv rfl _ h.1 h.2 hdiv]
  · rw [update_of_ne hn]
    exact ⟨h1, h2, h3⟩

theorem Write.run_start (y : Sys) (node offset size : ℕ) (buffer : ℕ → UInt8) :
    ((Write.start y node offset size buffer).run y).2 =
      if (y.dev node).block = true ∧ uint64Max - offset < size then y
      else
        { cache := if (y.dev node).block = false ∨ (y.dev node).count offset size = 0 then y.cache
            else y.cache.invalidate node (offset / blockSize)
              ((offset + (y.dev node).count offset size - 1) / blockSize)
          dev := update y.dev node ((y.dev node).write offset size buffer) } := by
  unfold Write.start
  split
  · rfl
  have hstep : (⟨node, offset, size, buffer, .transfer⟩ : Write).step y =
      if (y.dev node).block = false ∨ (y.dev node).count offset size = 0
      then (⟨node, offset, size, buffer, .done ((y.dev node).count offset size)⟩,
        { y with dev := update y.dev node ((y.dev node).write offset size buffer) })
      else (⟨node, offset, size, buffer, .invalidate ((y.dev node).count offset size)⟩,
        { y with dev := update y.dev node ((y.dev node).write offset size buffer) }) :=
    rfl
  unfold Write.run
  rw [hstep]
  by_cases hnone : (y.dev node).block = false ∨ (y.dev node).count offset size = 0
  · rw [if_pos hnone, if_pos hnone]
    rfl
  · rw [if_neg hnone, if_neg hnone]
    rfl

/-- **`cached_block_write`** keeps the cache in agreement with the devices. -/
theorem Sys.Coherent.blockWrite (hy : y.Coherent) (node offset size : ℕ) (buffer : ℕ → UInt8) :
    ((Write.start y node offset size buffer).run y).2.Coherent := by
  rw [Write.run_start]
  split
  · exact hy
  split
  · rename_i hnone
    refine ⟨hy.ok, fun e => (hy.right e).write fun hv hn i h1 h2 => ?_⟩
    have hblock := ((hy.right e).2 hv).1
    rw [hn] at hblock
    rw [hnone.resolve_left fun h => Bool.false_ne_true (h.symm.trans hblock)] at h2
    omega
  obtain ⟨h1, h2⟩ := hy.ok.invalidate node (offset / blockSize)
    ((offset + (y.dev node).count offset size - 1) / blockSize)
  generalize y.cache.invalidate node (offset / blockSize)
    ((offset + (y.dev node).count offset size - 1) / blockSize) = k at h1 h2 ⊢
  refine ⟨h1, fun e => ?_⟩
  simp only [h2]
  split_ifs with hin
  · unfold droppedEntry
    rw [if_neg (by rw [(hy.right e).1]; exact Bool.false_ne_true)]
    exact ⟨(hy.right e).1, nofun⟩
  · refine (hy.right e).write fun hv hn i hi1 hi2 hi => hin ⟨?_, hn, ?_, ?_⟩
    · exact (hy.ok.bound ((hy.ok.hashed e).mpr (.inl hv))).1
    · exact hi ▸ Nat.div_le_div_right hi1
    · exact hi ▸ Nat.div_le_div_right (by omega)

/-- **Step lemma**: a call that is not bad keeps the cache in agreement with the devices. -/
theorem Call.Step.coherent {c : Call} (h : c.Step y y') (hy : y.Coherent) (hsafe : ¬c.Bad y) :
    y'.Coherent := by
  cases h with
  | @blockRead _ _ r' node offset size buffer hoffset hl hd =>
    obtain ⟨r1, y1, hl1, hd1, hy1, -⟩ := hy.read hoffset node size buffer
    obtain ⟨-, rfl⟩ := hl.unique hd hl1 hd1
    exact hy1
  | blockWrite => exact hy.blockWrite _ _ _ _
  | vfsRead => exact hy
  | vfsWrite =>
    exact ⟨hy.ok, fun e => (hy.right e).write fun hv hn i h1 h2 h3 =>
      hsafe ⟨e, hv, hn, i, h1, h2, h3⟩⟩

/-- **Transparency.** After every sequence of calls in which nobody writes to a cached block without
the cache, `block_read` ends and returns the bytes that `vfs::read` would, unless it comes to a last
block that is not whole, or the end of the extent does not fit into 64 bits. -/
theorem blockRead_same_of_run {y₀ : Sys} (hb : y₀.cache.Empty)
    (hrun : ReflTransGen (fun a b => ∃ c : Call, c.Step a b ∧ ¬c.Bad a) y₀ y)
    {offset : ℕ} (hoffset : offset ≤ uint64Max) (node size : ℕ) (buffer : ℕ → UInt8) :
    ∃ r' y', Leads (Read.start y node offset size buffer) y r' y' ∧ r'.pc = .done ∧
      y'.dev = y.dev ∧
      ((y.dev node).Readable offset size → (y.dev node).Same offset size r'.done r'.out) ∧
      ((y.dev node).Unreadable offset size → ¬(y.dev node).Same offset size r'.done r'.out) := by
  have hinit : y₀.Coherent := ⟨hb.ok, fun e => ⟨(hb.entry e).2.1, fun h =>
    absurd ((hb.entry e).1.symm.trans h) Bool.false_ne_true⟩⟩
  have hy : y.Coherent := Step.run_invariant (I := Sys.Coherent) hrun hinit
    fun ha ⟨_, hstep, hsafe⟩ => hstep.coherent ha hsafe
  obtain ⟨r', y', h1, h2, -, h4, h5, h6⟩ := hy.read hoffset node size buffer
  exact ⟨r', y', h1, h2, h4, h5, fun h hsame => h6 h hsame.1⟩

def emptyCache : Cache where
  entry _ := ⟨0, 0, false, false, false, false, fun _ => 0⟩
  hash _ := []
  lru := []
  free := []
  ready := false

theorem emptyCache_empty : emptyCache.Empty :=
  ⟨fun _ => ⟨rfl, rfl, rfl⟩, fun _ => rfl, rfl, rfl, rfl⟩

/-- Block devices of `size` bytes, all zero. -/
def zeroDevices (size : ℕ) : Sys := ⟨emptyCache, fun _ => ⟨true, size, fun _ => 0⟩⟩

/-- A byte that was written is read back. -/
theorem blockRead_same_of_run_write : ∃ y, ReflTransGen
    (fun a b => ∃ c : Call, c.Step a b ∧ ¬c.Bad a) (zeroDevices 8192) y ∧
      ∃ r' y', Leads (Read.start y 16 5 10 fun _ => 0) y r' y' ∧ r'.pc = .done ∧ r'.done = 10 ∧
        r'.out 0 = 1 := by
  have hrun : ReflTransGen (fun a b => ∃ c : Call, c.Step a b ∧ ¬c.Bad a)
      (zeroDevices 8192) ((Write.start (zeroDevices 8192) 16 5 1 fun _ => 1).run _).2 :=
    .single ⟨.blockWrite 16 5 1 fun _ => 1, .blockWrite, id⟩
  obtain ⟨r', y', hl, hd, -, hsame, -⟩ := blockRead_same_of_run emptyCache_empty hrun
    (show 5 ≤ uint64Max by decide) 16 10 fun _ => 0
  obtain ⟨h1, h2⟩ := hsame (.inr (.inl ⟨by decide, .inl (by decide)⟩))
  have hten : r'.done = 10 := h1.trans (by decide)
  exact ⟨_, hrun, r', y', hl, hd, hten, (h2 0 (by omega)).trans (by decide)⟩

/-- `block_read` returns what `vfs::read` would. -/
def Sys.Transparent (y : Sys) : Prop :=
  ∀ (node offset size : ℕ) (buffer : ℕ → UInt8) (r' : Read) (y' : Sys), offset ≤ uint64Max →
    size ≤ uint64Max → Leads (Read.start y node offset size buffer) y r' y' → r'.pc = .done →
    (y.dev node).Same offset size r'.done r'.out

/-- The byte at the start of a device is read for the first time, ... -/
def firstRead : Read × Sys :=
  (Read.start (zeroDevices 8192) 16 0 1 fun _ => 0).run (zeroDevices 8192) 8

/-- ... is written directly, ... -/
def afterVfsWrite : Sys :=
  { firstRead.2 with
    dev := update firstRead.2.dev 16 ((firstRead.2.dev 16).write 0 1 fun _ => 1) }

/-- ... and is read again. -/
def secondRead : Read × Sys :=
  (Read.start afterVfsWrite 16 0 1 fun _ => 0).run afterVfsWrite 8

/-- The same on a device of 1000 bytes. -/
def shortRead : Read × Sys :=
  (Read.start (zeroDevices 1000) 16 0 1 fun _ => 0).run (zeroDevices 1000) 8

/-- The second read returns the old byte; and from a device of 1000 bytes no byte can be read. -/
theorem blockRead_differs :
    (∃ y, ReflTransGen (fun a b => ∃ c : Call, c.Step a b) (zeroDevices 8192) y ∧
        ¬y.Transparent) ∧ ¬(zeroDevices 1000).Transparent := by
  have hstale : firstRead.1.pc = .done ∧ secondRead.1.pc = .done ∧ secondRead.1.done = 1 ∧
      secondRead.1.out 0 ≠ (afterVfsWrite.dev 16).byte 0 := by
    decide +kernel
  have hshort : shortRead.1.pc = .done ∧ shortRead.1.done = 0 := by decide +kernel
  constructor
  · obtain ⟨h1, h2, h3, h4⟩ := hstale
    have hfirst : Call.Step (.blockRead 16 0 1 fun _ => 0) (zeroDevices 8192) firstRead.2 :=
      .blockRead (Nat.zero_le _) ⟨8, Prod.mk.eta.symm⟩ h1
    refine ⟨afterVfsWrite, .tail (.single ⟨_, hfirst⟩)
      ⟨.vfsWrite 16 0 1 fun _ => 1, .vfsWrite⟩, fun h => ?_⟩
    have hsame := h 16 0 1 (fun _ => 0) secondRead.1 secondRead.2 (Nat.zero_le _) (by decide)
      ⟨8, Prod.mk.eta.symm⟩ h2
    have hlt : 0 < secondRead.1.done := by rw [h3]; exact one_pos
    have hbyte := hsame.2 0 hlt
    rw [Nat.zero_add] at hbyte
    exact h4 hbyte
  · intro h
    have hsame := h 16 0 1 (fun _ => 0) shortRead.1 shortRead.2 (Nat.zero_le _) (by decide)
      ⟨8, Prod.mk.eta.symm⟩ hshort.1
    exact absurd (hshort.2.symm.trans hsame.1) (by decide)

end RHKernel.BlockCache
