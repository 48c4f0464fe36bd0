import RHKernel.File.Tmpfs.Model
import RHKernel.Lib.Contents

/-!
# Files of tmpfs as byte arrays

What the calls on one file do to its bytes and to the count of the mount. Every lemma says how the
call comes out, so that no access outside of the page array is made.
-/

namespace RHKernel.Tmpfs

open List Option

variable {mem : Memory} {m m' m₁ : Mount} {n n' n₁ : Node}
  {off size k fuel done x d pages cap c stop take keep : ℕ}
  {buf : ℕ → UInt8}

/-- The bytes of a page that may be missing. -/
def Node.page (n : Node) (page : ℕ) : Page := (n.slot page).getD fun _ => 0

/-- The byte at an offset, whether or not it is below the size. -/
def Node.byteAt (n : Node) (i : ℕ) : UInt8 := n.page (i / pageSize) (i % pageSize)

/-- The number of data pages. -/
def Node.allocated (n : Node) : ℕ := n.pages.countP Option.isSome

/-- What the file is for its users. -/
def Node.contents (n : Node) : Contents where
  size := n.size
  byte i := if i < n.size then n.byteAt i else 0
  zero _ hi := if_neg (Nat.not_lt.mpr hi)

/-- The invariant of a file. -/
structure Node.Ok (n : Node) : Prop where
  count_le : n.pageCount ≤ n.pages.length
  has_lt {page : ℕ} : n.has page → page < n.pageCount
  size_le : n.size ≤ n.pageCount * pageSize
  zero {i : ℕ} : n.size ≤ i → n.byteAt i = 0

/-- How the count of the mount follows the pages of a file. -/
structure Counted (m : Mount) (n : Node) (m' : Mount) (n' : Node) : Prop where
  limit : m'.limit = m.limit
  enforceLimit : m'.enforceLimit = m.enforceLimit
  used : m'.used + pageSize * n.allocated = m.used + pageSize * n'.allocated
  bound : (m.enforceLimit → m.used ≤ m.limit) → m'.enforceLimit → m'.used ≤ m'.limit

theorem Counted.refl (m : Mount) (h : n'.allocated = n.allocated) : Counted m n m n' :=
  ⟨rfl, rfl, by rw [h], fun hb he => hb he⟩

theorem Counted.trans (h1 : Counted m n m₁ n₁) (h2 : Counted m₁ n₁ m' n') : Counted m n m' n' where
  limit := h2.limit.trans h1.limit
  enforceLimit := h2.enforceLimit.trans h1.enforceLimit
  used := by
    have := h1.used
    have := h2.used
    omega
  bound hb := h2.bound (h1.bound hb)

@[simp]
theorem length_setPage (n : Node) (k : ℕ) (p : Option Page) :
    (n.setPage k p).pages.length = n.pages.length := length_set

variable (hk : k < n.pages.length)

include hk

theorem slot_setPage (p : Option Page) (j : ℕ) :
    (n.setPage k p).slot j = if j = k then p else n.slot j := by
  unfold Node.slot Node.setPage
  rw [getElem?_set]
  by_cases hj : j = k
  · rw [if_pos hj.symm, if_pos hk, if_pos hj]
    rfl
  · rw [if_neg (Ne.symm hj), if_neg hj]

theorem has_setPage (p : Option Page) (j : ℕ) :
    (n.setPage k p).has j ↔ if j = k then p.isSome = true else n.has j := by
  unfold Node.has
  rw [slot_setPage hk]
  split <;> rfl

theorem page_setPage (p : Option Page) (j : ℕ) :
    (n.setPage k p).page j =
      if j = k then p.getD fun _ => 0 else n.page j := by
  unfold Node.page
  rw [slot_setPage hk]
  split <;> rfl

theorem getElem?_eq_slot : n.pages[k]? = some (n.slot k) := by
  unfold Node.slot
  rw [getElem?_eq_getElem hk]
  rfl

theorem allocated_setPage (p : Option Page) :
    (n.setPage k p).allocated + (if n.has k then 1 else 0) =
      n.allocated + if p.isSome then 1 else 0 := by
  have hslot : n.pages[k] = n.slot k :=
    some.inj ((getElem?_eq_getElem hk).symm.trans (getElem?_eq_slot hk))
  unfold Node.allocated Node.setPage
  rw [countP_set hk, hslot]
  by_cases hh : n.has k
  · have hpos : 0 < n.pages.countP Option.isSome :=
      countP_pos_iff.mpr ⟨n.pages[k], getElem_mem hk, by rw [hslot]; exact hh⟩
    rw [if_pos hh, if_pos (show (n.slot k).isSome = true from hh)]
    omega
  · rw [if_neg hh, if_neg (show ¬(n.slot k).isSome = true from hh)]
    omega

omit hk

theorem add_div_mod (h : d < pageSize - x % pageSize) :
    (x + d) / pageSize = x / pageSize ∧ (x + d) % pageSize = x % pageSize + d := by
  unfold pageSize at *
  omega

/-! ### Reading -/

theorem readLoop_step (h : done < size) :
    readLoop n off size (fuel + 1) done buf =
      readLoop n off size fuel (done + min (pageSize - (off + done) % pageSize) (size - done))
        fun j => if done ≤ j ∧ j < done + min (pageSize - (off + done) % pageSize) (size - done)
          then n.byteAt (off + j) else buf j := by
  have hbyte : ∀ j, done ≤ j ∧ j < done + min (pageSize - (off + done) % pageSize) (size - done) →
      n.byteAt (off + j) =
        n.page ((off + done) / pageSize) ((off + done) % pageSize + (j - done)) := by
    intro j hj
    obtain ⟨h1, h2⟩ := add_div_mod (x := off + done) (d := j - done) (by omega)
    have hsum : off + j = off + done + (j - done) := by omega
    rw [Node.byteAt, hsum, h1, h2]
  rw [readLoop, if_pos h]
  simp only
  split
  · rename_i p hp
    congr 1
    funext j
    split_ifs with hj
    · rw [hbyte j hj, Node.page, hp]
      rfl
    · rfl
  · rename_i hp
    congr 1
    funext j
    split_ifs with hj
    · rw [hbyte j hj, Node.page, hp]
      rfl
    · rfl

theorem readLoop_eq (hle : done ≤ size) (hfuel : size - done ≤ fuel) :
    readLoop n off size fuel done buf =
      (size, fun j => if done ≤ j ∧ j < size then n.byteAt (off + j) else buf j) := by
  induction fuel generalizing done buf with
  | zero =>
    obtain rfl : done = size := by omega
    exact Prod.ext rfl (funext fun j => (if_neg (by omega)).symm)
  | succ fuel ih =>
    by_cases h : done < size
    · have hpage : 0 < pageSize - (off + done) % pageSize :=
        Nat.sub_pos_of_lt (Nat.mod_lt _ (by decide))
      rw [readLoop_step h, ih (by omega) (by omega)]
      refine Prod.ext rfl (funext fun j => ?_)
      simp only
      by_cases hj : done ≤ j ∧ j < size
      · rw [if_pos hj]
        by_cases hnow : j < done + min (pageSize - (off + done) % pageSize) (size - done)
        · rw [if_neg (by omega), if_pos ⟨hj.1, hnow⟩]
        · rw [if_pos ⟨not_lt.mp hnow, hj.2⟩]
      · rw [if_neg hj, if_neg (by omega), if_neg (by omega)]
    · obtain rfl : done = size := by omega
      rw [readLoop, if_neg h]
      exact Prod.ext rfl (funext fun j => (if_neg (by omega)).symm)

/-- **`tmpfs_read`** returns the bytes that are there. -/
theorem read_spec (htype : n.type = .file) (off size : ℕ) (buf : ℕ → UInt8) :
    (read n off size buf).1 = n.contents.count off size ∧
      ∀ j < (read n off size buf).1, (read n off size buf).2 j = n.contents.byte (off + j) := by
  unfold read
  by_cases hoff : n.size ≤ off
  · rw [if_pos (.inr hoff)]
    refine ⟨?_, fun j hj => absurd hj (Nat.not_lt_zero j)⟩
    change 0 = min size (n.size - off)
    omega
  · rw [if_neg (by rintro (h | h); exacts [h htype, hoff h])]
    rw [readLoop_eq (Nat.zero_le _) (Nat.sub_le _ _)]
    refine ⟨rfl, fun j hj => ?_⟩
    change (if 0 ≤ j ∧ j < min size (n.size - off) then n.byteAt (off + j) else buf j) =
      if off + j < n.size then n.byteAt (off + j) else 0
    rw [if_pos ⟨Nat.zero_le j, hj⟩, if_pos (by omega)]

/-! ### The page array -/

theorem growCap_le (h : growCap pages fuel cap = some c) :
    pages ≤ c ∧ c ≤ max cap (2 * pages) := by
  induction fuel generalizing cap with
  | zero => cases h
  | succ fuel ih =>
    rw [growCap] at h
    split at h
    · split at h
      · cases h
      · obtain ⟨h1, h2⟩ := ih h
        exact ⟨h1, by omega⟩
    · cases h
      exact ⟨by omega, le_max_left _ _⟩

/-- Only the length of the array has changed. -/
structure Node.Longer (n n' : Node) : Prop where
  type : n'.type = n.type
  size : n'.size = n.size
  length : n.pages.length ≤ n'.pages.length
  slot (page : ℕ) : n'.slot page = n.slot page
  allocated : n'.allocated = n.allocated

theorem Node.Longer.byteAt (h : n.Longer n') (i : ℕ) : n'.byteAt i = n.byteAt i := by
  rw [Node.byteAt, Node.page, h.slot]
  rfl

theorem Node.Longer.has (h : n.Longer n') (page : ℕ) : n'.has page ↔ n.has page := by
  rw [Node.has, h.slot]
  rfl

theorem ensurePageArray_longer (h : ensurePageArray mem n pages = some n') :
    n.Longer n' ∧ pages ≤ n'.pages.length ∧ n'.pageCount = n.pageCount := by
  unfold ensurePageArray at h
  split at h
  · rename_i hle
    cases h
    exact ⟨⟨rfl, rfl, le_refl _, fun _ => rfl, rfl⟩, hle, rfl⟩
  split at h
  · cases h
  rename_i cap hcap
  obtain ⟨h1, -⟩ := growCap_le hcap
  split at h
  · cases h
  split at h
  · cases h
    have hlen : (n.pages ++ List.replicate (cap - n.pages.length) (none : Option Page)).length =
        n.pages.length + (cap - n.pages.length) := by
      rw [length_append, length_replicate]
    refine ⟨⟨rfl, rfl, ?_, fun page => ?_, ?_⟩, ?_, rfl⟩
    · rw [hlen]
      exact Nat.le_add_right _ _
    · unfold Node.slot
      rw [getElem?_append]
      split_ifs with hge
      · rfl
      · rw [getElem?_replicate, getElem?_eq_none (not_lt.mp hge)]
        split <;> rfl
    · unfold Node.allocated
      rw [countP_append, countP_replicate]
      rfl
    · rw [hlen]
      omega
  · cases h

theorem ensureFileCapacity_longer (hn : n.pageCount ≤ n.pages.length)
    (h : ensureFileCapacity mem n stop = some n') :
    n.Longer n' ∧ stop ≤ uint64Max - pageMask ∧ n.pageCount ≤ n'.pageCount ∧
      (stop + pageMask) / pageSize ≤ n'.pageCount ∧ n'.pageCount ≤ n'.pages.length := by
  unfold ensureFileCapacity at h
  split at h
  · cases h
  rename_i hstop
  obtain ⟨n₁, h1, rfl⟩ := map_eq_some_iff.mp h
  obtain ⟨hlong, hlen, hcount⟩ := ensurePageArray_longer h1
  have hlength := hlong.length
  split
  · exact ⟨⟨hlong.type, hlong.size, hlong.length, hlong.slot, hlong.allocated⟩,
      not_lt.mp hstop, by simp only; omega, le_refl _, hlen⟩
  · exact ⟨hlong, not_lt.mp hstop, le_of_eq hcount.symm, by omega, by omega⟩

/-! ### Writing -/

/-- A page that is missing can be had. -/
def Granted (mem : Memory) (m : Mount) (page : ℕ) : Prop :=
  ¬(m.enforceLimit ∧ m.limit - m.used < pageSize) ∧ mem.kmalloc page

/-- A page can be written to. -/
def Available (mem : Memory) (m : Mount) (n : Node) (page : ℕ) : Prop :=
  n.has page ∨ Granted mem m page

theorem ensureDataPage_eq (hk : k < n.pages.length) (hmax : k ≤ uint64Max / pageSize - 1) :
    (n.has k → ensureDataPage mem m n k = some (true, m, n)) ∧
      (¬n.has k → Granted mem m k → ensureDataPage mem m n k =
        some (true, { m with used := m.used + pageSize }, n.setPage k (some fun _ => 0))) ∧
      (¬Available mem m n k → ensureDataPage mem m n k = some (false, m, n)) := by
  unfold ensureDataPage
  rw [if_neg (not_lt.mpr hmax), if_neg (not_le.mpr hk)]
  simp only [getElem?_eq_slot hk]
  refine ⟨fun h => ?_, fun h hg => ?_, fun h => ?_⟩
  · obtain ⟨p, hp⟩ := isSome_iff_exists.mp h
    rw [hp]
  · rw [not_isSome_iff_eq_none.mp h]
    simp only [account, if_neg hg.1, if_pos hg.2]
  obtain ⟨hnot, hgrant⟩ := not_or.mp h
  rw [not_isSome_iff_eq_none.mp hnot]
  by_cases hquota : m.enforceLimit ∧ m.limit - m.used < pageSize
  · simp only [account, if_pos hquota]
  · have hmem : ¬mem.kmalloc k = true := fun hk => hgrant ⟨hquota, hk⟩
    simp only [account, if_neg hquota, if_neg hmem, unaccount]
    rw [if_neg (by omega), Nat.add_sub_cancel]

/-- What a round of the loop does: the page is there, with its bytes. -/
theorem ensureDataPage_available (hk : k < n.pages.length) (hmax : k ≤ uint64Max / pageSize - 1)
    (h : Available mem m n k) :
    ∃ m' n', ensureDataPage mem m n k = some (true, m', n') ∧ Counted m n m' n' ∧
      n'.type = n.type ∧ n'.size = n.size ∧ n'.pageCount = n.pageCount ∧
      n'.pages.length = n.pages.length ∧ n'.slot k = some (n.page k) ∧
      (∀ j, j ≠ k → n'.slot j = n.slot j) := by
  by_cases hhas : n.has k
  · refine ⟨m, n, (ensureDataPage_eq hk hmax).1 hhas, .refl m rfl, rfl, rfl, rfl, rfl, ?_,
      fun _ _ => rfl⟩
    obtain ⟨p, hp⟩ := isSome_iff_exists.mp hhas
    rw [Node.page, hp]
    rfl
  have hgrant := h.resolve_left hhas
  refine ⟨_, _, (ensureDataPage_eq hk hmax).2.1 hhas hgrant, ⟨rfl, rfl, ?_, fun hb he => ?_⟩,
    rfl, rfl, rfl, length_setPage _ _ _, ?_, fun j hj => ?_⟩
  · have hcount := allocated_setPage hk (some fun _ => 0)
    rw [if_neg hhas, isSome_some, if_pos rfl, add_zero] at hcount
    change m.used + pageSize + _ = _
    unfold pageSize
    omega
  · have hlim := hgrant.1
    change m.used + pageSize ≤ m.limit
    have hroom : ¬m.limit - m.used < pageSize := fun hlt => hlim ⟨he, hlt⟩
    have : 0 < pageSize := by decide
    omega
  · rw [slot_setPage hk, if_pos rfl, Node.page, not_isSome_iff_eq_none.mp hhas]
    rfl
  · rw [slot_setPage hk, if_neg hj]

/-- What the loop has done when it stops after `k` bytes. -/
structure Written (mem : Memory) (off size : ℕ) (buf : ℕ → UInt8) (done : ℕ) (m : Mount) (n : Node)
    (k : ℕ) (m' : Mount) (n' : Node) : Prop where
  le : done ≤ k
  le_size : k ≤ size
  counted : Counted m n m' n'
  type : n'.type = n.type
  fileSize : n'.size = n.size
  pageCount : n'.pageCount = n.pageCount
  length : n'.pages.length = n.pages.length
  byteAt (i : ℕ) :
    n'.byteAt i = if off + done ≤ i ∧ i < off + k then buf (i - off) else n.byteAt i
  has {page : ℕ} : n'.has page → n.has page ∨ page * pageSize < off + size
  stopped : k < size → ¬Available mem m' n' ((off + k) / pageSize)
  stuck : ¬Available mem m n ((off + done) / pageSize) → k = done
  stayed : k = done → m' = m ∧ n' = n

theorem Written.rest (mem : Memory) (buf : ℕ → UInt8) (hle : done ≤ size)
    (h : done < size → ¬Available mem m n ((off + done) / pageSize)) :
    Written mem off size buf done m n done m n where
  le := le_refl _
  le_size := hle
  counted := .refl m rfl
  type := rfl
  fileSize := rfl
  pageCount := rfl
  length := rfl
  byteAt i := by rw [if_neg (by omega)]
  has := .inl
  stopped := h
  stuck _ := rfl
  stayed _ := ⟨rfl, rfl⟩

theorem byteAt_copy (hk : k < n.pages.length) (hpage : k = (off + done) / pageSize)
    (htake : take ≤ pageSize - (off + done) % pageSize) (i : ℕ) :
    (n.setPage k (some ((n.page k).copy ((off + done) % pageSize) take
      fun j => buf (done + j)))).byteAt i =
      if off + done ≤ i ∧ i < off + (done + take) then buf (i - off) else n.byteAt i := by
  unfold Node.byteAt
  rw [page_setPage hk]
  subst hpage
  have hmod := Nat.mod_add_div i pageSize
  have hmod' := Nat.mod_add_div (off + done) pageSize
  by_cases hsame : i / pageSize = (off + done) / pageSize
  · rw [if_pos hsame, hsame]
    change (if _ then _ else _) = _
    rw [hsame] at hmod
    by_cases hin : off + done ≤ i ∧ i < off + (done + take)
    · rw [if_pos (by omega), if_pos hin]
      congr 1
      omega
    · rw [if_neg (by omega), if_neg hin]
  · rw [if_neg hsame, if_neg]
    rintro ⟨h1, h2⟩
    obtain ⟨h3, -⟩ := add_div_mod (x := off + done) (d := i - (off + done)) (by omega)
    rw [show off + done + (i - (off + done)) = i by omega] at h3
    exact hsame h3

theorem writeLoop_spec (hlen : off + size ≤ n.pages.length * pageSize)
    (hmax : off + size ≤ uint64Max - pageMask) (hle : done ≤ size) (hfuel : size - done ≤ fuel) :
    ∃ k m' n', writeLoop mem off size buf fuel done m n = some (k, m', n') ∧
      Written mem off size buf done m n k m' n' := by
  induction fuel generalizing done m n with
  | zero => exact ⟨_, _, _, rfl, .rest mem buf hle fun h => absurd h (by omega)⟩
  | succ fuel ih =>
    rw [writeLoop]
    by_cases h : done < size
    swap
    · rw [if_neg h]
      exact ⟨_, _, _, rfl, .rest mem buf hle fun h' => absurd h' h⟩
    rw [if_pos h]
    have hk : (off + done) / pageSize < n.pages.length :=
      Nat.div_lt_of_lt_mul (by rw [mul_comm]; omega)
    have hpage : (off + done) / pageSize ≤ uint64Max / pageSize - 1 := by
      unfold uint64Max pageMask pageSize at *
      omega
    have hpos : 0 < pageSize - (off + done) % pageSize :=
      Nat.sub_pos_of_lt (Nat.mod_lt _ (by decide))
    simp only
    generalize hq : (off + done) / pageSize = q at hk hpage ⊢
    by_cases hav : Available mem m n q
    swap
    · rw [(ensureDataPage_eq hk hpage).2.2 hav]
      exact ⟨_, _, _, rfl, .rest mem buf hle fun _ => hq ▸ hav⟩
    obtain ⟨m₁, n₁, h1, hcount, htype, hsize, hpc, hlen1, hslot, hother⟩ :=
      ensureDataPage_available hk hpage hav
    have hpage1 : ∀ j, n₁.page j = n.page j := by
      intro j
      by_cases hj : j = q
      · subst hj
        rw [Node.page, hslot]
        rfl
      · rw [Node.page, hother j hj]
        rfl
    have hk1 : q < n₁.pages.length := hlen1.symm ▸ hk
    have hhas1 : n₁.has q := by rw [Node.has, hslot]; rfl
    rw [h1]
    simp only [hslot]
    rw [← hpage1]
    have hset : ∀ p : Page, (n₁.setPage q (some p)).allocated =
        n₁.allocated := by
      intro p
      have hadd := allocated_setPage hk1 (some p)
      rw [if_pos hhas1, isSome_some, if_pos rfl] at hadd
      exact add_right_cancel hadd
    obtain ⟨k, m', n', h2, hw⟩ := ih (m := m₁) (n := n₁.setPage q
        (some ((n₁.page q).copy ((off + done) % pageSize)
          (min (pageSize - (off + done) % pageSize) (size - done)) fun j => buf (done + j))))
      (by rw [length_setPage, hlen1]; exact hlen)
      (show done + min (pageSize - (off + done) % pageSize) (size - done) ≤ size by omega)
      (by omega)
    refine ⟨k, m', n', h2, ?_⟩
    have hmore := hw.le
    exact
      { le := by omega
        le_size := hw.le_size
        counted := (hcount.trans (.refl m₁ (hset _))).trans hw.counted
        type := hw.type.trans htype
        fileSize := hw.fileSize.trans hsize
        pageCount := hw.pageCount.trans hpc
        length := by rw [hw.length, length_setPage, hlen1]
        byteAt := fun i => by
          rw [hw.byteAt, byteAt_copy hk1 hq.symm (min_le_left _ _)]
          have hbyte : n₁.byteAt i = n.byteAt i := by rw [Node.byteAt, hpage1]; rfl
          by_cases hi : off + done ≤ i ∧ i < off + k
          · rw [if_pos hi]
            split
            · rfl
            · rw [if_pos (by omega)]
          · rw [if_neg hi, if_neg (by omega), if_neg (by omega), hbyte]
        has := fun {page} hp => by
          rcases hw.has hp with hp | hp
          · rw [has_setPage hk1] at hp
            split at hp
            · rename_i heq
              rw [heq, ← hq]
              exact .inr (lt_of_le_of_lt (Nat.div_mul_le_self _ _) (by omega))
            · rename_i hne
              rw [Node.has, hother page hne] at hp
              exact .inl hp
          · exact .inr hp
        stopped := hw.stopped
        stuck := fun h => absurd hav (hq ▸ h)
        stayed := fun hk => absurd hk (by omega) }

/-- A call of `tmpfs_write` that stores nothing and yet moves the end of the file: the offset is
behind it, the page array covers the extent, and the extent is empty or its first page cannot be
had. -/
def StretchesEnd (mem : Memory) (m : Mount) (n : Node) (off size : ℕ) : Prop :=
  n.type = .file ∧ n.size < off ∧ (ensureFileCapacity mem n (off + size)).isSome ∧
    (size = 0 ∨ ¬Available mem m n (off / pageSize))

theorem contents_eq_iff (hbyte : ∀ i, n'.byteAt i = n.byteAt i) :
    n'.contents = n.contents ↔ n'.size = n.size := by
  refine ⟨fun h => congrArg Contents.size h, fun h => Contents.ext h (funext fun i => ?_)⟩
  change (if i < n'.size then n'.byteAt i else 0) = if i < n.size then n.byteAt i else 0
  rw [h, hbyte]

/-- How `tmpfs_write` comes out. -/
structure Stored (mem : Memory) (off size : ℕ) (buf : ℕ → UInt8) (m : Mount) (n : Node) (k : ℕ)
    (m' : Mount) (n' : Node) : Prop where
  ok : n'.Ok
  counted : Counted m n m' n'
  type : n'.type = n.type
  le : k ≤ size
  stored : 0 < k → n'.contents = n.contents.write off k buf
  kept : k = 0 → (n'.contents = n.contents ↔ ¬StretchesEnd mem m n off size)
  stretched : StretchesEnd mem m n off size → k = 0
  stopped : n.type = .file → (ensureFileCapacity mem n (off + size)).isSome → k < size →
    ¬Granted mem m' ((off + k) / pageSize)

theorem Stored.none (buf : ℕ → UInt8) (hn : n.Ok)
    (h : n.type = .file → ¬(ensureFileCapacity mem n (off + size)).isSome) :
    Stored mem off size buf m n 0 m n where
  ok := hn
  counted := .refl m rfl
  type := rfl
  le := Nat.zero_le _
  stored h := absurd h (lt_irrefl 0)
  kept _ := ⟨fun _ hs => h hs.1 hs.2.2.1, fun _ => rfl⟩
  stretched _ := rfl
  stopped h1 h2 := absurd h2 (h h1)

/-- What is left after the loop: the size follows the bytes that were stored. -/
theorem Written.stored (hn : n.Ok) (hlong : n.Longer n₁) (hcount : n₁.pageCount ≤ n₁.pages.length)
    (hle : n.pageCount ≤ n₁.pageCount) (hcover : off + size ≤ n₁.pageCount * pageSize)
    (hw : Written mem off size buf 0 m n₁ k m' n') (htype : n.type = .file)
    (hcap : (ensureFileCapacity mem n (off + size)).isSome) :
    Stored mem off size buf m n k m'
      (if n'.size < off + k then { n' with size := off + k } else n') := by
  have hsize : n'.size = n.size := hw.fileSize.trans hlong.size
  have hbyte : ∀ i, n'.byteAt i =
      if off ≤ i ∧ i < off + k then buf (i - off) else n.byteAt i := by
    intro i
    rw [hw.byteAt, hlong.byteAt, add_zero]
  have hlek := hw.le_size
  have hfile := hn.size_le.trans (Nat.mul_le_mul_right pageSize hle)
  have hhas : ∀ {page}, n'.has page → page < n'.pageCount := by
    intro page hp
    rw [hw.pageCount]
    rcases hw.has hp with hp | hp
    · exact (hn.has_lt ((hlong.has page).mp hp)).trans_le hle
    · exact Nat.lt_of_mul_lt_mul_right (hp.trans_le hcover)
  -- the two ends of the file, with the same pages
  generalize hend : (if n'.size < off + k then { n' with size := off + k } else n') = n2
  have hsame : n2.pages = n'.pages ∧ n2.pageCount = n'.pageCount ∧ n2.type = n'.type ∧
      n2.size = max n.size (off + k) := by
    rw [← hend]
    split
    · exact ⟨rfl, rfl, rfl, by rw [← hsize]; simp only; omega⟩
    · exact ⟨rfl, rfl, rfl, by omega⟩
  obtain ⟨h1, h2, h3, h4⟩ := hsame
  have hslot : ∀ page, n2.slot page = n'.slot page := fun page => by rw [Node.slot, h1]; rfl
  have hbyte2 : ∀ i, n2.byteAt i =
      if off ≤ i ∧ i < off + k then buf (i - off) else n.byteAt i := by
    intro i
    rw [Node.byteAt, Node.page, hslot, ← hbyte]
    rfl
  have halloc : n2.allocated = n'.allocated := by rw [Node.allocated, h1]; rfl
  refine ⟨⟨?_, fun hp => ?_, ?_, fun {i} hi => ?_⟩, ?_, h3.trans (hw.type.trans hlong.type), hlek,
    fun _ => ?_, ?_, fun hs => ?_, fun _ _ hlt => (not_or.mp (hw.stopped hlt)).2⟩
  · rw [h1, h2, hw.pageCount, hw.length]
    exact hcount
  · rw [Node.has, hslot] at hp
    rw [h2]
    exact hhas hp
  · rw [h2, h4, hw.pageCount]
    exact max_le hfile (by omega)
  · rw [hbyte2, if_neg (by omega)]
    exact hn.zero (by omega)
  · exact ((Counted.refl m hlong.allocated).trans hw.counted).trans (.refl m' halloc)
  · refine Contents.ext h4 (funext fun i => ?_)
    change (if i < n2.size then n2.byteAt i else 0) =
      if off ≤ i ∧ i < off + k then buf (i - off) else if i < n.size then n.byteAt i else 0
    rw [hbyte2, h4]
    by_cases hin : off ≤ i ∧ i < off + k
    · rw [if_pos hin, if_pos hin, if_pos (by omega)]
    · rw [if_neg hin, if_neg hin]
      by_cases hi : i < n.size
      · rw [if_pos hi, if_pos (by omega)]
      · rw [if_neg hi, hn.zero (not_lt.mp hi), ite_self]
  · intro hzero
    subst hzero
    have hstuck : size = 0 ∨ ¬Available mem m n (off / pageSize) := by
      rcases eq_zero_or_pos size with h0 | hpos
      · exact .inl h0
      · have hnot := hw.stopped hpos
        rw [(hw.stayed rfl).1, (hw.stayed rfl).2, Available, hlong.has] at hnot
        exact .inr hnot
    rw [contents_eq_iff fun i => by rw [hbyte2, if_neg (by omega)], h4]
    refine ⟨fun h hs => ?_, fun h => ?_⟩
    · have := hs.2.1
      omega
    · by_contra hne
      exact h ⟨htype, by omega, hcap, hstuck⟩
  · rcases hs.2.2.2 with h0 | hnot
    · exact Nat.le_zero.mp (h0 ▸ hlek)
    · refine hw.stuck ?_
      rw [Available, hlong.has]
      exact hnot

theorem write_spec (mem : Memory) (m : Mount) (hn : n.Ok) (off size : ℕ) (buf : ℕ → UInt8) :
    ∃ k m' n', write mem m n off size buf = some (k, m', n') ∧
      Stored mem off size buf m n k m' n' := by
  unfold write
  by_cases htype : n.type ≠ .file
  · rw [if_pos htype]
    exact ⟨_, _, _, rfl, .none buf hn fun h => absurd h htype⟩
  rw [if_neg htype]
  have hnone : ensureFileCapacity mem n (off + size) = none →
      Stored mem off size buf m n 0 m n := by
    intro hnone
    exact .none buf hn fun _ => by rw [hnone]; exact Bool.false_ne_true
  by_cases hwrap : size ≠ 0 ∧ uint64Max - size < off
  · rw [if_pos hwrap]
    refine ⟨_, _, _, rfl, hnone (if_pos ?_)⟩
    omega
  rw [if_neg hwrap]
  rcases hcap : ensureFileCapacity mem n (off + size) with _ | n₁
  · exact ⟨_, _, _, rfl, hnone hcap⟩
  obtain ⟨hlong, hstop, hle, hpages, hcount⟩ := ensureFileCapacity_longer hn.count_le hcap
  have hcover : off + size ≤ n₁.pageCount * pageSize := by
    unfold pageMask pageSize at *
    omega
  obtain ⟨k, m', n', hloop, hw⟩ : ∃ k m' n', writeLoop mem off size buf size 0 m n₁ =
      some (k, m', n') ∧ Written mem off size buf 0 m n₁ k m' n' :=
    writeLoop_spec (hcover.trans (Nat.mul_le_mul_right _ hcount)) hstop (Nat.zero_le _)
      (Nat.sub_le _ _)
  simp only [hloop, map_some]
  exact ⟨_, _, _, rfl, hw.stored hn hlong hcount hle hcover (not_not.mp htype)
    (isSome_iff_exists.mpr ⟨n₁, hcap⟩)⟩

/-! ### Truncation -/

/-- What is left when the pages `keep`, …, `keep + c - 1` have been freed. -/
structure Freed (keep c : ℕ) (m : Mount) (n : Node) (m' : Mount) (n' : Node) : Prop where
  counted : Counted m n m' n'
  covered : pageSize * n'.allocated ≤ m'.used
  type : n'.type = n.type
  size : n'.size = n.size
  pageCount : n'.pageCount = n.pageCount
  length : n'.pages.length = n.pages.length
  slot (page : ℕ) : n'.slot page = if keep ≤ page ∧ page < keep + c then none else n.slot page

theorem freePage_spec (hk : k < n.pages.length) (hm : pageSize * n.allocated ≤ m.used) :
    ∃ m' n', freePage (m, n) k = some (m', n') ∧ Freed k 1 m n m' n' := by
  unfold freePage
  simp only [getElem?_eq_slot hk]
  cases hslot : n.slot k with
  | none =>
    refine ⟨m, n, rfl, .refl m rfl, hm, rfl, rfl, rfl, rfl, fun page => ?_⟩
    split
    · obtain rfl : page = k := by omega
      exact hslot
    · rfl
  | some p =>
    have hhas : n.has k := by rw [Node.has, hslot]; rfl
    have hadd : (n.setPage k none).allocated + 1 = n.allocated := by
      simpa [hhas] using allocated_setPage hk none
    rw [← hadd, Nat.mul_succ] at hm
    have hused : (unaccount m pageSize).used + pageSize = m.used := by
      change (if m.used < pageSize then 0 else m.used - pageSize) + pageSize = m.used
      rw [if_neg (by omega)]
      omega
    refine ⟨_, _, rfl, ⟨rfl, rfl, ?_, fun hb he => ?_⟩, by omega, rfl, rfl, rfl,
      length_setPage _ _ _, fun page => ?_⟩
    · rw [← hadd, Nat.mul_succ]
      omega
    · have := hb he
      change (unaccount m pageSize).used ≤ m.limit
      omega
    · rw [slot_setPage hk]
      by_cases hp : page = k
      · rw [if_pos hp, if_pos (by omega)]
      · rw [if_neg hp, if_neg (by omega)]

theorem freePages_spec (hc : keep + c ≤ n.pages.length)
    (hm : pageSize * n.allocated ≤ m.used) :
    ∃ m' n', (List.range' keep c).foldlM freePage (m, n) = some (m', n') ∧
      Freed keep c m n m' n' := by
  induction c generalizing keep m n with
  | zero =>
    exact ⟨m, n, rfl, .refl m rfl, hm, rfl, rfl, rfl, rfl, fun page => by rw [if_neg (by omega)]⟩
  | succ c ih =>
    obtain ⟨m₁, n₁, h1, hf⟩ := freePage_spec (show keep < n.pages.length by omega) hm
    have hrest : keep + 1 + c ≤ n₁.pages.length := by rw [hf.length]; omega
    obtain ⟨m', n', h2, hf'⟩ := ih hrest hf.covered
    refine ⟨m', n', ?_, hf.counted.trans hf'.counted, hf'.covered, hf'.type.trans hf.type,
      hf'.size.trans hf.size, hf'.pageCount.trans hf.pageCount, hf'.length.trans hf.length,
      fun page => ?_⟩
    · rw [range'_succ, foldlM_cons, h1]
      exact h2
    rw [hf'.slot, hf.slot]
    by_cases hp : keep ≤ page ∧ page < keep + (c + 1)
    · rw [if_pos hp]
      split
      · rfl
      · rw [if_pos (by omega)]
    · rw [if_neg hp, if_neg (by omega), if_neg (by omega)]

/-- How `tmpfs_truncate` comes out. -/
structure Truncated (size : ℕ) (m : Mount) (n : Node) (done : Bool) (m' : Mount) (n' : Node) :
    Prop where
  ok : n'.Ok
  counted : Counted m n m' n'
  type : n'.type = n.type
  contents : n'.contents = if done then n.contents.truncate size else n.contents

theorem Truncated.none (size : ℕ) (hn : n.Ok) : Truncated size m n false m n :=
  ⟨hn, .refl m rfl, rfl, rfl⟩

theorem clearTail_spec (hkeep : size ≤ keep * pageSize)
    (hlast : keep * pageSize < size + pageSize) (hlen : keep ≤ n.pages.length) :
    ∃ n', clearTail n keep (size % pageSize) = some n' ∧ n'.allocated = n.allocated ∧
      n'.type = n.type ∧ n'.pages.length = n.pages.length ∧
      (∀ page, n'.has page ↔ n.has page) ∧
      ∀ i < keep * pageSize, n'.byteAt i = if i < size then n.byteAt i else 0 := by
  unfold clearTail
  by_cases hcut : keep ≠ 0 ∧ size % pageSize ≠ 0
  swap
  · rw [if_neg hcut]
    refine ⟨n, rfl, rfl, rfl, rfl, fun _ => Iff.rfl, fun i hi => ?_⟩
    rw [if_pos]
    unfold pageSize at *
    omega
  have hk : keep - 1 < n.pages.length := by omega
  -- the byte is on the last page and behind the end, or it stays
  have hpos : ∀ i < keep * pageSize, ¬i < size →
      i / pageSize = keep - 1 ∧ size % pageSize ≤ i % pageSize ∧ i % pageSize < pageSize := by
    intro i hi hge
    unfold pageSize at *
    omega
  rw [if_pos hcut, getElem?_eq_slot hk]
  cases hslot : n.slot (keep - 1) with
  | none =>
    refine ⟨n, rfl, rfl, rfl, rfl, fun _ => Iff.rfl, fun i hi => ?_⟩
    split_ifs with hge
    · rfl
    · rw [Node.byteAt, (hpos i hi hge).1, Node.page, hslot]
      rfl
  | some p =>
    have hhas : n.has (keep - 1) := by rw [Node.has, hslot]; rfl
    refine ⟨_, rfl, ?_, rfl, length_setPage _ _ _, fun page => ?_, fun i hi => ?_⟩
    · simpa [hhas] using allocated_setPage hk (some (p.copy (size % pageSize)
        (pageSize - size % pageSize) fun _ => 0))
    · rw [has_setPage hk]
      split_ifs with heq
      · exact ⟨fun _ => heq ▸ hhas, fun _ => rfl⟩
      · exact Iff.rfl
    rw [Node.byteAt, page_setPage hk]
    have hp : p = n.page (keep - 1) := by rw [Node.page, hslot]; rfl
    by_cases hlt : i < size
    · rw [if_pos hlt]
      split_ifs with heq
      · change (if _ then _ else _) = _
        rw [if_neg (by unfold pageSize at *; omega), hp, ← heq]
        rfl
      · rfl
    · obtain ⟨h1, h2, h3⟩ := hpos i hi hlt
      rw [if_neg hlt, if_pos h1]
      change (if _ then _ else _) = _
      rw [if_pos (by omega)]

theorem truncate_spec (mem : Memory) (hn : n.Ok) (hm : pageSize * n.allocated ≤ m.used) (size : ℕ) :
    ∃ done m' n', truncate mem m n size = some (done, m', n') ∧
      Truncated size m n done m' n' := by
  unfold truncate
  by_cases htype : n.type ≠ .file
  · rw [if_pos htype]
    exact ⟨_, _, _, rfl, .none size hn⟩
  rw [if_neg htype]
  by_cases hbig : uint64Max - pageMask < size
  · rw [if_pos hbig]
    exact ⟨_, _, _, rfl, .none size hn⟩
  rw [if_neg hbig]
  generalize hkeep : (if size ≠ 0 then (size + pageMask) / pageSize else 0) = keep
  have hkeep : size ≤ keep * pageSize ∧ keep * pageSize < size + pageSize := by
    rw [← hkeep]
    unfold pageMask pageSize
    split <;> omega
  rcases hcap : (if n.size < size then ensureFileCapacity mem n size else some n) with _ | n₁
  · exact ⟨_, _, _, rfl, .none size hn⟩
  have hlong : n.Longer n₁ ∧ keep ≤ n₁.pages.length ∧ n₁.pageCount ≤ n₁.pages.length ∧
      n.pageCount ≤ n₁.pageCount := by
    split at hcap
    · obtain ⟨h1, -, h3, h4, h5⟩ := ensureFileCapacity_longer hn.count_le hcap
      refine ⟨h1, le_trans ?_ h5, h5, h3⟩
      unfold pageMask pageSize at *
      omega
    · cases hcap
      have h1 := hn.size_le
      have h2 := hn.count_le
      refine ⟨⟨rfl, rfl, le_rfl, fun _ => rfl, rfl⟩, ?_, h2, le_rfl⟩
      unfold pageSize at *
      omega
  obtain ⟨hlong, hlen, hcount, hle⟩ := hlong
  obtain ⟨m2, n2, h2, hf⟩ := freePages_spec (n := n₁) (m := m)
    (show keep + (n₁.pageCount - keep) ≤ _ by omega) (by rw [hlong.allocated]; exact hm)
  obtain ⟨n3, h3, halloc, htype3, hlen3, hhas3, hbyte3⟩ :=
    clearTail_spec (n := n2) hkeep.1 hkeep.2 (by rw [hf.length]; exact hlen)
  simp only [h2, h3, bind_eq_bind, bind_some]
  refine ⟨_, _, _, rfl, ?_⟩
  -- a page that is left is below `keep`, and has kept its bytes
  have hleft : ∀ {page}, n3.has page → page < keep := by
    intro page hp
    rw [hhas3, Node.has, hf.slot] at hp
    split at hp
    · exact absurd hp Bool.false_ne_true
    · have := (hn.has_lt ((hlong.has page).mp hp)).trans_le hle
      omega
  have hbyte : ∀ i < size, n3.byteAt i = n.byteAt i := by
    intro i hi
    rw [hbyte3 i (by omega), if_pos hi, ← hlong.byteAt, Node.byteAt, Node.page, hf.slot,
      if_neg]
    · rfl
    · have := Nat.div_lt_of_lt_mul (mul_comm keep pageSize ▸ hi.trans_le hkeep.1)
      omega
  have hzero : ∀ {i}, size ≤ i → n3.byteAt i = 0 := by
    intro i hi
    by_cases hin : i < keep * pageSize
    · rw [hbyte3 i hin, if_neg (not_lt.mpr hi)]
    have hmiss : n3.slot (i / pageSize) = none := by
      rw [← not_isSome_iff_eq_none]
      intro hhas
      exact hin ((Nat.div_lt_iff_lt_mul (by decide)).mp (hleft hhas))
    rw [Node.byteAt, Node.page, hmiss]
    rfl
  refine ⟨⟨?_, hleft, hkeep.1, hzero⟩, ?_, ?_, ?_⟩
  · exact (hlen3.trans hf.length).symm ▸ hlen
  · exact ((Counted.refl m hlong.allocated).trans hf.counted).trans (.refl m2 halloc)
  · exact htype3.trans (hf.type.trans hlong.type)
  refine Contents.ext rfl (funext fun i => ?_)
  change (if i < size then n3.byteAt i else 0) =
    if i < size then if i < n.size then n.byteAt i else 0 else 0
  split
  · rename_i hi
    rw [hbyte i hi]
    split_ifs with hge
    · rfl
    · exact hn.zero (not_lt.mp hge)
  · rfl

/-! ### Release -/

theorem freeNode_fold (m : Mount) (l : List (Option Page))
    (h : pageSize * l.countP Option.isSome ≤ m.used) :
    l.foldl (fun m p => if p.isSome then unaccount m pageSize else m) m =
      { m with used := m.used - pageSize * l.countP Option.isSome } := by
  induction l generalizing m with
  | nil => rfl
  | cons p l ih =>
    rw [foldl_cons]
    cases p with
    | none =>
      exact ih m h
    | some p =>
      rw [countP_cons_of_pos rfl, Nat.mul_succ] at h ⊢
      rw [isSome_some, if_pos rfl, unaccount, if_neg (by omega), ih _ (by simp only; omega)]
      simp only [Mount.mk.injEq, true_and, and_true]
      omega

/-- **`free_node`** gives back what the file was charged for. -/
theorem freeNode_eq (h : pageSize * n.allocated ≤ m.used) :
    freeNode m n = { m with used := m.used - pageSize * n.allocated } :=
  freeNode_fold m n.pages h

end RHKernel.Tmpfs
