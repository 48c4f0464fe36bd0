import RHKernel.Memory.Pmm.Model

/-!
# Page-table entries

An entry of a page table is a 64-bit word: a page-aligned physical address between two groups of
flag bits. The hardware reads `Present`, `Write`, `User`, `Huge` and `NX`; the kernel keeps its
own marks in the bits the hardware ignores: `CoW`, `DemandZero` and `Guard`. Bits are tested with
`has`, and every fact about an entry built with `&&&`, `|||` and `~~~` is read off bit by bit.

`Config` holds what `vmm::init` learns about the processor. The physical address field is cut out
by `physAddrMask`, which never reaches the flags on either side.
-/

namespace RHKernel.Vmm

/-- A page-table entry. -/
abbrev Pte := BitVec 64

/-! ### Flags -/

namespace PageFlags

def present : Pte := .twoPow 64 0
def write : Pte := .twoPow 64 1
def user : Pte := .twoPow 64 2
def writeThrough : Pte := .twoPow 64 3
def noCache : Pte := .twoPow 64 4
def huge : Pte := .twoPow 64 7
def cow : Pte := .twoPow 64 9
def writeCombining : Pte := .twoPow 64 10
def demandZero : Pte := .twoPow 64 11
def guard : Pte := .twoPow 64 52
def pkeyMask : Pte := 0xF#64 <<< 59
def nx : Pte := .twoPow 64 63

end PageFlags

open PageFlags

/-- `SOFTWARE_PTE_MASK`: what an entry that is not present keeps. -/
def softwarePteMask : Pte :=
  user ||| write ||| writeThrough ||| noCache ||| demandZero ||| guard ||| pkeyMask ||| nx

/-- `KEEP_FLAGS` of `handle_fault`. -/
def keepFlags : Pte := 0xFFF#64 ||| pkeyMask ||| nx

/-- The test `entry & flag` of a condition. -/
def Pte.has (e flag : Pte) : Bool := e &&& flag != 0#64

theorem Pte.has_twoPow (e : Pte) {k : ℕ} (hk : k < 64) :
    Pte.has e (.twoPow 64 k) = e.getLsbD k := by
  unfold Pte.has
  rw [BitVec.and_twoPow]
  cases h : e.getLsbD k with
  | false => simp
  | true =>
    rw [if_pos rfl, bne_iff_ne]
    intro h0
    have hbit := congrArg (fun x : Pte => x.getLsbD k) h0
    simp [hk] at hbit

section Bits

variable (e : Pte)

@[simp] theorem Pte.has_present : Pte.has e present = e.getLsbD 0 := Pte.has_twoPow e (by decide)
@[simp] theorem Pte.has_write : Pte.has e write = e.getLsbD 1 := Pte.has_twoPow e (by decide)
@[simp] theorem Pte.has_user : Pte.has e user = e.getLsbD 2 := Pte.has_twoPow e (by decide)
@[simp] theorem Pte.has_huge : Pte.has e huge = e.getLsbD 7 := Pte.has_twoPow e (by decide)
@[simp] theorem Pte.has_cow : Pte.has e cow = e.getLsbD 9 := Pte.has_twoPow e (by decide)
@[simp] theorem Pte.has_guard : Pte.has e guard = e.getLsbD 52 := Pte.has_twoPow e (by decide)
@[simp] theorem Pte.has_nx : Pte.has e nx = e.getLsbD 63 := Pte.has_twoPow e (by decide)

end Bits

/-! ### The processor -/

/-- What `vmm::init` reads from the processor: the width of physical addresses, the number of
paging levels, the features, and the root of the kernel's own page table. -/
structure Config where
  physBits : ℕ
  levels : ℕ
  supports2mb : Bool
  supports1gb : Bool
  supportsNx : Bool
  supportsWc : Bool
  kernelRoot : ℕ
  physBits_le : physBits ≤ 52
  levels_eq : levels = 4 ∨ levels = 5

namespace Config

variable (c : Config)

def physAddrMask : Pte := BitVec.ofNat 64 (2 ^ c.physBits - 1) &&& ~~~0xFFF#64

/-- `active_user_top`: half of what the paging levels can address. -/
def userTop : ℕ := 2 ^ (9 * c.levels + 11)

theorem levels_pos : 0 < c.levels := by
  rcases c.levels_eq with h | h <;> omega

end Config

theorem getLsbD_lowBits (k i : ℕ) (hk : k ≤ 64) :
    (BitVec.ofNat 64 (2 ^ k - 1)).getLsbD i = decide (i < k) := by
  rw [BitVec.getLsbD_ofNat, Nat.testBit_two_pow_sub_one]
  by_cases h : i < k
  · simp [h, lt_of_lt_of_le h hk]
  · simp [h]

/-- The physical address field runs from bit 12 to the width of physical addresses. -/
@[simp]
theorem getLsbD_physAddrMask (c : Config) (i : ℕ) :
    c.physAddrMask.getLsbD i = (decide (12 ≤ i) && decide (i < c.physBits)) := by
  have hle := c.physBits_le
  have hlow : (0xFFF#64).getLsbD i = decide (i < 12) := getLsbD_lowBits 12 i (by decide)
  unfold Config.physAddrMask
  rw [BitVec.getLsbD_and, getLsbD_lowBits _ _ (by omega), BitVec.getLsbD_not, hlow]
  by_cases h1 : i < c.physBits <;> by_cases h2 : i < 12 <;> simp [h1, h2]
  omega

/-- The field does not reach the flags above it. -/
theorem not_lt_physBits (c : Config) {i : ℕ} (h : 52 ≤ i) : ¬i < c.physBits := by
  have := c.physBits_le
  omega

/-- An address contributes no flag bits to an entry. -/
theorem getLsbD_address (c : Config) (phys : ℕ) {i : ℕ} (h : i < 12 ∨ 52 ≤ i) :
    (BitVec.ofNat 64 phys &&& c.physAddrMask).getLsbD i = false := by
  rcases h with h | h
  · simp [not_le.mpr h]
  · simp [not_lt_physBits c h]

/-- The page an entry points at. -/
def frame (c : Config) (e : Pte) : ℕ := (e &&& c.physAddrMask).toNat

end RHKernel.Vmm
