import RHKernel.File.Exfat.FileSet

/-!
# The boot sector of exFAT

`parse_boot` takes the geometry of a volume from its first sector. It compares the end of the active
FAT with the start of the heap, but `fat_set` writes to both FATs. If the first of two is active,
the second one may lie in the heap, and then an update of the FAT changes bytes of files.
-/

namespace RHKernel.Exfat

open LittleEndian

def bootRegionSectors : ℕ := 12

/-- The fields of `exfat_fs` that `parse_boot` sets. -/
structure Geometry extends Volume where
  fatOffset : ℕ
  fatLength : ℕ
  rootCluster : ℕ
  activeFatOffset : ℕ
  volumeLength : ℕ
  fatCount : ℕ
  activeFat : ℕ

/-- What stands in a boot sector. -/
def geometry (bs : ℕ → UInt8) : Geometry where
  clusterCount := rd bs 92 4
  clusterSize := 2 ^ ((bs 108).toNat + (bs 109).toNat)
  sectorsPerCluster := 2 ^ (bs 109).toNat
  sectorSize := 2 ^ (bs 108).toNat
  clusterHeapOffset := rd bs 88 4
  imageBytes := rd bs 72 8 * 2 ^ (bs 108).toNat
  upcase := none
  fatOffset := rd bs 80 4
  fatLength := rd bs 84 4
  rootCluster := rd bs 96 4
  activeFatOffset := (rd bs 80 4 + rd bs 106 2 % 2 * rd bs 84 4) % 2 ^ 32
  volumeLength := rd bs 72 8
  fatCount := (bs 110).toNat
  activeFat := rd bs 106 2 % 2

/-- `is_pow2_u32`. -/
def isPow2 (v : ℕ) : Prop := v ≠ 0 ∧ v &&& (v - 1) = 0

instance (v : ℕ) : Decidable (isPow2 v) := inferInstanceAs (Decidable (_ ∧ _))

/-- The checks of `parse_boot` on the numbers that it has read, for a device of `devSize` bytes. -/
def Geometry.Checked (g : Geometry) (devSize : ℕ) : Prop :=
  (g.fatCount = 1 ∨ g.fatCount = 2) ∧ ¬(g.fatCount = 1 ∧ g.activeFat ≠ 0) ∧
  (g.volumeLength ≠ 0 ∧ g.fatOffset ≠ 0 ∧ g.fatLength ≠ 0 ∧ g.clusterHeapOffset ≠ 0 ∧
    g.clusterCount ≠ 0) ∧
  (isPow2 g.sectorSize ∧ isPow2 g.sectorsPerCluster) ∧ clusterValid g.toVolume g.rootCluster ∧
  g.imageBytes < 2 ^ 64 ∧
  (bootRegionSectors ≤ g.fatOffset ∧ g.activeFatOffset + g.fatLength ≤ g.clusterHeapOffset ∧
    g.clusterHeapOffset + g.clusterCount * g.sectorsPerCluster ≤ g.volumeLength) ∧
  (g.clusterCount + clusterFirst) % 2 ^ 32 * 4 ≤ g.fatLength * g.sectorSize ∧
  (devSize = 0 ∨ g.imageBytes ≤ devSize)

instance (g : Geometry) (devSize : ℕ) : Decidable (g.Checked devSize) :=
  inferInstanceAs (Decidable (_ ∧ _))

def checksum32Byte (c : UInt32) (b : UInt8) : UInt32 :=
  (if c &&& 1 ≠ 0 then (0x80000000 : UInt32) else 0) + (c >>> 1) + b.toUInt32

/-- `validate_boot_checksum`; the twelve sectors are `vbr`, if there is memory and they are read. -/
def validateBootChecksum (vbr : Option (ℕ → UInt8)) (sectorSize entries : ℕ) : Bool :=
  vbr.any fun v =>
    let sum := (List.range ((bootRegionSectors - 1) * sectorSize)).foldl
      (fun c i => if i = 106 ∨ i = 107 ∨ i = 112 then c else checksum32Byte c (v i)) 0
    ∀ i < entries, rd32 v ((bootRegionSectors - 1) * sectorSize + i * 4) = sum

def parseBoot (devSize : ℕ) (fullCheck : Bool) (vbr : Option (ℕ → UInt8)) (bs : ℕ → UInt8) :
    Option Geometry :=
  if rd bs 510 2 ≠ 0xAA55 then none
  else if bs 0 ≠ 0xEB ∨ bs 1 ≠ 0x76 ∨ bs 2 ≠ 0x90 ∨
      (List.range 8).map (fun i => bs (3 + i)) ≠ [69, 88, 70, 65, 84, 32, 32, 32] then none
  else if ¬∀ i < 64, 11 ≤ i → bs i = 0 then none
  else if bs 108 < 9 ∨ 12 < bs 108 then none
  else if 25 < bs 109 ∨ 25 < (bs 108).toNat + (bs 109).toNat then none
  else if ¬(geometry bs).Checked devSize then none
  else if fullCheck ∧ ¬validateBootChecksum vbr (geometry bs).sectorSize
      ((geometry bs).sectorSize / 4) then none
  else some (geometry bs)

/-- `fat_entry_off`; the number of the sector has 32 bits. -/
def fatEntryOff (g : Geometry) (fat cluster : ℕ) : ℕ :=
  (g.fatOffset + fat * g.fatLength) % 2 ^ 32 * g.sectorSize + cluster * 4

/-- `fat_write_one`; the device takes the first `taken` of the four bytes. -/
def fatWriteOne (g : Geometry) (readonly : Bool) (taken fat cluster value : ℕ)
    (disk : ℕ → UInt8) : Bool × (ℕ → UInt8) :=
  if ¬clusterValid g.toVolume cluster ∨ g.fatCount ≤ fat then (false, disk)
  else if readonly ∨ g.imageBytes ≠ 0 ∧ g.imageBytes < fatEntryOff g fat cluster + 4 then
    (false, disk)
  else (4 ≤ taken, wr disk (fatEntryOff g fat cluster) (min 4 taken) value)

def fatSet (g : Geometry) (readonly : Bool) (taken : ℕ → ℕ) (cluster value : ℕ)
    (disk : ℕ → UInt8) : Bool × (ℕ → UInt8) :=
  if ¬clusterValid g.toVolume cluster then (false, disk)
  else
    let x := if g.fatCount = 2 then
      fatWriteOne g readonly (taken (g.activeFat ^^^ 1)) (g.activeFat ^^^ 1) cluster value disk
      else (true, disk)
    if x.1 then fatWriteOne g readonly (taken g.activeFat) g.activeFat cluster value x.2
    else (false, x.2)

/-! ### Where things are -/

namespace Geometry

/-- The first sector of a FAT, and their number. -/
def fat (g : Geometry) (i : ℕ) : ℕ × ℕ := (g.fatOffset + i * g.fatLength, g.fatLength)

def heap (g : Geometry) : ℕ × ℕ :=
  (g.clusterHeapOffset, g.clusterCount * g.sectorsPerCluster)

/-- The byte `pos` is in these sectors. -/
def Has (g : Geometry) (a : ℕ × ℕ) (pos : ℕ) : Prop :=
  a.1 * g.sectorSize ≤ pos ∧ pos < (a.1 + a.2) * g.sectorSize

/-- The regions of the volume are apart and inside it, the numbers of sectors fit into 32 bits, and
an update of the FAT stays in the FATs. -/
structure Sound (g : Geometry) : Prop where
  apart : ((0, bootRegionSectors) :: g.heap :: (List.range g.fatCount).map g.fat).Pairwise
    fun a b => ∀ pos, g.Has a pos → ¬g.Has b pos
  inside : ∀ pos, (g.Has (0, bootRegionSectors) pos ∨ g.Has g.heap pos ∨
    ∃ i < g.fatCount, g.Has (g.fat i) pos) → pos < g.imageBytes
  active : g.fatOffset + g.activeFat * g.fatLength < 2 ^ 32
  count : g.clusterCount + clusterFirst < 2 ^ 32
  fats : ∀ i < g.fatCount, g.fatOffset + i * g.fatLength < 2 ^ 32
  cluster : ∀ c, clusterValid g.toVolume c →
    (g.clusterHeapOffset + (c - clusterFirst) * g.sectorsPerCluster) * g.sectorSize < 2 ^ 64
  entry : ∀ c, clusterValid g.toVolume c → ∀ i < g.fatCount, ∀ j < 4,
    g.Has (g.fat i) (fatEntryOff g i c + j)
  update : ∀ readonly taken c value disk pos, g.Has (0, bootRegionSectors) pos ∨ g.Has g.heap pos →
    (fatSet g readonly taken c value disk).2 pos = disk pos

section Laws

variable {g : Geometry} {a b : ℕ × ℕ} {devSize pos c i k : ℕ} {readonly : Bool} {disk : ℕ → UInt8}

theorem not_has_of_le (h : a.1 + a.2 ≤ b.1) (ha : g.Has a pos) : ¬g.Has b pos := fun hb =>
  absurd (ha.2.trans_le (Nat.mul_le_mul_right _ h)) (not_lt.mpr hb.1)

theorem fat_end_le (hi : i < k) : (g.fat i).1 + g.fatLength ≤ g.fatOffset + k * g.fatLength := by
  have hle := Nat.mul_le_mul_right g.fatLength hi
  rw [Nat.succ_mul] at hle
  change g.fatOffset + i * g.fatLength + g.fatLength ≤ _
  omega

/-- A write to a FAT changes its entry only. -/
theorem fatWriteOne_of_ne {taken fat value : ℕ}
    (h : ∀ j < 4, clusterValid g.toVolume c → fat < g.fatCount → fatEntryOff g fat c + j ≠ pos) :
    (fatWriteOne g readonly taken fat c value disk).2 pos = disk pos := by
  unfold fatWriteOne
  split_ifs with h1 h2
  · rfl
  · rfl
  rw [not_or, not_not, not_le] at h1
  refine wr_of_outside ?_
  by_contra hpos
  exact h (pos - fatEntryOff g fat c) (by omega) h1.1 h1.2 (by omega)

theorem fatSet_of_ne {taken : ℕ → ℕ} {value : ℕ}
    (h : ∀ fat, ∀ j < 4, clusterValid g.toVolume c → fat < g.fatCount →
      fatEntryOff g fat c + j ≠ pos) :
    (fatSet g readonly taken c value disk).2 pos = disk pos := by
  unfold fatSet
  dsimp only
  split_ifs <;> simp only [fatWriteOne_of_ne (h _)]

/-- What the widths of the fields give. -/
structure Read (g : Geometry) : Prop where
  offset_lt : g.fatOffset < 2 ^ 32
  heap_lt : g.clusterHeapOffset < 2 ^ 32
  count_lt : g.clusterCount < 2 ^ 32
  active_lt : g.activeFat < 2
  active_eq : g.activeFatOffset = (g.fatOffset + g.activeFat * g.fatLength) % 2 ^ 32
  image : g.imageBytes = g.volumeLength * g.sectorSize
  sector_pos : 0 < g.sectorSize
  cluster_pos : 0 < g.sectorsPerCluster

theorem geometry_read (bs : ℕ → UInt8) : (geometry bs).Read :=
  ⟨rd_lt bs 80 4, rd_lt bs 88 4, rd_lt bs 92 4, Nat.mod_lt _ Nat.two_pos, rfl, rfl,
    Nat.two_pow_pos _, Nat.two_pow_pos _⟩

/-- A cluster can only be valid if the number of clusters does not wrap. -/
theorem Read.count (hr : g.Read) (hv : clusterValid g.toVolume c) :
    g.clusterCount + clusterFirst < 2 ^ 32 := by
  have hlt := hr.count_lt
  obtain ⟨hfirst, hlast⟩ := hv
  omega

theorem Read.lt_image (hr : g.Read) (ha : a.1 + a.2 ≤ g.volumeLength) (h : g.Has a pos) :
    pos < g.imageBytes :=
  hr.image ▸ h.2.trans_le (Nat.mul_le_mul_right _ ha)

variable (hr : g.Read) (hc : g.Checked devSize)
include hr hc

theorem Read.active_lt_count : g.activeFat < g.fatCount := by
  obtain ⟨hcount | hcount, hone, -⟩ := hc
  · by_contra h
    exact hone ⟨hcount, by omega⟩
  · exact hcount ▸ hr.active_lt

theorem Read.cluster (hv : clusterValid g.toVolume c) :
    (g.clusterHeapOffset + (c - clusterFirst) * g.sectorsPerCluster) * g.sectorSize < 2 ^ 64 := by
  obtain ⟨-, -, -, -, -, himage, ⟨-, -, hend⟩, -⟩ := hc
  have hlt := hv.2
  have hle : (c - clusterFirst) * g.sectorsPerCluster ≤ g.clusterCount * g.sectorsPerCluster :=
    Nat.mul_le_mul_right _ (by omega)
  rw [hr.image] at himage
  exact (Nat.mul_le_mul_right _ (by omega)).trans_lt himage

variable (hfit : g.fatOffset + g.fatCount * g.fatLength ≤ g.clusterHeapOffset)
include hfit

/-- If no FAT reaches into the heap, an entry is in its FAT. -/
theorem Read.entry (hv : clusterValid g.toVolume c) (hi : i < g.fatCount) {j : ℕ} (hj : j < 4) :
    g.Has (g.fat i) (fatEntryOff g i c + j) := by
  obtain ⟨-, -, -, -, -, -, -, hroom, -⟩ := hc
  have hlt := hv.2
  have hstart : g.fatOffset + i * g.fatLength < 2 ^ 32 :=
    ((Nat.le_add_right _ _).trans ((fat_end_le hi).trans hfit)).trans_lt hr.heap_lt
  rw [fatEntryOff, Nat.mod_eq_of_lt hstart, add_assoc]
  refine ⟨Nat.le_add_right _ _, ?_⟩
  change _ < (g.fatOffset + i * g.fatLength + g.fatLength) * _
  rw [Nat.add_mul _ g.fatLength]
  omega

theorem Read.sound : g.Sound := by
  have hentry := fun c hv i hi j hj => hr.entry (c := c) (i := i) (j := j) hc hfit hv hi hj
  have hactive := hr.active_lt_count hc
  have hcluster := fun c hv => hr.cluster (c := c) hc hv
  obtain ⟨-, -, -, -, hroot, -, ⟨hboot, -, hend⟩, -⟩ := hc
  have hfats : ∀ i < g.fatCount, (g.fat i).1 + g.fatLength ≤ g.clusterHeapOffset :=
    fun i hi => (fat_end_le hi).trans hfit
  have hbelow : ∀ i, 0 + bootRegionSectors ≤ (g.fat i).1 := fun i =>
    (Nat.zero_add _).trans_le (hboot.trans (Nat.le_add_right _ _))
  have hlt : ∀ i < g.fatCount, (g.fat i).1 < 2 ^ 32 := fun i hi =>
    ((Nat.le_add_right _ _).trans (hfats i hi)).trans_lt hr.heap_lt
  refine ⟨?_, ?_, hlt _ hactive, hr.count hroot, hlt, hcluster, hentry, ?_⟩
  · refine .cons ?_ (.cons ?_ (List.pairwise_map.mpr (List.pairwise_lt_range.imp ?_)))
    · simp only [List.mem_cons, List.mem_map]
      rintro _ (rfl | ⟨i, -, rfl⟩) pos
      · exact not_has_of_le (by change _ + _ ≤ g.clusterHeapOffset; omega)
      · exact not_has_of_le (hbelow i)
    · simp only [List.mem_map, List.mem_range]
      rintro _ ⟨i, hi, rfl⟩ pos hpos hin
      exact not_has_of_le (hfats i hi) hin hpos
    · exact fun hik pos => not_has_of_le (fat_end_le hik)
  · rintro pos (h | h | ⟨i, hi, h⟩)
    · exact hr.lt_image (by omega) h
    · exact hr.lt_image hend h
    · exact hr.lt_image ((hfats i hi).trans (by omega)) h
  · rintro readonly taken c value disk pos hpos
    refine fatSet_of_ne fun i j hj hv hi heq => ?_
    have hin := hentry c hv i hi j hj
    rw [heq] at hin
    rcases hpos with hpos | hpos
    · exact not_has_of_le (hbelow i) hpos hin
    · exact not_has_of_le (hfats i hi) hin hpos

omit hfit

/-- Otherwise the first sector of the heap is in the second FAT too. -/
theorem Read.fits (hs : g.Sound) (htwo : g.fatCount = 2) :
    g.fatOffset + 2 * g.fatLength ≤ g.clusterHeapOffset := by
  have hactive := hr.active_lt_count hc
  obtain ⟨-, -, ⟨-, -, -, -, hpos⟩, -, -, -, ⟨-, hend, -⟩, -⟩ := hc
  rw [hr.active_eq, Nat.mod_eq_of_lt hs.active] at hend
  by_contra hover
  have hfirst : g.activeFat = 0 := by
    by_contra hne
    rw [show g.activeFat = 1 by omega, one_mul] at hend
    omega
  rw [hfirst, Nat.zero_mul, add_zero] at hend
  have hapart := hs.apart
  rw [htwo] at hapart
  refine List.rel_of_pairwise_cons (List.pairwise_cons.mp hapart).2
    (List.mem_map.mpr ⟨1, by simp, rfl⟩) (g.clusterHeapOffset * g.sectorSize) ⟨le_rfl, ?_⟩
    ⟨Nat.mul_le_mul_right _ ((congrArg _ (one_mul _)).trans_le hend), ?_⟩
  · exact Nat.mul_lt_mul_of_pos_right (Nat.lt_add_of_pos_right
      (Nat.mul_pos (Nat.pos_of_ne_zero hpos) hr.cluster_pos)) hr.sector_pos
  · refine Nat.mul_lt_mul_of_pos_right ?_ hr.sector_pos
    change _ < g.fatOffset + 1 * g.fatLength + g.fatLength
    omega

end Laws

end Geometry

/-- A volume that `parse_boot` takes is sound exactly if its second FAT ends below the heap. -/
theorem parseBoot_sound_iff {g : Geometry} {devSize : ℕ} {fullCheck : Bool}
    {vbr : Option (ℕ → UInt8)} {bs : ℕ → UInt8}
    (h : parseBoot devSize fullCheck vbr bs = some g) :
    g.Sound ↔ (g.fatCount = 2 → g.fatOffset + 2 * g.fatLength ≤ g.clusterHeapOffset) := by
  unfold parseBoot at h
  split_ifs at h with _ _ _ _ _ hc
  have hr := Geometry.geometry_read bs
  rw [Option.some.inj h] at hr hc
  refine ⟨hr.fits hc, fun hfit => hr.sound hc ?_⟩
  have hactive := hr.active_lt_count hc
  obtain ⟨hone | htwo, -, -, -, -, -, ⟨-, hend, -⟩, -⟩ := hc
  · -- The only FAT is the active one.
    rw [hr.active_eq, show g.activeFat = 0 by omega, Nat.zero_mul, add_zero,
      Nat.mod_eq_of_lt hr.offset_lt] at hend
    rwa [hone, one_mul]
  · exact htwo ▸ hfit htwo

/-- A boot sector with two FATs of one sector, the first of them active, and the heap at `heap`. -/
def twoFats (heap : UInt8) : ℕ → UInt8
  | 0 => 0xEB | 1 => 0x76 | 2 => 0x90
  | 3 => 69 | 4 => 88 | 5 => 70 | 6 => 65 | 7 => 84 | 8 => 32 | 9 => 32 | 10 => 32
  | 72 => 40 | 80 => 24 | 84 => 1 | 88 => heap | 92 => 1 | 96 => 2
  | 108 => 9 | 110 => 2 | 510 => 0x55 | 511 => 0xAA
  | _ => 0

theorem parseBoot_sound_iff_apart :
    ∃ g, parseBoot 0 false none (twoFats 26) = some g ∧ g.fatCount = 2 ∧ g.Sound :=
  have h : parseBoot 0 false none (twoFats 26) = some (geometry (twoFats 26)) := rfl
  ⟨_, h, rfl, (parseBoot_sound_iff h).mpr fun _ => by decide⟩

/-- The second FAT is the heap, and an entry of it a byte of a file. -/
theorem exists_fatSet_heap : ∃ g, parseBoot 0 false none (twoFats 25) = some g ∧
    ¬g.Sound ∧ g.Has g.heap 12808 ∧ (fatSet g false (fun _ => 4) 2 7 fun _ => 0).2 12808 = 7 := by
  refine ⟨_, rfl, fun hs => ?_, ⟨by decide, by decide⟩, by decide⟩
  have hkept := hs.update false (fun _ => 4) 2 7 (fun _ => 0) 12808 (.inr ⟨by decide, by decide⟩)
  exact absurd hkept (by decide)

end RHKernel.Exfat
