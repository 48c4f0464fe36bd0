import RHKernel.File.Fd
import RHKernel.File.Vfs.Model

/-!
# `sys_seek`

The new offset of an open file is a base, which the third argument picks, plus a signed number. The
offset and the size of the file are unsigned 64-bit numbers, the result is a signed one. The sum is
compared with `INT64_MAX` only if the number is not negative.
-/

namespace RHKernel.Vfs

/-- What `sys_seek` reads of an `open_file`: the offset, and type and size of the node if the node
is valid. -/
structure SeekFile where
  offset : BitVec 64
  node : Option (VfsType × BitVec 64)

def int64Max : BitVec 64 := .intMax 64

/-- `base`, for the values 0, 1 and 2 of `SEEK_SET_K`, `SEEK_CUR_K` and `SEEK_END_K`. -/
def SeekFile.base (x : SeekFile) (whence : ℤ) : Option (BitVec 64) :=
  match x.node with
  | none => none
  | some (type, size) =>
    if type = .charDevice then none
    else if whence = 0 then some 0
    else if whence = 1 then some x.offset
    else if whence = 2 then some size
    else none

/-- `next`, unless the call fails. -/
def seekNext (base offset : BitVec 64) : Option (BitVec 64) :=
  if 0 ≤ offset.toInt then
    if .allOnes 64 - base < offset ∨ int64Max < base + offset then none else some (base + offset)
  else
    let sub := -(offset + 1) + 1
    if base < sub then none else some (base - sub)

/-- `sys_seek` by a task, with the open files by number: the result and the files. -/
def sysSeek (current : Option Fd.Table) (files : ℕ → SeekFile) (fd : ℤ) (offset : BitVec 64)
    (whence : ℤ) : ℤ × (ℕ → SeekFile) :=
  match current.bind (Fd.getFile fd) with
  | none => (-1, files)
  | some f =>
    match (files f).base whence with
    | none => (-1, files)
    | some base =>
      match seekNext base offset with
      | none => (-1, files)
      | some next => (next.toInt, Function.update files f ⟨next, (files f).node⟩)

/-- The call over the integers: a sum of base and offset that `int64_t` holds and that is not
negative is stored and returned. -/
def exactSeek (current : Option Fd.Table) (files : ℕ → SeekFile) (fd : ℤ) (offset : BitVec 64)
    (whence : ℤ) : ℤ × (ℕ → SeekFile) :=
  match current.bind (Fd.getFile fd) with
  | none => (-1, files)
  | some f =>
    match (files f).base whence with
    | none => (-1, files)
    | some base =>
      let sum : ℤ := base.toNat + offset.toInt
      if 0 ≤ sum ∧ sum ≤ 2 ^ 63 - 1
        then (sum, Function.update files f ⟨.ofInt 64 sum, (files f).node⟩) else (-1, files)

/-- The sum is exact. It is bounded only if the offset is not negative. -/
theorem seekNext_eq (base offset : BitVec 64) : seekNext base offset =
    if 0 ≤ base.toNat + offset.toInt ∧ (0 ≤ offset.toInt → base.toNat + offset.toInt ≤ 2 ^ 63 - 1)
      then some (.ofInt 64 (base.toNat + offset.toInt)) else none := by
  have hsum : BitVec.ofInt 64 (base.toNat + offset.toInt) = base + offset := by
    rw [BitVec.ofInt_add, BitVec.ofInt_natCast, BitVec.ofNat_toNat, BitVec.ofInt_toInt,
      BitVec.setWidth_eq]
  have hsub : base - (-(offset + 1) + 1) = base + offset := by bv_omega
  have hint := BitVec.toInt_eq_toNat_cond offset
  unfold seekNext
  rw [hsum]
  dsimp only
  rw [hsub]
  by_cases hneg : 0 ≤ offset.toInt
  · have hnat : offset.toInt = offset.toNat := by
      split_ifs at hint <;> omega
    have hmax : int64Max.toNat = 2 ^ 63 - 1 := by decide
    have hones : (BitVec.allOnes 64 - base).toNat = 2 ^ 64 - 1 - base.toNat := by
      rw [BitVec.toNat_sub, BitVec.toNat_allOnes]
      omega
    rw [if_pos hneg, ← ite_not]
    refine if_congr ?_ rfl rfl
    rw [not_or, BitVec.not_lt, BitVec.not_lt, BitVec.le_def, BitVec.le_def, hones, hmax,
      BitVec.toNat_add]
    omega
  · rw [if_neg hneg, ← ite_not]
    have hnat : (-(offset + 1) + 1).toNat = 2 ^ 64 - offset.toNat := by
      split_ifs at hint <;> bv_omega
    refine if_congr ?_ rfl rfl
    rw [BitVec.not_lt, BitVec.le_def, hnat]
    split_ifs at hint <;> omega

/-- **A seek is exact** unless the offset is negative and the sum is above `INT64_MAX` all the
same. -/
theorem sysSeek_exact_iff (current : Option Fd.Table) (files : ℕ → SeekFile) (fd : ℤ)
    (offset : BitVec 64) (whence : ℤ) :
    sysSeek current files fd offset whence = exactSeek current files fd offset whence ↔
      ∀ f base, current.bind (Fd.getFile fd) = some f → (files f).base whence = some base →
        offset.toInt < 0 → base.toNat + offset.toInt ≤ 2 ^ 63 - 1 := by
  unfold sysSeek exactSeek
  rcases current.bind (Fd.getFile fd) with _ | f
  · exact iff_of_true rfl (by rintro f base ⟨⟩)
  dsimp only
  rcases hbase : (files f).base whence with _ | base
  · exact iff_of_true rfl (by rintro f base ⟨⟩ h; cases hbase.symm.trans h)
  have hcond : (∀ f' base', some f = some f' → (files f').base whence = some base' →
      offset.toInt < 0 → base'.toNat + offset.toInt ≤ 2 ^ 63 - 1) ↔
      (offset.toInt < 0 → base.toNat + offset.toInt ≤ 2 ^ 63 - 1) := by
    refine ⟨fun h => h f base rfl hbase, ?_⟩
    rintro h f' base' ⟨⟩ hbase'
    cases hbase.symm.trans hbase'
    exact h
  rw [hcond]
  dsimp only
  rw [seekNext_eq]
  generalize hsum : (base.toNat : ℤ) + offset.toInt = sum
  by_cases hin : 0 ≤ sum ∧ sum ≤ 2 ^ 63 - 1
  · rw [if_pos hin, if_pos ⟨hin.1, fun _ => hin.2⟩]
    refine iff_of_true ?_ fun _ => hin.2
    dsimp only
    rw [BitVec.toInt_ofInt, Int.bmod_eq_of_le (by omega) (by omega)]
  · rw [if_neg hin]
    by_cases hneg : offset.toInt < 0 ∧ 0 ≤ sum
    · rw [if_pos ⟨hneg.2, fun h => absurd h (not_le.mpr hneg.1)⟩]
      refine iff_of_false (fun h => ?_) fun h => hin ⟨hneg.2, h hneg.1⟩
      have hresult : (BitVec.ofInt 64 sum).toInt = -1 := congrArg Prod.fst h
      rw [BitVec.toInt_ofInt, Int.bmod_def] at hresult
      split_ifs at hresult <;> omega
    · rw [if_neg (by omega)]
      exact iff_of_true rfl (by omega)

/-- One byte back from the end of a file of the largest size: the new offset is above `INT64_MAX`,
and the result is neither the offset nor the error. -/
theorem sysSeek_wraps : ∃ current files, (sysSeek current files 3 (-1) 2).1 = -2 ∧
    ((sysSeek current files 3 (-1) 2).2 0).offset.toNat = 2 ^ 64 - 2 ∧
    sysSeek current files 3 (-1) 2 ≠ exactSeek current files 3 (-1) 2 := by
  refine ⟨some (Fd.Table.empty.setFile 3 (some 0)), fun _ => ⟨0, some (.file, -1)⟩, by decide,
    by decide, fun h => ?_⟩
  exact absurd (congrArg Prod.fst h) (by decide)

end RHKernel.Vfs
