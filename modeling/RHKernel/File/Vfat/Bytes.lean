import RHKernel.File.Vfat.Handles
import RHKernel.Lib.Step

/-!
# A file as a byte array

A cluster is cleared when a file gets it, but what a file leaves in its last cluster when it shrinks
stays there. A write behind the end and a truncation to a larger size take these bytes into the file
again, where a byte array has zeros. In runs in which they are zero, a file is a byte array.
-/

namespace RHKernel.Vfat

open Relation

/-- A call on a file and on the byte array that it should be, with zeros where the file grows. A
write stores as many bytes as it returns. -/
inductive Call (v : Volume) : Disk × Node × Contents → Disk × Node × Contents → Prop
  | read (x : Disk × Node × Contents) : Call v x x
  | write {d : Disk} {n : Node} (f : Contents) {off : ℕ} (buf : List UInt8)
    (hclear : Clear v d n off) : Call v (d, n, f)
      ((vfatWrite v d n off buf).2.2, (vfatWrite v d n off buf).2.1,
        putBuf f off buf (vfatWrite v d n off buf).1)
  | truncate {d : Disk} {n : Node} (f : Contents) {size : ℕ} (hclear : Clear v d n size) :
    Call v (d, n, f)
      ((vfatTruncate v d n size).2.2, (vfatTruncate v d n size).2.1,
        if (vfatTruncate v d n size).1 = true then f.truncate size else f)

/-- The file has the size and the bytes of `f`; a call succeeds unless it is refused or there is no
cluster to allocate, and after it the directory entry is up to date. -/
structure IsArray (v : Volume) (d : Disk) (n : Node) (f : Contents) : Prop where
  size_eq : n.size = f.size
  read : ∀ off size,
    vfatRead v d n off size = (List.range (f.count off size)).map fun k => f.byte (off + k)
  write : ∀ off buf, ((vfatWrite v d n off buf).1 = buf.length ∨ v.readonly = true ∨
      sizeMax < off + buf.length ∨ fatAllocCluster v (vfatWrite v d n off buf).2.2 = none) ∧
    ((vfatWrite v d n off buf).1 ≠ 0 →
      Entered (vfatWrite v d n off buf).2.2 (vfatWrite v d n off buf).2.1)
  truncate : ∀ size, ((vfatTruncate v d n size).1 = true ∨ v.readonly = true ∨ sizeMax < size ∨
      fatAllocCluster v (vfatTruncate v d n size).2.2 = none) ∧
    ((vfatTruncate v d n size).1 = true →
      Entered (vfatTruncate v d n size).2.2 (vfatTruncate v d n size).2.1)

variable {v : Volume} {d d' : Disk} {n n' : Node} {f f' : Contents}

theorem Call.keeps {x y : Disk × Node × Contents} (h : Call v x y)
    (hx : Sees v x.1 x.2.1 x.2.2 ∧ Described x.1 x.2.1) :
    Sees v y.1 y.2.1 y.2.2 ∧ Described y.1 y.2.1 := by
  cases h with
  | read => exact hx
  | write f buf hclear =>
    obtain ⟨f', -, hs, hd, hf, -⟩ := vfatWrite_spec hx.1 hx.2 _ buf
    exact ⟨hf hclear ▸ hs, hd⟩
  | @truncate d n f size hclear =>
    obtain ⟨f', hf, hs, hd, heq, -⟩ := vfatTruncate_spec hx.1 hx.2 size
    refine ⟨?_, hd⟩
    split_ifs at hf ⊢ with hok
    · exact (heq hok).1 hclear ▸ hs
    · exact hf ▸ hs

/-- **A file is a byte array**, in every run of calls in which it grows over zeros only. -/
theorem isArray_of_run (hs : Sees v d n f) (hd : Described d n)
    (hrun : ReflTransGen (Call v) (d, n, f) (d', n', f')) : IsArray v d' n' f' := by
  obtain ⟨hs', hd'⟩ : Sees v d' n' f' ∧ Described d' n' :=
    Step.run_invariant (I := fun x => Sees v x.1 x.2.1 x.2.2 ∧ Described x.1 x.2.1) hrun ⟨hs, hd⟩
      fun hx h => Call.keeps h hx
  refine ⟨hs'.elim fun _ h => h.size_eq.symm, vfatRead_eq hs', fun off buf => ?_, fun size => ?_⟩
  · obtain ⟨_, hw, -, -, -, hentered, hfull⟩ := vfatWrite_spec hs' hd' off buf
    exact ⟨hw.1.eq_or_lt.imp_right hfull, hentered⟩
  · obtain ⟨_, -, -, -, hok, hfull⟩ := vfatTruncate_spec hs' hd' size
    exact ⟨(Bool.eq_false_or_eq_true _).imp_right hfull, fun h => (hok h).2⟩

/-- A byte is written to an empty file. -/
theorem isArray_of_run_write : IsArray smallVolume
    (vfatWrite smallVolume emptyA.disk ⟨0, 0⟩ 0 [7]).2.2
    (vfatWrite smallVolume emptyA.disk ⟨0, 0⟩ 0 [7]).2.1 (putBuf .empty 0 [7] 1) :=
  isArray_of_run emptyA_fresh.sees ⟨rfl, .inl rfl⟩
    (.single (.write .empty [7] fun _ _ p _ hp => absurd hp (Nat.not_lt_zero p)))

/-- Two bytes are written, the file is cut to one byte and gets two again: the second is back. -/
theorem regrown_not_zero :
    let w := vfatWrite smallVolume emptyA.disk ⟨0, 0⟩ 0 [7, 7]
    let cut := vfatTruncate smallVolume w.2.2 w.2.1 1
    let grown := vfatTruncate smallVolume cut.2.2 cut.2.1 2
    w.1 = 2 ∧ cut.1 = true ∧ grown.1 = true ∧
      vfatRead smallVolume grown.2.2 grown.2.1 0 2 = [7, 7] ∧
      (((putBuf .empty 0 [7, 7] 2).truncate 1).truncate 2).byte 1 = 0 := by
  decide

end RHKernel.Vfat
