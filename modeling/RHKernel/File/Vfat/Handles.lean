import RHKernel.File.Vfat.Names
import RHKernel.File.Vfat.Views

/-!
# The handles of one file

The driver finds a file under every spelling of its name that differs in the case of letters only,
the cache of the VFS under the name on disk alone. A second spelling is therefore looked up by the
driver again, which makes another node with its own first cluster and size, and neither node is told
of what is done through the other.

As long as there is one node, all handles see the same bytes, the directory entry describes them,
and they are the result of the operations in their order.
-/

namespace RHKernel.Vfat

variable {v : Volume} {f f' : Contents}

/-- A file, its name on disk, the nodes that were made for it, and the one among them that is a
child of the directory in the VFS. -/
structure Sys where
  name : List UInt8
  disk : Disk
  nodes : List Node
  cached : Option ℕ

/-- The node that `make_vnode` makes from the directory entry. -/
def Sys.entry (s : Sys) : Node := ⟨s.disk.entryFirst, s.disk.entrySize⟩

/-- An operation on the file; `memory` says that the driver gets the memory for a node. -/
inductive Op
  | openAs (spelling : List UInt8) (memory : Bool)
  | read (handle off size : ℕ)
  | write (handle off : ℕ) (buf : List UInt8)
  | truncate (handle size : ℕ)

/-- What an operation returns. -/
inductive Result
  | handle (id : Option ℕ)
  | bytes (buf : List UInt8)
  | count (k : ℕ)
  | status (ok : Bool)
  deriving DecidableEq

/-- `finddir_len` for the name of the file, with `vfat_finddir` behind it: the cache compares names
exactly, and `attach_child_if_needed` refuses a second child with the same name. -/
def Sys.finddir (s : Sys) (spelling : List UInt8) (memory : Bool) : Option ℕ × Sys :=
  if s.cached.isSome ∧ spelling = s.name then (s.cached, s)
  else if ¬nameEq s.name spelling ∨ memory = false then (none, s)
  else
    (some s.nodes.length,
      { s with nodes := s.nodes ++ [s.entry], cached := s.cached.or (some s.nodes.length) })

/-- The disk and one of the nodes after an operation on it. -/
def Sys.set (s : Sys) (handle : ℕ) (n : Node) (d : Disk) : Sys :=
  { s with disk := d, nodes := s.nodes.set handle n }

def Sys.step (v : Volume) (s : Sys) : Op → Result × Sys
  | .openAs spelling memory =>
    let (id, s) := s.finddir spelling memory
    (.handle id, s)
  | .read handle off size =>
    match s.nodes[handle]? with
    | none => (.bytes [], s)
    | some n => (.bytes (vfatRead v s.disk n off size), s)
  | .write handle off buf =>
    match s.nodes[handle]? with
    | none => (.count 0, s)
    | some n =>
      let (k, n, d) := vfatWrite v s.disk n off buf
      (.count k, s.set handle n d)
  | .truncate handle size =>
    match s.nodes[handle]? with
    | none => (.status false, s)
    | some n =>
      let (ok, n, d) := vfatTruncate v s.disk n size
      (.status ok, s.set handle n d)

/-- The operation goes through a handle that was opened. -/
def Op.Opened (s : Sys) : Op → Prop
  | .openAs _ _ => True
  | .read handle _ _ => handle < s.nodes.length
  | .write handle _ _ => handle < s.nodes.length
  | .truncate handle _ => handle < s.nodes.length

/-- The file is opened by another spelling of its name while it has a node already. -/
def Op.Bad (s : Sys) : Op → Prop
  | .openAs spelling _ => s.cached.isSome ∧ spelling ≠ s.name ∧ nameEq s.name spelling
  | _ => False

/-! ### Runs -/

/-- What an operation with this result does to a file that looks like `f`. -/
def Does (f : Contents) : Op → Result → Contents → Prop
  | .openAs _ _, .handle _, f' => f' = f
  | .read _ off size, .bytes buf, f' =>
    f' = f ∧ buf = (List.range (f.count off size)).map fun k => f.byte (off + k)
  | .write _ off buf, .count k, f' => WriteOf f off buf k f'
  | .truncate _ size, .status ok, f' => if ok = true then TruncateOf f size f' else f' = f
  | _, _, _ => False

/-- The operations of a run with their results, the last one in front. -/
abbrev Trace : Type := List (Op × Result)

/-- The result of operations in the order they were made. -/
inductive Outcome (f₀ : Contents) : Trace → Contents → Prop
  | nil : Outcome f₀ [] f₀
  | cons {tr : Trace} {f f' : Contents} {op : Op} {r : Result} (h : Outcome f₀ tr f)
    (hdoes : Does f op r f') : Outcome f₀ ((op, r) :: tr) f'

/-- A run of operations through opened handles, none of which opens the file by another spelling
while it has a node. -/
inductive Run (v : Volume) (s₀ : Sys) : Trace → Sys → Prop
  | nil : Run v s₀ [] s₀
  | cons {tr : Trace} {s : Sys} (h : Run v s₀ tr s) (op : Op) (hopen : op.Opened s)
    (hgood : ¬op.Bad s) : Run v s₀ ((op, (s.step v op).1) :: tr) (s.step v op).2

/-- A file on disk that looks like `f` and was not opened yet. -/
structure Sys.Fresh (v : Volume) (s : Sys) (f : Contents) : Prop where
  nodes_eq : s.nodes = []
  cached_eq : s.cached = none
  sees : Sees v s.disk s.entry f

/-- There is at most one node, which is the cached one, and the entry describes it. -/
inductive Sys.Single (v : Volume) (s : Sys) (f : Contents) : Prop
  | fresh (h : s.Fresh v f)
  | one (n : Node) (hnodes : s.nodes = [n]) (hcached : s.cached = some 0)
    (hsees : Sees v s.disk n f) (hdesc : Described s.disk n)

theorem Sys.Single.views {s : Sys} (h : s.Single v f) :
    (∀ n ∈ s.nodes, Sees v s.disk n f) ∧ Sees v s.disk s.entry f := by
  cases h with
  | fresh h =>
    refine ⟨fun n hn => ?_, h.sees⟩
    rw [h.nodes_eq] at hn
    exact absurd hn List.not_mem_nil
  | one n hnodes hcached hsees hdesc =>
    refine ⟨fun m hm => ?_, hdesc.sees hsees⟩
    rw [hnodes, List.mem_singleton] at hm
    exact hm ▸ hsees

theorem Sys.Single.opened {s : Sys} {handle : ℕ} (h : s.Single v f)
    (hopen : handle < s.nodes.length) :
    ∃ n, handle = 0 ∧ s.nodes = [n] ∧ s.cached = some 0 ∧ Sees v s.disk n f ∧
      Described s.disk n := by
  cases h with
  | fresh h =>
    rw [h.nodes_eq] at hopen
    exact absurd hopen (Nat.not_lt_zero _)
  | one n hnodes hcached hsees hdesc =>
    rw [hnodes, List.length_singleton] at hopen
    exact ⟨n, Nat.lt_one_iff.mp hopen, hnodes, hcached, hsees, hdesc⟩

theorem Sys.Single.finddir {s : Sys} {spelling : List UInt8} {memory : Bool} (h : s.Single v f)
    (hgood : ¬(Op.openAs spelling memory).Bad s) : (s.finddir spelling memory).2.Single v f := by
  unfold Sys.finddir
  by_cases hhit : s.cached.isSome ∧ spelling = s.name
  · rw [if_pos hhit]
    exact h
  split_ifs with hfail
  · exact h
  rw [not_or, not_not] at hfail
  cases h with
  | fresh h =>
    refine .one s.entry ?_ ?_ h.sees ⟨rfl, Or.inl rfl⟩
    · simp [h.nodes_eq]
    · simp only [h.cached_eq, h.nodes_eq]
      rfl
  | one n hnodes hcached hsees hdesc =>
    have hsome : s.cached.isSome := by rw [hcached]; rfl
    exact absurd ⟨hsome, fun he => hhit ⟨hsome, he⟩, hfail.1⟩ hgood

theorem Sys.Single.step {s : Sys} {op : Op} (h : s.Single v f) (hopen : op.Opened s)
    (hgood : ¬op.Bad s) : ∃ f', Does f op (s.step v op).1 f' ∧ (s.step v op).2.Single v f' := by
  cases op with
  | openAs spelling memory => exact ⟨f, rfl, h.finddir hgood⟩
  | read handle off size =>
    obtain ⟨n, rfl, hnodes, hcached, hsees, hdesc⟩ := h.opened hopen
    rw [Sys.step, hnodes]
    exact ⟨f, ⟨rfl, vfatRead_eq hsees off size⟩, h⟩
  | write handle off buf =>
    obtain ⟨n, rfl, hnodes, hcached, hsees, hdesc⟩ := h.opened hopen
    obtain ⟨f', h1, h2, h3, -⟩ := vfatWrite_spec hsees hdesc off buf
    rw [Sys.step, hnodes]
    refine ⟨f', h1, .one _ ?_ hcached h2 h3⟩
    simp [Sys.set, hnodes]
  | truncate handle size =>
    obtain ⟨n, rfl, hnodes, hcached, hsees, hdesc⟩ := h.opened hopen
    obtain ⟨f', h1, h2, h3, -⟩ := vfatTruncate_spec hsees hdesc size
    rw [Sys.step, hnodes]
    refine ⟨f', h1, .one _ ?_ hcached h2 h3⟩
    simp [Sys.set, hnodes]

/-- **One coherent view.** After every run in which no second spelling is opened while the file has
a node, the file is the result of the operations in their order, and so it is seen through every
handle and described by the directory entry. -/
theorem coherent_of_run {s₀ s : Sys} {f₀ : Contents} {tr : Trace} (h0 : s₀.Fresh v f₀)
    (hrun : Run v s₀ tr s) :
    ∃ f, Outcome f₀ tr f ∧ (∀ n ∈ s.nodes, Sees v s.disk n f) ∧ Sees v s.disk s.entry f := by
  have hsingle : ∃ f, Outcome f₀ tr f ∧ s.Single v f := by
    induction hrun with
    | nil => exact ⟨f₀, .nil, .fresh h0⟩
    | cons h op hopen hgood ih =>
      obtain ⟨f, hf, hs⟩ := ih
      obtain ⟨f', hdoes, hs'⟩ := hs.step hopen hgood
      exact ⟨f', .cons hf hdoes, hs'⟩
  obtain ⟨f, hf, hs⟩ := hsingle
  exact ⟨f, hf, hs.views⟩

/-! ### Two spellings -/

/-- A small volume with room for two clusters of 512 bytes. -/
def smallVolume : Volume := ⟨.fat12, false, 2, 512, by decide, by decide⟩

/-- An empty file `A`. -/
def emptyA : Sys := ⟨[0x41], ⟨fun _ => 0, fun _ _ => 0, 0, 0, 2, none⟩, [], none⟩

theorem emptyA_fresh : emptyA.Fresh smallVolume Contents.empty :=
  ⟨rfl, rfl, [], ⟨trivial, List.nodup_nil, rfl⟩, le_refl 0, rfl,
    fun p hp => absurd hp (Nat.not_lt_zero p)⟩

/-- The file is opened, and a byte is written to it. -/
def oneSpelling : Sys :=
  ((emptyA.step smallVolume (.openAs [0x61] true)).2.step smallVolume (.write 0 0 [7])).2

theorem coherent_of_run_write : ∃ f,
    Outcome Contents.empty [(.write 0 0 [7], .count 1), (.openAs [0x61] true, .handle (some 0))] f ∧
      (∀ n ∈ oneSpelling.nodes, Sees smallVolume oneSpelling.disk n f) ∧
      Sees smallVolume oneSpelling.disk oneSpelling.entry f := by
  have hrun : Run smallVolume emptyA _ _ :=
    Run.nil.cons (.openAs [0x61] true) trivial fun h => absurd h.1 (by decide)
  have hrun' := hrun.cons (.write 0 0 [7])
    (show 0 < (emptyA.step smallVolume (.openAs [0x61] true)).2.nodes.length by decide)
    fun h => h
  exact coherent_of_run emptyA_fresh hrun'

/-- The file is opened under its name and under another spelling, and a byte is written through the
second handle. -/
def twoSpellings : Sys :=
  (((emptyA.step smallVolume (.openAs [0x41] true)).2.step smallVolume (.openAs [0x61] true)).2.step
    smallVolume (.write 1 0 [7])).2

/-- The two handles see different files: one byte and none. -/
theorem twoSpellings_differ : emptyA.Fresh smallVolume Contents.empty ∧
    twoSpellings.nodes.length = 2 ∧
      ¬∃ f, ∀ n ∈ twoSpellings.nodes, Sees smallVolume twoSpellings.disk n f := by
  refine ⟨emptyA_fresh, by decide, ?_⟩
  rintro ⟨f, hf⟩
  have hmem : ∀ size < 2, ∃ n ∈ twoSpellings.nodes, n.size = size := by
    decide
  have hsize : ∀ size < 2, f.size = size := fun size hlt => by
    obtain ⟨n, hn, rfl⟩ := hmem size hlt
    obtain ⟨l, hl⟩ := hf n hn
    exact hl.size_eq
  exact absurd ((hsize 0 (by decide)).symm.trans (hsize 1 (by decide))) (by decide)

end RHKernel.Vfat
