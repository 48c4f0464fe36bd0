import RHKernel.File.Tmpfs.Pages
import RHKernel.Lib.Step
import Mathlib.Algebra.Order.BigOperators.Group.Finset

/-!
# tmpfs refines byte arrays under a quota

The files of a mount are created, written, truncated, read and freed one call after the other, with
memory that may run out anywhere. Seen through `Node.contents`, every call does what it should do to
an array of bytes (`Files.Step`), with one exception: a `tmpfs_write` that stores nothing still
moves the end of the file to its offset if that lies behind it. The count of the mount is right in
every state, and within the limit if there is one.
-/

namespace RHKernel.Tmpfs

open Finset Function Option Relation

/-- The files of a mount; `none` is a file that is not there yet or has been freed. -/
structure Fs where
  mount : Mount
  count : ℕ
  node : ℕ → Option Node

/-- A call and its arguments. -/
inductive Op
  | create (granted : Bool)
  | free (i : ℕ)
  | read (i off size : ℕ) (buf : ℕ → UInt8)
  | write (mem : Memory) (i off size : ℕ) (buf : ℕ → UInt8)
  | truncate (mem : Memory) (i size : ℕ)

/-- What a call returns. -/
inductive Reply
  | status (ok : Bool)
  | stored (k : ℕ)
  | bytes (k : ℕ) (out : ℕ → UInt8)

/-- The file that `alloc_node_len` makes. -/
def newFile : Node := ⟨.file, 0, [], 0⟩

/-- The file `i` becomes `n`. -/
def Fs.set (t : Fs) (m : Mount) (i : ℕ) (n : Option Node) : Fs :=
  { t with mount := m, node := update t.node i n }

inductive Fs.Step : Op → Reply → Fs → Fs → Prop
  | create {t : Fs} :
    Fs.Step (.create true) (.status true) t
      { t with count := t.count + 1, node := update t.node t.count (some newFile) }
  | createFails {t : Fs} : Fs.Step (.create false) (.status false) t t
  | free {t : Fs} {i : ℕ} {n : Node} (hi : t.node i = some n) :
    Fs.Step (.free i) (.status true) t (t.set (freeNode t.mount n) i none)
  | read {t : Fs} {i off size : ℕ} {buf : ℕ → UInt8} {n : Node} (hi : t.node i = some n) :
    Fs.Step (.read i off size buf)
      (.bytes (Tmpfs.read n off size buf).1 (Tmpfs.read n off size buf).2) t t
  | write {t : Fs} {mem : Memory} {i off size k : ℕ} {buf : ℕ → UInt8} {m' : Mount} {n n' : Node}
      (hi : t.node i = some n) (hw : Tmpfs.write mem t.mount n off size buf = some (k, m', n')) :
    Fs.Step (.write mem i off size buf) (.stored k) t (t.set m' i (some n'))
  | truncate {t : Fs} {mem : Memory} {i size : ℕ} {done : Bool} {m' : Mount} {n n' : Node}
      (hi : t.node i = some n) (ht : Tmpfs.truncate mem t.mount n size = some (done, m', n')) :
    Fs.Step (.truncate mem i size) (.status done) t (t.set m' i (some n'))

/-- The calls that break the refinement. -/
def Op.Bad (t : Fs) : Op → Prop
  | .write mem i off size _ => ∃ n, t.node i = some n ∧ StretchesEnd mem t.mount n off size
  | _ => False

/-! ### What the files should do -/

/-- The contents of the files that are there. -/
abbrev Files : Type := ℕ → Option Contents

/-- What a call may do to the contents, and what it may return. -/
inductive Files.Step : Op → Reply → Files → Files → Prop
  | create {f : Files} {i : ℕ} (hi : f i = none) :
    Files.Step (.create true) (.status true) f (update f i (some .empty))
  | createFails {f : Files} : Files.Step (.create false) (.status false) f f
  | free {f : Files} {i : ℕ} : Files.Step (.free i) (.status true) f (update f i none)
  | read {f : Files} {i off size : ℕ} {buf out : ℕ → UInt8} {c : Contents} (hi : f i = some c)
      (hout : ∀ j < c.count off size, out j = c.byte (off + j)) :
    Files.Step (.read i off size buf) (.bytes (c.count off size) out) f f
  | writeFails {f : Files} {mem : Memory} {i off size : ℕ} {buf : ℕ → UInt8} :
    Files.Step (.write mem i off size buf) (.stored 0) f f
  | write {f : Files} {mem : Memory} {i off size k : ℕ} {buf : ℕ → UInt8} {c : Contents}
      (hi : f i = some c) (hpos : 0 < k) (hle : k ≤ size) :
    Files.Step (.write mem i off size buf) (.stored k) f
      (update f i (some (c.write off k buf)))
  | truncateFails {f : Files} {mem : Memory} {i size : ℕ} :
    Files.Step (.truncate mem i size) (.status false) f f
  | truncate {f : Files} {mem : Memory} {i size : ℕ} {c : Contents} (hi : f i = some c) :
    Files.Step (.truncate mem i size) (.status true) f
      (update f i (some (c.truncate size)))

/-! ### The count of the mount -/

/-- The data pages of a file. -/
def pagesOf (n : Option Node) : ℕ := n.elim 0 Node.allocated

def Fs.allocated (t : Fs) : ℕ := ∑ i ∈ range t.count, pagesOf (t.node i)

/-- What the users see of the files. -/
def Fs.files (t : Fs) : Files := fun i => (t.node i).map Node.contents

/-- The invariant of a mount. -/
structure Fs.Ok (t : Fs) : Prop where
  node {i : ℕ} {n : Node} : t.node i = some n → i < t.count ∧ n.Ok ∧ n.type = .file
  used : t.mount.used = pageSize * t.allocated
  bound : t.mount.enforceLimit → t.mount.used ≤ t.mount.limit

/-- A mount right after `mount_common`, with any limit. -/
def Fs.Fresh (t : Fs) : Prop := t.mount.used = 0 ∧ t.count = 0 ∧ ∀ i, t.node i = none

section

variable {t t' : Fs} {op : Op} {r : Reply} {i : ℕ} {n n' : Node} {m' : Mount}

theorem Fs.files_set (t : Fs) (m : Mount) (i : ℕ) (n : Option Node) :
    (t.set m i n).files = update t.files i (n.map Node.contents) := by
  funext j
  by_cases hj : j = i
  · subst hj
    simp [Fs.files, Fs.set]
  · simp [Fs.files, Fs.set, hj]

theorem Fs.allocated_set (hi : i < t.count) (m : Mount) (n : Option Node) :
    (t.set m i n).allocated + pagesOf (t.node i) = t.allocated + pagesOf n := by
  have hmem : i ∈ range t.count := mem_range.mpr hi
  have hrest : ∑ j ∈ (range t.count).erase i, pagesOf ((t.set m i n).node j) =
      ∑ j ∈ (range t.count).erase i, pagesOf (t.node j) :=
    sum_congr rfl fun j hj =>
      congrArg pagesOf (update_of_ne (ne_of_mem_erase hj) _ _)
  have hself : (t.set m i n).node i = n := update_self _ _ _
  change (∑ j ∈ range t.count, pagesOf ((t.set m i n).node j)) + _ =
    (∑ j ∈ range t.count, pagesOf (t.node j)) + _
  rw [← add_sum_erase _ _ hmem, ← add_sum_erase _ _ hmem, hrest, hself]
  omega

theorem Fs.Ok.allocated_le (ht : t.Ok) (hi : t.node i = some n) :
    pageSize * n.allocated ≤ t.mount.used := by
  have hle : pagesOf (t.node i) ≤ t.allocated :=
    single_le_sum (f := fun j => pagesOf (t.node j)) (fun _ _ => Nat.zero_le _)
      (mem_range.mpr (ht.node hi).1)
  rw [hi] at hle
  rw [ht.used]
  exact Nat.mul_le_mul_left _ hle

/-- A call on one file whose pages stay counted keeps the invariant. -/
theorem Fs.Ok.set (ht : t.Ok) (hi : t.node i = some n) {x : Option Node}
    (hx : ∀ n', x = some n' → n'.Ok ∧ n'.type = .file)
    (hused : m'.used + pageSize * n.allocated = t.mount.used + pageSize * pagesOf x)
    (hbound : m'.enforceLimit → m'.used ≤ m'.limit) : (t.set m' i x).Ok where
  node {j n'} hj := by
    simp only [Fs.set, update_apply] at hj
    split_ifs at hj with hji
    · exact ⟨hji ▸ (ht.node hi).1, hx n' hj⟩
    · exact ht.node hj
  used := by
    have hsum := t.allocated_set (ht.node hi).1 m' x
    rw [hi] at hsum
    change (t.set m' i x).allocated + n.allocated = t.allocated + pagesOf x at hsum
    rw [ht.used] at hused
    change m'.used = _
    unfold pageSize at *
    omega
  bound := hbound

theorem Fs.Fresh.ok (h : t.Fresh) : t.Ok where
  node hi := absurd ((h.2.2 _).symm.trans hi) (some_ne_none _).symm
  used := by
    rw [h.1, Fs.allocated, h.2.1]
    rfl
  bound _ := by
    rw [h.1]
    exact Nat.zero_le _

theorem Fs.Ok.node_count (ht : t.Ok) : t.node t.count = none := by
  cases hn : t.node t.count with
  | none => rfl
  | some n => exact absurd (ht.node hn).1 (lt_irrefl _)

theorem newFile_ok : newFile.Ok where
  count_le := le_rfl
  has_lt h := absurd h Bool.false_ne_true
  size_le := le_rfl
  zero _ := rfl

theorem Fs.Ok.create (ht : t.Ok) : Fs.Ok { t with
    count := t.count + 1, node := update t.node t.count (some newFile) } where
  node {j n} hj := by
    simp only [update_apply] at hj
    split_ifs at hj with hji
    · obtain rfl := some.inj hj
      exact ⟨hji ▸ Nat.lt_succ_self _, newFile_ok, rfl⟩
    · obtain ⟨h1, h2⟩ := ht.node hj
      exact ⟨Nat.lt_succ_of_lt h1, h2⟩
  used := by
    have hold : ∑ j ∈ range t.count,
        pagesOf (update t.node t.count (some newFile) j) = t.allocated :=
      sum_congr rfl fun j hj =>
        congrArg pagesOf (update_of_ne (mem_range.mp hj).ne _ _)
    unfold Fs.allocated
    simp only
    rw [sum_range_succ, hold, update_self]
    exact ht.used
  bound := ht.bound

/-! ### Steps -/

/-- **Step lemma**: every call keeps the invariant. -/
theorem Fs.Step.ok (h : t.Step op r t') (ht : t.Ok) : t'.Ok := by
  cases h with
  | create => exact ht.create
  | createFails => exact ht
  | @free _ i n hi =>
    have hle := ht.allocated_le hi
    rw [freeNode_eq hle]
    refine ht.set hi (fun n' h => absurd h (some_ne_none n').symm) ?_ fun he => ?_
    · simp only [pagesOf, elim_none]
      omega
    · exact (Nat.sub_le _ _).trans (ht.bound he)
  | read => exact ht
  | @write _ mem i off size k buf m' n n' hi hw =>
    obtain ⟨k1, m1, n1, h1, hs⟩ := write_spec mem t.mount (ht.node hi).2.1 off size buf
    cases hw.symm.trans h1
    refine ht.set hi (fun n2 h => ?_) hs.counted.used (hs.counted.bound ht.bound)
    cases h
    exact ⟨hs.ok, hs.type.trans (ht.node hi).2.2⟩
  | @truncate _ mem i size done m' n n' hi htr =>
    obtain ⟨d, m1, n1, h1, hs⟩ := truncate_spec mem (ht.node hi).2.1 (ht.allocated_le hi) size
    cases htr.symm.trans h1
    refine ht.set hi (fun n2 h => ?_) hs.counted.used (hs.counted.bound ht.bound)
    cases h
    exact ⟨hs.ok, hs.type.trans (ht.node hi).2.2⟩

theorem Fs.files_of_node (hi : t.node i = some n) : t.files i = some n.contents := by
  rw [Fs.files, hi]
  rfl

theorem Fs.files_set_same (hi : t.node i = some n) (h : n'.contents = n.contents) :
    (t.set m' i (some n')).files = t.files := by
  rw [Fs.files_set, map_some, h, ← t.files_of_node hi, update_eq_self]

/-- **Refinement**: a call does to the contents what it should, if and only if it does not stretch
the file. -/
theorem Fs.Step.refines_iff (h : t.Step op r t') (ht : t.Ok) :
    Files.Step op r t.files t'.files ↔ ¬op.Bad t := by
  cases h with
  | create =>
    refine ⟨fun _ => id, fun _ => ?_⟩
    have hfiles : Fs.files { t with
        count := t.count + 1, node := update t.node t.count (some newFile) } =
        update t.files t.count (some .empty) := by
      exact t.files_set t.mount t.count (some newFile)
    rw [hfiles]
    exact .create (by rw [Fs.files, ht.node_count]; rfl)
  | createFails => exact ⟨fun _ => id, fun _ => .createFails⟩
  | free =>
    refine ⟨fun _ => id, fun _ => ?_⟩
    rw [Fs.files_set]
    exact .free
  | @read _ i off size buf n hi =>
    refine ⟨fun _ => id, fun _ => ?_⟩
    obtain ⟨h1, h2⟩ := read_spec (ht.node hi).2.2 off size buf
    rw [h1] at h2 ⊢
    exact .read (t.files_of_node hi) h2
  | @write _ mem i off size k buf m' n n' hi hw =>
    obtain ⟨k1, m1, n1, h1, hs⟩ := write_spec mem t.mount (ht.node hi).2.1 off size buf
    cases hw.symm.trans h1
    have hbad : (Op.write mem i off size buf).Bad t ↔ StretchesEnd mem t.mount n off size := by
      refine ⟨fun ⟨n2, h2, h3⟩ => ?_, fun h => ⟨n, hi, h⟩⟩
      obtain rfl := some.inj (hi.symm.trans h2)
      exact h3
    rw [hbad]
    rcases eq_zero_or_pos k with hk | hk
    · rw [← hs.kept hk]
      subst hk
      refine ⟨fun hstep => ?_, fun hsame => ?_⟩
      · have hsame : (t.set m' i (some n')).files = t.files := by
          generalize (t.set m' i (some n')).files = f' at hstep
          cases hstep with
          | writeFails => rfl
          | write _ hpos => exact absurd hpos (lt_irrefl 0)
        have hfile := congrFun hsame i
        rw [Fs.files_set, update_self, t.files_of_node hi] at hfile
        exact some.inj hfile
      · rw [t.files_set_same hi hsame]
        exact .writeFails
    · refine ⟨fun _ h => hk.ne' (hs.stretched h), fun _ => ?_⟩
      rw [Fs.files_set, map_some, hs.stored hk]
      exact .write (t.files_of_node hi) hk hs.le
  | @truncate _ mem i size done m' n n' hi htr =>
    obtain ⟨d, m1, n1, h1, hs⟩ := truncate_spec mem (ht.node hi).2.1 (ht.allocated_le hi) size
    cases htr.symm.trans h1
    refine ⟨fun _ => id, fun _ => ?_⟩
    cases done with
    | false =>
      rw [t.files_set_same hi hs.contents]
      exact .truncateFails
    | true =>
      rw [Fs.files_set, map_some, hs.contents]
      exact .truncate (t.files_of_node hi)

end

/-- **Refinement of byte arrays under a quota.** In every state a mount can reach, the count is the
size of its data pages and within the limit, no call accesses memory outside of a page array, and
every call does what it should to the contents of the files, if and only if it is not a write that
stores nothing and stretches its file. -/
theorem refines_of_run {t₀ t : Fs} (hfresh : t₀.Fresh)
    (hrun : ReflTransGen (fun a b => ∃ op r, Fs.Step op r a b) t₀ t) :
    t.mount.used = pageSize * t.allocated ∧
      (t.mount.enforceLimit → t.mount.used ≤ t.mount.limit) ∧
      (∀ i n, t.node i = some n → ∀ mem off size buf,
        (write mem t.mount n off size buf).isSome ∧ (truncate mem t.mount n size).isSome) ∧
      ∀ op r t', t.Step op r t' → (Files.Step op r t.files t'.files ↔ ¬op.Bad t) := by
  have ht : t.Ok := Step.run_invariant (I := Fs.Ok) hrun hfresh.ok
    fun ha ⟨_, _, hstep⟩ => hstep.ok ha
  refine ⟨ht.used, ht.bound, fun i n hi mem off size buf => ?_, fun op r t' h => h.refines_iff ht⟩
  obtain ⟨_, _, _, h1, -⟩ := write_spec mem t.mount (ht.node hi).2.1 off size buf
  obtain ⟨_, _, _, h2, -⟩ := truncate_spec mem (ht.node hi).2.1 (ht.allocated_le hi) size
  rw [h1, h2]
  exact ⟨rfl, rfl⟩

/-- A new `tmpfs`. -/
def freshFs (limit : ℕ) : Fs := ⟨⟨limit, 0, true⟩, 0, fun _ => none⟩

/-- Memory does not run out. -/
def allMemory : Memory := ⟨fun _ => true, fun _ => true⟩

/-- A new `tmpfs` with an empty file. -/
def oneFile (limit : ℕ) : Fs :=
  { freshFs limit with count := 1, node := update (fun _ => none) 0 (some newFile) }

theorem oneFile_reached (limit : ℕ) : ReflTransGen (fun a b => ∃ op r, Fs.Step op r a b)
    (freshFs limit) (oneFile limit) := .single ⟨_, _, .create⟩

/-- One byte is stored on a page that is charged to the mount. -/
theorem refines_of_run_write : ∃ t, ReflTransGen (fun a b => ∃ op r, Fs.Step op r a b)
    (freshFs 8192) t ∧ t.mount.used = 4096 ∧ t.allocated = 1 := by
  have heval : (write allMemory (oneFile 8192).mount newFile 5 1 fun _ => 1).map
      (fun x => (x.1, x.2.1.used)) = some (1, 4096) := by
    decide
  obtain ⟨⟨k, m, n⟩, hw, hused⟩ := map_eq_some_iff.mp heval
  have hrun := (oneFile_reached 8192).tail ⟨_, _, .write (t := oneFile 8192) (i := 0) rfl hw⟩
  obtain ⟨h1, -⟩ := refines_of_run ⟨rfl, rfl, fun _ => rfl⟩ hrun
  have h4096 : m.used = 4096 := congrArg Prod.snd hused
  refine ⟨_, hrun, h4096, ?_⟩
  change m.used = pageSize * _ at h1
  unfold pageSize at h1
  omega

/-- A write of one byte at offset 5 that the quota refuses makes the empty file five bytes long. -/
theorem refused_write_stretches : ∃ t op r t',
    ReflTransGen (fun a b => ∃ op r, Fs.Step op r a b) (freshFs 1) t ∧
      t.Step op r t' ∧ r = .stored 0 ∧ ¬Files.Step op r t.files t'.files := by
  have heval : (write allMemory (oneFile 1).mount newFile 5 1 fun _ => 1).map
      (fun x => (x.1, x.2.2.size)) = some (0, 5) := by
    decide
  obtain ⟨⟨k, m, n⟩, hw, hsize⟩ := map_eq_some_iff.mp heval
  obtain rfl : k = 0 := congrArg Prod.fst hsize
  have hnode : (oneFile 1).node 0 = some newFile := rfl
  refine ⟨oneFile 1, _, _, _, oneFile_reached 1, .write hnode hw, rfl, fun h => ?_⟩
  have hsame : ((oneFile 1).set m 0 (some n)).files = (oneFile 1).files := by
    generalize ((oneFile 1).set m 0 (some n)).files = f' at h
    cases h with
    | writeFails => rfl
    | write _ hpos => exact absurd hpos (lt_irrefl 0)
  have hfile := congrFun hsame 0
  have h5 : n.size = 5 := congrArg Prod.snd hsize
  have h0 : n.size = 0 := congrArg Contents.size (some.inj hfile)
  omega

end RHKernel.Tmpfs
