import Mathlib.Algebra.Order.Group.Nat

/-!
# tmpfs

A file of `tmpfs.c` is an array of pages that are allocated when they are first written to; a page
that is missing reads as zeros. The mount counts the bytes of all data pages, and a `tmpfs` (unlike
a `ramfs`) refuses a page that would take the count above its limit. The page array itself is
reallocated to twice its length until it is long enough, and is not counted.

An access outside of the page array is `none`. Whether `krealloc` and `kmalloc` find memory is up to
`Memory`: `krealloc` is asked for a number of slots and `kmalloc` for the page with a given index,
each at most once in a call. `used` needs no word size: it is bounded by the limit, or by the memory
of the machine. Directories, names and modes play no part in what the files hold.
-/

namespace RHKernel.Tmpfs

def pageSize : ℕ := 4096

def pageMask : ℕ := pageSize - 1

def uint64Max : ℕ := 2 ^ 64 - 1

/-- `VFS_NODE_FILE` and `VFS_NODE_DIRECTORY`. -/
inductive NodeType
  | file
  | directory
  deriving DecidableEq

/-- The bytes of a page. -/
abbrev Page : Type := ℕ → UInt8

/-- `tmpfs_node`; the length of `pages` is `page_capacity`. -/
structure Node where
  type : NodeType
  size : ℕ
  pages : List (Option Page)
  pageCount : ℕ

structure Mount where
  limit : ℕ
  used : ℕ
  enforceLimit : Bool

/-- The requests for memory that are granted during a call. -/
structure Memory where
  krealloc : ℕ → Bool
  kmalloc : ℕ → Bool

/-- A data page, if it was allocated. -/
def Node.slot (n : Node) (page : ℕ) : Option Page := (n.pages[page]?).join

/-- An entry of the page array is overwritten. -/
def Node.setPage (n : Node) (page : ℕ) (p : Option Page) : Node :=
  { n with pages := n.pages.set page p }

def Node.has (n : Node) (page : ℕ) : Prop := (n.slot page).isSome

instance (n : Node) (page : ℕ) : Decidable (n.has page) := inferInstanceAs (Decidable (_ = true))

/-! ### Accounting -/

def account (m : Mount) (add : ℕ) : Option Mount :=
  if m.enforceLimit ∧ m.limit - m.used < add then none else some { m with used := m.used + add }

def unaccount (m : Mount) (sub : ℕ) : Mount :=
  { m with used := if m.used < sub then 0 else m.used - sub }

/-! ### The page array -/

/-- The loop of `ensure_page_array` that doubles the capacity. -/
def growCap (pages : ℕ) : ℕ → ℕ → Option ℕ
  | 0, _ => none
  | fuel + 1, cap =>
    if cap < pages then
      if uint64Max / 2 < cap then none else growCap pages fuel (cap * 2)
    else some cap

/-- `ensure_page_array`. The capacity cannot be doubled more than 63 times. -/
def ensurePageArray (mem : Memory) (n : Node) (pages : ℕ) : Option Node :=
  if pages ≤ n.pages.length then some n
  else
    match growCap pages 64 (if n.pages.length = 0 then 4 else n.pages.length) with
    | none => none
    | some cap =>
      if uint64Max / 8 < cap then none
      else if mem.krealloc cap then
        some { n with pages := n.pages ++ List.replicate (cap - n.pages.length) none }
      else none

def ensureFileCapacity (mem : Memory) (n : Node) (stop : ℕ) : Option Node :=
  if uint64Max - pageMask < stop then none
  else
    let pages := (stop + pageMask) / pageSize
    (ensurePageArray mem n pages).map fun n =>
      if n.pageCount < pages then { n with pageCount := pages } else n

/-- `ensure_data_page`: whether the page is there now. -/
def ensureDataPage (mem : Memory) (m : Mount) (n : Node) (page : ℕ) :
    Option (Bool × Mount × Node) :=
  if uint64Max / pageSize - 1 < page then some (false, m, n)
  else
    match if n.pages.length ≤ page then ensureFileCapacity mem n ((page + 1) * pageSize)
      else some n with
    | none => some (false, m, n)
    | some n =>
      match n.pages[page]? with
      | none => none
      | some (some _) => some (true, m, n)
      | some none =>
        match account m pageSize with
        | none => some (false, m, n)
        | some m =>
          if mem.kmalloc page then
            some (true, m, n.setPage page (some fun _ => 0))
          else some (false, unaccount m pageSize, n)

/-! ### Calls on a file -/

/-- The loop of `tmpfs_read`. -/
def readLoop (n : Node) (off size : ℕ) : ℕ → ℕ → (ℕ → UInt8) → ℕ × (ℕ → UInt8)
  | 0, done, buf => (done, buf)
  | fuel + 1, done, buf =>
    if done < size then
      let page := (off + done) / pageSize
      let pageOff := (off + done) % pageSize
      let take := min (pageSize - pageOff) (size - done)
      let fill (src : ℕ → UInt8) : ℕ → UInt8 := fun j =>
        if done ≤ j ∧ j < done + take then src (j - done) else buf j
      match n.slot page with
      | some p => readLoop n off size fuel (done + take) (fill fun j => p (pageOff + j))
      | none => readLoop n off size fuel (done + take) (fill fun _ => 0)
    else (done, buf)

/-- `tmpfs_read`. Each round of the loop takes at least one byte. -/
def read (n : Node) (off size : ℕ) (buf : ℕ → UInt8) : ℕ × (ℕ → UInt8) :=
  if n.type ≠ .file ∨ n.size ≤ off then (0, buf)
  else
    let size := min size (n.size - off)
    readLoop n off size size 0 buf

/-- `memcpy` of `take` bytes to the offset `pageOff` of a page. -/
def Page.copy (p : Page) (pageOff take : ℕ) (src : ℕ → UInt8) : Page := fun j =>
  if pageOff ≤ j ∧ j < pageOff + take then src (j - pageOff) else p j

/-- The loop of `tmpfs_write`. -/
def writeLoop (mem : Memory) (off size : ℕ) (buf : ℕ → UInt8) :
    ℕ → ℕ → Mount → Node → Option (ℕ × Mount × Node)
  | 0, done, m, n => some (done, m, n)
  | fuel + 1, done, m, n =>
    if done < size then
      let page := (off + done) / pageSize
      let pageOff := (off + done) % pageSize
      let take := min (pageSize - pageOff) (size - done)
      match ensureDataPage mem m n page with
      | none => none
      | some (false, m, n) => some (done, m, n)
      | some (true, m, n) =>
        match n.slot page with
        | none => none
        | some p =>
          writeLoop mem off size buf fuel (done + take) m
            (n.setPage page (some (p.copy pageOff take fun j => buf (done + j))))
    else some (done, m, n)

def write (mem : Memory) (m : Mount) (n : Node) (off size : ℕ) (buf : ℕ → UInt8) :
    Option (ℕ × Mount × Node) :=
  if n.type ≠ .file then some (0, m, n)
  else if size ≠ 0 ∧ uint64Max - size < off then some (0, m, n)
  else
    match ensureFileCapacity mem n (off + size) with
    | none => some (0, m, n)
    | some n =>
      (writeLoop mem off size buf size 0 m n).map fun (done, m, n) =>
        (done, m, if n.size < off + done then { n with size := off + done } else n)

/-- One round of the loop of `tmpfs_truncate` that frees pages. -/
def freePage (x : Mount × Node) (i : ℕ) : Option (Mount × Node) :=
  match x.2.pages[i]? with
  | none => none
  | some none => some x
  | some (some _) => some (unaccount x.1 pageSize, x.2.setPage i none)

/-- In `tmpfs_truncate`, the last page that stays is cleared from `tail` on. -/
def clearTail (n : Node) (keep tail : ℕ) : Option Node :=
  if keep ≠ 0 ∧ tail ≠ 0 then
    match n.pages[keep - 1]? with
    | none => none
    | some none => some n
    | some (some p) =>
      some (n.setPage (keep - 1) (some (p.copy tail (pageSize - tail) fun _ => 0)))
  else some n

/-- `tmpfs_truncate`: the status, and what becomes of the file. -/
def truncate (mem : Memory) (m : Mount) (n : Node) (size : ℕ) : Option (Bool × Mount × Node) :=
  if n.type ≠ .file then some (false, m, n)
  else if uint64Max - pageMask < size then some (false, m, n)
  else
    let keep := if size ≠ 0 then (size + pageMask) / pageSize else 0
    match if n.size < size then ensureFileCapacity mem n size else some n with
    | none => some (false, m, n)
    | some n => do
      let (m, n) ← (List.range' keep (n.pageCount - keep)).foldlM freePage (m, n)
      let n ← clearTail n keep (size % pageSize)
      some (true, m, { n with pageCount := keep, size := size })

/-- `free_node` of a file: what the mount counts afterwards. -/
def freeNode (m : Mount) (n : Node) : Mount :=
  n.pages.foldl (fun m p => if p.isSome then unaccount m pageSize else m) m

end RHKernel.Tmpfs
