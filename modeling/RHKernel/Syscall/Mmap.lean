import RHKernel.File.Elf.Model
import RHKernel.Smp.Vma

/-!
# Where `sys_mmap` puts a mapping

Without a wish of the caller, `choose_mmap_addr` looks for room in a window of the address space.
It starts at the task's hint, jumps behind every area that is in the way, and starts a second time
at the bottom of the window.

A jump goes to the end of an area, so the areas with a later end get fewer, and the loop ends. It
passes no gap either: whatever starts before the end of the area still meets it. Neither needs the
areas to be sorted or disjoint.
-/

namespace RHKernel.Vma

open Bits List Pmm Vmm

/-- `page_align_up`, which gives zero if the sum does not fit. -/
def pageAlignUp (value : ℕ) : ℕ :=
  if uint64Max - (pageSize - 1) < value then 0 else alignUp value pageSize

def userTopFor (c : Config) (t : Task) : ℕ :=
  if t.abi = .user32 then Elf.user32Top else c.userTop

def mmapMin (t : Task) : ℕ := if t.abi = .user32 then 0x40000000 else 0x200000000000

def mmapWindow (c : Config) (t : Task) : ℕ :=
  if t.abi = .user32 then 0x20000000
  else if c.levels = 5 then 0x8000000000000 else 0x100000000000

/-- `limit`, the end of the window. -/
def mmapLimit (c : Config) (t : Task) : ℕ := min (mmapMin t + mmapWindow c t) (userTopFor c t)

/-- The range meets the area. -/
def VmArea.Meets (a : VmArea) (start «end» : ℕ) : Prop := start < a.end ∧ a.start < «end»

instance (a : VmArea) (start «end» : ℕ) : Decidable (a.Meets start «end») :=
  inferInstanceAs (Decidable (_ ∧ _))

/-- One pass over the window, from `cur` on; zero if it leaves the window, nothing if it does not
end within the fuel. -/
def mmapPass (t : Task) (size limit : ℕ) : ℕ → ℕ → Option ℕ
  | 0, _ => none
  | fuel + 1, cur =>
    if mmapMin t ≤ cur ∧ cur ≤ limit ∧ size ≤ limit - cur then
      match t.vmaList.find? fun a => a.Meets cur (cur + size) with
      | none => some cur
      | some hit => mmapPass t size limit fuel (pageAlignUp hit.end)
    else some 0

/-- `choose_mmap_addr`. A pass meets every area at most once. -/
def chooseMmapAddr (c : Config) (t : Task) (size : ℕ) : Option ℕ := do
  let base := pageAlignUp (if t.mmapHint ≠ 0 then t.mmapHint else mmapMin t)
  let addr ← mmapPass t size (mmapLimit c t) (t.vmaList.length + 1) base
  if addr ≠ 0 then some addr
  else mmapPass t size (mmapLimit c t) (t.vmaList.length + 1) (mmapMin t)

section Search

variable {c : Config} {t : Task} {size limit value x cur fuel : ℕ}

theorem dvd_pageAlignUp (value : ℕ) : pageSize ∣ pageAlignUp value := by
  unfold pageAlignUp
  split_ifs
  · exact dvd_zero _
  · exact dvd_alignUp _ _

/-- A page that starts behind an address starts behind the rounded address, which then exists. -/
theorem pageAlignUp_spec (hx : pageSize ∣ x) (hle : value ≤ x)
    (hmax : x ≤ uint64Max) : value ≤ pageAlignUp value ∧ pageAlignUp value ≤ x := by
  unfold pageAlignUp alignUp uint64Max pageSize at *
  split_ifs <;> omega

/-- The window starts at a page, not the first one, and ends inside the address space. -/
theorem mmapMin_spec (t : Task) : 0 < mmapMin t ∧ pageSize ∣ mmapMin t := by
  unfold mmapMin
  split_ifs <;> decide

theorem mmapLimit_le (c : Config) (t : Task) : mmapLimit c t ≤ uint64Max := by
  refine (min_le_left _ _).trans ?_
  unfold mmapMin mmapWindow
  split_ifs <;> decide

/-- What one pass over the window finds. -/
structure Passed (t : Task) (size limit cur addr : ℕ) : Prop where
  free : addr ≠ 0 → pageSize ∣ addr ∧ mmapMin t ≤ addr ∧ addr + size ≤ limit ∧
    ∀ a ∈ t.vmaList, ¬a.Meets addr (addr + size)
  none : addr = 0 → mmapMin t ≤ cur → ∀ x, cur ≤ x → pageSize ∣ x → x + size ≤ limit →
    ∃ a ∈ t.vmaList, a.Meets x (x + size)

/-- The areas that a pass has still before it. At zero it is out of the window. -/
def ahead (t : Task) (cur : ℕ) : List VmArea := t.vmaList.filter fun a => 0 < cur ∧ cur < a.end

/-- A jump gets behind the area it is made for. -/
theorem length_ahead_lt {a : VmArea} (hpos : 0 < cur) (ha : a ∈ t.vmaList)
    (hlt : cur < a.end) : (ahead t (pageAlignUp a.end)).length < (ahead t cur).length := by
  have hjump : 0 < pageAlignUp a.end → a.end ≤ pageAlignUp a.end := by
    unfold pageAlignUp
    split_ifs
    · exact fun h => absurd h (lt_irrefl 0)
    · exact fun _ => le_alignUp _ (by decide)
  generalize pageAlignUp a.end = next at hjump ⊢
  have hsub : ahead t next = (ahead t cur).filter fun b => 0 < next ∧ next < b.end := by
    rw [ahead, ahead, filter_filter]
    refine filter_congr fun b _ => ?_
    rw [← Bool.decide_and, decide_eq_decide]
    omega
  rw [hsub]
  refine length_filter_lt_length_iff_exists.mpr ⟨a, mem_filter.mpr ⟨ha, ?_⟩, ?_⟩
  · exact decide_eq_true ⟨hpos, hlt⟩
  · rw [decide_eq_true_iff]
    exact fun h => not_lt.mpr (hjump h.1) h.2

/-- **A pass ends** and passes no gap. -/
theorem mmapPass_spec (hlimit : limit ≤ uint64Max) (hcur : pageSize ∣ cur)
    (hfuel : (ahead t cur).length < fuel) :
    ∃ addr, mmapPass t size limit fuel cur = some addr ∧ Passed t size limit cur addr := by
  induction fuel generalizing cur with
  | zero => exact absurd hfuel (Nat.not_lt_zero _)
  | succ fuel ih =>
    rw [mmapPass]
    split_ifs with hin
    · split
      · rename_i hfree
        refine ⟨cur, rfl, fun _ => ⟨hcur, hin.1, by omega, fun a ha hm => ?_⟩, fun h0 => ?_⟩
        · exact find?_eq_none.mp hfree a ha (decide_eq_true hm)
        · exact absurd hin.1 (by rw [h0]; exact not_le.mpr (mmapMin_spec t).1)
      rename_i hit hfind
      have hmem := mem_of_find?_eq_some hfind
      have hmeets : hit.Meets cur (cur + size) := of_decide_eq_true (find?_some hfind :)
      obtain ⟨addr, heq, hrest⟩ := ih (dvd_pageAlignUp hit.end) ((length_ahead_lt
        ((mmapMin_spec t).1.trans_le hin.1) hmem hmeets.1).trans_le (Nat.le_of_lt_succ hfuel))
      refine ⟨addr, heq, hrest.free, fun h0 _ x hx hdvd hfit => ?_⟩
      by_cases hlt : x < hit.end
      · exact ⟨hit, hmem, hlt, hmeets.2.trans_le (Nat.add_le_add_right hx size)⟩
      · obtain ⟨h1, h2⟩ := pageAlignUp_spec hdvd (not_lt.mp hlt) (by omega)
        exact hrest.none h0 (hin.1.trans (hmeets.1.le.trans h1)) x h2 hdvd hfit
    · refine ⟨0, rfl, fun h => absurd rfl h, fun _ hmin x hx _ hfit => ?_⟩
      exact absurd ⟨hmin, by omega, by omega⟩ hin

end Search

/-- **The choice of an address is exact.** The search ends. An address that it returns is a page
of the window with room for the mapping, and it returns zero only if there is none; if the areas
end at pages, no other place of the window has room either. -/
theorem chooseMmapAddr_exact (c : Config) (t : Task) (size : ℕ) :
    ∃ addr, chooseMmapAddr c t size = some addr ∧
      (addr ≠ 0 → pageSize ∣ addr ∧ mmapMin t ≤ addr ∧ addr + size ≤ mmapLimit c t ∧
        ∀ a ∈ t.vmaList, ¬a.Meets addr (addr + size)) ∧
      (addr = 0 → ∀ x, mmapMin t ≤ x → x + size ≤ mmapLimit c t →
        (pageSize ∣ x ∨ ∀ a ∈ t.vmaList, pageSize ∣ a.end) →
        ∃ a ∈ t.vmaList, a.Meets x (x + size)) := by
  have hpass : ∀ {cur}, pageSize ∣ cur → ∃ addr,
      mmapPass t size (mmapLimit c t) (t.vmaList.length + 1) cur = some addr ∧
        Passed t size (mmapLimit c t) cur addr := fun hcur =>
    mmapPass_spec (mmapLimit_le c t) hcur (Nat.lt_succ_of_le (length_filter_le _ _))
  obtain ⟨first, h1, hfirst⟩ :=
    hpass (dvd_pageAlignUp (if t.mmapHint ≠ 0 then t.mmapHint else mmapMin t))
  obtain ⟨second, h2, hsecond⟩ := hpass (mmapMin_spec t).2
  unfold chooseMmapAddr
  simp only [h1, h2, Option.bind_eq_bind, Option.bind_some]
  split_ifs with hfound
  · exact ⟨first, rfl, hfirst.free, fun h => absurd h hfound⟩
  refine ⟨second, rfl, hsecond.free, fun h0 x hmin hfit hpage => ?_⟩
  -- the page that holds `x` has no room, so `x` has none
  have hle := alignDown_le x pageSize
  have hmin' : mmapMin t ≤ alignDown x pageSize :=
    (alignDown_of_dvd (mmapMin_spec t).2).symm.trans_le
      (Nat.mul_le_mul_right _ (Nat.div_le_div_right hmin))
  obtain ⟨a, ha, hend, hstart⟩ := hsecond.none h0 le_rfl _ hmin' (dvd_alignDown x pageSize)
    ((Nat.add_le_add_right hle size).trans hfit)
  refine ⟨a, ha, ?_, hstart.trans_le (Nat.add_le_add_right hle size)⟩
  rcases hpage with hx | hends
  · rwa [alignDown_of_dvd hx] at hend
  · obtain ⟨k, hk⟩ := hends a ha
    unfold alignDown pageSize at *
    omega

end RHKernel.Vma
