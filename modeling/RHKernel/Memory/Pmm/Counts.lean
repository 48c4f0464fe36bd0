import RHKernel.Memory.Pmm.Partition

/-!
# The table of reference counts

Reference counts live in a radix tree that is filled on demand with pages from the allocator
itself. Seen from outside it is a total map from page numbers to counts, all zero at the start.

`CountStep` runs the allocator and such a map side by side: every operation changes the map the
way its description says. `counts_of_run` shows that the table always reads the map, whatever
nodes of the tree exist, and that slots are never shared.
-/

namespace RHKernel.Pmm

open DyadicBlock Step Function Relation

/-- All pages of a block get the count `v`. -/
def setBlock (n : ℕ → ℕ) (b : Block) (v : ℕ) (p : ℕ) : ℕ :=
  if Covers (pfn b.addr) b.order p then v else n p

/-- One reference more; counts have 32 bits. -/
def countUp (n : ℕ → ℕ) (p : ℕ) : ℕ → ℕ := update n p ((n p + 1) % 2 ^ 32)

/-- One reference less; a count of zero stays zero. -/
def countDown (n : ℕ → ℕ) (p : ℕ) : ℕ → ℕ := update n p (n p - 1)

/-- One operation of a caller as in `OpStep`, together with its effect on the abstract counts.
The size that `alloc_constrained` reports tells whether it allocated. -/
inductive CountStep : (State × List Block) × (ℕ → ℕ) → (State × List Block) × (ℕ → ℕ) → Prop
  | alloc {s s' : State} {live : List Block} {n : ℕ → ℕ} {size phys : ℕ}
      (h : alloc s size = .ok (phys, s')) :
      CountStep ((s, live), n) ((s', if phys = 0 then live else ⟨phys, sizeToOrder size⟩ :: live),
        if phys = 0 then n else setBlock n ⟨phys, sizeToOrder size⟩ 1)
  | allocConstrained {s s' : State} {live : List Block} {n : ℕ → ℕ} {size phys allocated : ℕ}
      {c : AllocConstraints} (h : allocConstrained s size c = .ok ((phys, allocated), s')) :
      CountStep ((s, live), n) ((s', if phys = 0 then live else ⟨phys, sizeToOrder size⟩ :: live),
        if allocated = 0 then n else setBlock n ⟨phys, sizeToOrder size⟩ 1)
  | free {s s' : State} {live : List Block} {n : ℕ → ℕ} {b : Block} {size : ℕ} (hb : b ∈ live)
      (hsize : size ≠ 0) (horder : sizeToOrder size = b.order)
      (h : free s b.addr size = .ok s') :
      CountStep ((s, live), n) ((s', live.erase b), setBlock n b 0)
  | refPage {s s' : State} {live : List Block} {n : ℕ → ℕ} {b : Block} {p : ℕ} (hb : b ∈ live)
      (hp : b.HasPage p) (h : refPage s (p * pageSize) = .ok s') :
      CountStep ((s, live), n) ((s', live), countUp n p)
  | unrefPage {s s' : State} {live : List Block} {n : ℕ → ℕ} {b : Block} {p : ℕ} (hb : b ∈ live)
      (hp : b.HasPage p) (h : unrefPage s (p * pageSize) = .ok s') :
      CountStep ((s, live), n) ((s', if getRef s (p * pageSize) ≤ 1
        then b.pages.erase ⟨p * pageSize, 0⟩ ++ live.erase b else live), countDown n p)

/-- The allocator's side of such a step is a step of the allocator. -/
theorem CountStep.opStep {x x' : (State × List Block) × (ℕ → ℕ)} (h : CountStep x x') :
    OpStep x.1 x'.1 := by
  cases h with
  | alloc h => exact .alloc h
  | allocConstrained h => exact .allocConstrained h
  | free hb hsize horder h => exact .free hb hsize horder h
  | refPage hb hp h => exact .refPage hb hp h
  | unrefPage hb hp h => exact .unrefPage hb hp h

/-! ### The table reads the map -/

/-- The table shows the count `n` has for every page. -/
def Reads (s : State) (n : ℕ → ℕ) : Prop := ∀ phys, getRef s phys = n (pfn phys)

theorem Reads.congr {s s' : State} {n : ℕ → ℕ} (hn : Reads s n)
    (h : ∀ q, getRef s' q = getRef s q) : Reads s' n := fun phys => (h phys).trans (hn phys)

theorem Reads.setBlock {s s' : State} {n : ℕ → ℕ} {b : Block} {v : ℕ} (hn : Reads s n)
    (h : ∀ q, getRef s' q = if Covers (pfn b.addr) b.order (pfn q) then v else getRef s q) :
    Reads s' (setBlock n b v) := by
  intro phys
  rw [h, Pmm.setBlock, hn phys]

theorem Reads.update {s s' : State} {n : ℕ → ℕ} {p v : ℕ} (hn : Reads s n)
    (h : ∀ q, getRef s' q = if pfn q = pfn (p * pageSize) then v else getRef s q) :
    Reads s' (update n p v) := by
  intro phys
  rw [h, pfn_mul, update_apply, hn phys]

/-- **Step lemma**: the table keeps reading the map. -/
theorem CountStep.reads {managed : ℕ → ℕ} {x x' : (State × List Block) × (ℕ → ℕ)}
    (h : CountStep x x') (hr : RunInv managed x.1) (hn : Reads x.1.1 x.2) :
    Reads x'.1.1 x'.2 := by
  cases h with
  | @alloc s s' live n size phys h =>
    rcases (alloc_spec h hr.inv).2 with ⟨rfl, -, -, hget⟩ | ⟨hne, -, hal⟩
    · exact hn.congr hget
    · simp only [if_neg hne]
      exact hn.setBlock (b := ⟨phys, sizeToOrder size⟩) hal.getRef
  | @allocConstrained s s' live n size phys allocated c h =>
    rcases allocConstrained_spec h hr.inv with ⟨-, rfl, rfl⟩ | ⟨-, hsize, hal⟩
    · exact hn
    · have hne : allocated ≠ 0 := hsize ▸ (blockSize_pos _).ne'
      rw [if_neg hne]
      exact hn.setBlock (b := ⟨phys, sizeToOrder size⟩) hal.getRef
  | @free s s' live n b size hb hsize horder h =>
    exact hn.setBlock (hr.free hb hsize horder h).getRef
  | @refPage s s' live n b p hb hp h =>
    have hget := (refPage_spec h hr.inv.sound).2.2
    have hcount : getRef s (p * pageSize) = n p := by
      rw [hn (p * pageSize), pfn_mul]
    rw [hcount] at hget
    exact hn.update hget
  | @unrefPage s s' live n b p hb hp h =>
    have hcount : getRef s (p * pageSize) = n p := by
      rw [hn (p * pageSize), pfn_mul]
    have hun := hr.unrefPage hb hp h
    by_cases hle : getRef s (p * pageSize) ≤ 1
    · -- the count goes to zero, whether it was one or had wrapped around to zero
      rw [if_pos hle] at hun
      refine hn.update fun q => ?_
      rw [hun.getRef, ← hcount, Nat.sub_eq_zero_of_le hle]
      simp only [covers_zero_iff]
    · rw [if_neg hle, hcount] at hun
      exact hn.update hun.2

/-- **The table of counts refines a total map.** After every sequence of operations on blocks and
pages that are held, `get_ref` reads the abstract count of every page, two pages below
`total_pages` have different slots, and no page at or beyond it has one. -/
theorem counts_of_run {m t : ℕ} {d : Bool} {spans : List (ℕ × ℕ)} {s₀ s : State}
    {live : List Block} {n : ℕ → ℕ} (hm : m ≤ maxOrderLimit)
    (hend : ∀ span ∈ spans, span.2 ≤ uint64Max)
    (hdisj : spans.Pairwise fun a b => ∀ p, PageIn a.1 a.2 p → ¬PageIn b.1 b.2 p)
    (hbuild : addSpans (State.empty m t d) spans = .ok s₀)
    (hrun : ReflTransGen CountStep ((s₀, []), fun _ => 0) ((s, live), n)) :
    (∀ phys, getRef s phys = n (pfn phys)) ∧
      (∀ a b, pfn a ≠ pfn b → ∀ slot, refSlot s a = some slot → refSlot s b ≠ some slot) ∧
      ∀ phys, s.totalPages ≤ pfn phys → refSlot s phys = none := by
  have hstart : Reads s₀ fun _ => 0 := by
    obtain ⟨hadd, -⟩ := addSpans_spec hbuild (Wf.empty hm t d) hend
    intro phys
    refine getRef_of_none ?_
    rw [← Option.not_isSome_iff_eq_none, Option.isSome_iff_exists]
    rintro ⟨slot, hslot⟩
    -- the tree has no entries yet
    obtain ⟨-, -, hfollow, -⟩ := refSlot_eq_some.mp hslot
    rw [refNext_congr hadd.refEntries] at hfollow
    cases hfollow
  have hinv : RunInv (managedTally d spans) (s, live) ∧ Reads s n :=
    run_invariant (I := fun x => RunInv (managedTally d spans) x.1 ∧ Reads x.1.1 x.2) hrun
      ⟨addSpans_runInv hm hend hdisj hbuild, hstart⟩
      fun h hstep => ⟨hstep.opStep.runInv h.1, hstep.reads h.1 h.2⟩
  refine ⟨hinv.2, fun a b hne slot ha hb => ?_, fun phys hle => if_pos hle⟩
  exact hne (pfn_eq_of_refSlot_eq hinv.1.inv.sound.refs.tree ha hb)

/-- A page handed out, referenced once more and released once has the count one. -/
theorem counts_of_run_alloc_ref_unref :
    ∃ s₀ s live n, addSpans (State.empty 2 32 false) [(4096, 65536)] = .ok s₀ ∧
      ReflTransGen CountStep ((s₀, []), fun _ => 0) ((s, live), n) ∧
      getRef s 4096 = n 1 ∧ n 1 = 1 := by
  have heval : (do
      let s ← addSpans (State.empty 2 32 false) [(4096, 65536)]
      let r ← alloc s 4096
      let s ← refPage r.2 4096
      let _ ← unrefPage s 4096
      pure r.1 : Except String ℕ).toOption = some 4096 := by
    decide +kernel
  obtain ⟨s₀, h0, h⟩ := ok_bind (ok_of_toOption heval)
  obtain ⟨⟨phys, s₁⟩, h1, h⟩ := ok_bind h
  obtain ⟨s₂, h2, h⟩ := ok_bind h
  obtain ⟨s₃, h3, h⟩ := ok_bind h
  obtain rfl : phys = 4096 := Except.ok.inj h
  have hmem : (⟨4096, 0⟩ : Block) ∈ [(⟨4096, 0⟩ : Block)] := List.mem_cons_self
  have hfirst : ReflTransGen CountStep ((s₀, []), fun _ => 0) _ := .single (.alloc h1)
  have hrun := (hfirst.tail (.refPage (p := 1) hmem (covers_start 1 0) h2)).tail
    (.unrefPage (p := 1) hmem (covers_start 1 0) h3)
  have hcounts := counts_of_run (by decide) (by simp [uint64Max]) (by simp) h0 hrun
  exact ⟨s₀, s₃, _, _, h0, hrun, hcounts.1 4096, by decide⟩

end RHKernel.Pmm
