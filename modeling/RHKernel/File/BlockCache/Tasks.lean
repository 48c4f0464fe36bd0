import RHKernel.File.BlockCache.Sequence

/-!
# Tasks that share the block cache

Any number of tasks read and write through the cache. A critical section or a transfer is a step,
and the steps of the tasks come in any order; a device may answer anything. After every step each
entry is on one of the two lists, the hash table has the entries in use, and an entry that is being
filled belongs to the one task that fills it.
-/

namespace RHKernel.BlockCache

open Cache Function Relation

variable {k k' : Cache} {y : Sys} {r : Read}

/-- `block_cache_invalidate_node`: all blocks are in the range. -/
def Cache.invalidateNode (k : Cache) (node : ℕ) : Cache :=
  (List.range cacheEntries).foldl (fun k e => k.drop node 0 (k.entry e).block e) k

/-- The load of an entry goes on, if there is one. -/
def Entry.Kept (x x' : Entry) : Prop :=
  x'.loading = x.loading ∧ (x.loading = true → x'.node = x.node ∧ x'.block = x.block)

theorem Entry.Kept.rfl {x : Entry} : x.Kept x := ⟨Eq.refl _, fun _ => ⟨Eq.refl _, Eq.refl _⟩⟩

theorem Entry.Kept.dropped {x x' : Entry} (h : x.Kept x') : x.Kept (droppedEntry x') := by
  unfold droppedEntry
  split
  · exact h
  · exact h

theorem Cache.Ok.invalidateNode (hk : k.Ok) (node : ℕ) :
    (k.invalidateNode node).Ok ∧ ∀ e, (k.entry e).Kept ((k.invalidateNode node).entry e) := by
  unfold Cache.invalidateNode
  refine Step.foldl_range (m := cacheEntries)
    (P := fun _ (k' : Cache) => k'.Ok ∧ ∀ e, (k.entry e).Kept (k'.entry e))
    (fun {i k'} hi ⟨hk', hkept⟩ => ?_) ⟨hk, fun _ => .rfl⟩
  obtain ⟨h1, h2⟩ := hk'.drop hi node 0 (k'.entry i).block
  refine ⟨h1, ?_⟩
  rw [h2]
  refine update_elim ?_ fun e _ => hkept e
  split
  · exact (hkept i).dropped
  · exact hkept i

theorem Cache.Installed.kept {x x' : Entry} {node firstBlock i n : ℕ} {src : ℕ → UInt8}
    (h : Installed x x' node firstBlock src i n) : x.Kept x' := by
  obtain rfl | ⟨-, -, -, -, rfl⟩ | ⟨hl, _, -, -, hs⟩ := h
  · exact .rfl
  · exact .rfl
  · exact ⟨hs.loading.trans hl.symm, fun h => absurd (hl.symm.trans h) Bool.false_ne_true⟩

/-- The load that a read is in: the entry, the device and the block. -/
def Read.load (r : Read) : Option (ℕ × ℕ × ℕ) :=
  match r.pc with
  | .fill e block _ => some (e, r.node, block)
  | .settle e block _ _ => some (e, r.node, block)
  | _ => none

theorem Read.load_loop (r : Read) : r.loop.load = none := by
  unfold loop
  split_ifs <;> rfl

theorem Read.load_prefetch (r : Read) (firstBlock i maxBlock : ℕ) :
    (r.prefetch firstBlock i maxBlock).load = none := by
  unfold prefetch
  split
  · rfl
  · exact r.load_loop

theorem Read.load_loaded (r : Read) (ok : Bool) (block : ℕ) (goal : Goal) :
    (r.loaded ok block goal).load = none := by
  cases goal with
  | single => cases ok <;> rfl
  | prefetch firstBlock i maxBlock => exact r.load_prefetch _ _ _

theorem Read.load_advance (r : Read) (got wanted : ℕ) : (r.advance got wanted).load = none := by
  unfold advance
  split
  · exact load_loop _
  · rfl

def Cache.Loads (k : Cache) (a : ℕ × ℕ × ℕ) : Prop :=
  (k.entry a.1).loading = true ∧ (k.entry a.1).node = a.2.1 ∧ (k.entry a.1).block = a.2.2

/-- What a step may do to the loads, if the task is in the load `x` before it and in `x'` after
it. -/
structure Moves (k k' : Cache) (x x' : Option (ℕ × ℕ × ℕ)) : Prop where
  ok : k'.Ok
  kept : ∀ e, (∀ a ∈ x, a.1 ≠ e) → (∀ a ∈ x', a.1 ≠ e) → (k.entry e).Kept (k'.entry e)
  loads : ∀ a ∈ x', k'.Loads a ∧ (a ∈ x ∨ (k.entry a.1).loading = false)
  ended : ∀ a ∈ x, a ∉ x' → (k'.entry a.1).loading = false

theorem Moves.quiet {x' : Option (ℕ × ℕ × ℕ)} (hk' : k'.Ok)
    (h : ∀ e, (k.entry e).Kept (k'.entry e)) (hx' : x' = none) : Moves k k' none x' := by
  subst hx'
  exact ⟨hk', fun e _ _ => h e, by simp, by simp⟩

theorem Moves.same {x' : Option (ℕ × ℕ × ℕ)} (hk' : k'.Ok) (h : k'.entry = k.entry)
    (hx' : x' = none) : Moves k k' none x' :=
  .quiet hk' (fun e => by rw [h]; exact .rfl) hx'

/-- **Step lemma** of a read. -/
theorem Read.moves (hk : y.cache.Ok) (hr : ∀ a ∈ r.load, y.cache.Loads a) :
    Moves y.cache (r.step y).2.cache r.load (r.step y).1.load := by
  obtain ⟨node, offset, size, done, out, pc⟩ := r
  cases pc with
  | direct n =>
    simp only [step]
    split
    · exact .same hk rfl rfl
    · exact .same hk rfl (load_advance _ _ _)
  | hotRun =>
    simp only [step]
    obtain ⟨h1, h2, -⟩ := hk.copyFrom _ _ _ rfl
    split
    · exact .same h1 h2 rfl
    · exact .same h1 h2 (load_loop _)
  | uncachedRun =>
    simp only [step]
    split
    · exact .same hk rfl rfl
    · exact .same hk rfl rfl
  | batch run =>
    simp only [step]
    split
    · exact .same hk rfl rfl
    split
    · exact .same hk rfl (load_advance _ _ _)
    · exact .same hk rfl rfl
  | install got bytes =>
    obtain ⟨h1, h2⟩ := hk.installFrom node ((offset + done) / blockSize) (fun j => out (done + j)) 0
      (min (got / blockSize) batchReadBlocks)
    exact .quiet h1 (fun e => (h2 e).kept) (load_advance _ _ _)
  | claim block goal =>
    simp only [step]
    split
    · exact .same hk rfl (load_loaded _ _ _ _)
    split
    · rename_i h
      obtain ⟨h1, h2, -⟩ := hk.claim_hit h
      exact .same h1 h2 (load_loaded _ _ _ _)
    · rename_i h
      obtain ⟨h1, h2, -⟩ := hk.claim_again h
      exact .same h1 h2 rfl
    · rename_i e _ h
      obtain ⟨h1, h2, -, h3⟩ := hk.claim_claimed h
      refine ⟨h1, fun x _ hx => ?_, fun a ha => ?_, by simp [load]⟩
      · rw [h3, update_of_ne fun h => hx _ rfl h.symm]
        exact .rfl
      · cases ha
        exact ⟨by simp [Loads, h3, claimedEntry], .inr h2⟩
  | fill e block goal =>
    obtain ⟨h1, h2, h3⟩ := hr _ rfl
    refine ⟨hk.flags rfl rfl rfl .rfl, fun x hx _ => ?_, fun a ha => ?_, fun a ha h => (h ha).elim⟩
    · simp only [step, setEntry]
      rw [update_of_ne fun h => hx _ rfl h.symm]
      exact .rfl
    · cases ha
      exact ⟨by simp [Loads, step, setEntry, h1, h2, h3], .inl rfl⟩
  | settle e block got goal =>
    obtain ⟨h1, -, h2⟩ := hk.settle (hr _ rfl).1 got
    refine ⟨h1, fun x hx _ => ?_, fun a ha => ?_, fun a ha _ => ?_⟩
    · simp only [step]
      rw [h2, update_of_ne fun h => hx _ rfl h.symm]
      exact .rfl
    · simp [step, load_loaded] at ha
    · cases ha
      simp only [step, h2, update_self, settledEntry]
      split <;> rfl
  | copy block =>
    simp only [step]
    split
    · exact .same hk rfl (load_loop _)
    rename_i hfind
    split
    · exact .same hk rfl (load_loop _)
    have hfront := hk.lruFront ((hk.hashed _).mpr (hk.find_eq_some_iff.mp hfind).1)
    split
    · exact .same hfront rfl (load_prefetch _ _ _ _)
    · exact .same hfront rfl (load_loop _)
  | present firstBlock i maxBlock =>
    simp only [step]
    split
    · exact .same hk rfl (load_prefetch _ _ _ _)
    · exact .same hk rfl rfl
  | done => exact .same hk rfl rfl

/-- The cache and the calls of the tasks. -/
structure Tasks where
  cache : Cache
  call : ℕ → Read ⊕ Write

/-- The load that a call is in: a write is in none. -/
def callLoad : Read ⊕ Write → Option (ℕ × ℕ × ℕ)
  | .inl r => r.load
  | .inr _ => none

def Tasks.load (s : Tasks) (i : ℕ) : Option (ℕ × ℕ × ℕ) := callLoad (s.call i)

/-- The call has returned. -/
def Over : Read ⊕ Write → Prop
  | .inl r => r.pc = .done
  | .inr w => ∃ n, w.pc = .done n

/-- A task that is in no call enters one or unmounts a device, or a task takes the next step of its
call. The devices are as they like. -/
inductive Tasks.Step : Tasks → Tasks → Prop
  | enterRead {s : Tasks} {i : ℕ} (hover : Over (s.call i)) (dev : ℕ → Device)
      (node offset size : ℕ) (buffer : ℕ → UInt8) : Step s
        ⟨s.cache, update s.call i (.inl (.start ⟨s.cache, dev⟩ node offset size buffer))⟩
  | enterWrite {s : Tasks} {i : ℕ} (hover : Over (s.call i)) (dev : ℕ → Device)
      (node offset size : ℕ) (buffer : ℕ → UInt8) : Step s
        ⟨s.cache, update s.call i (.inr (.start ⟨s.cache, dev⟩ node offset size buffer))⟩
  | unmount {s : Tasks} {i : ℕ} (hover : Over (s.call i)) (node : ℕ) :
      Step s ⟨s.cache.invalidateNode node, update s.call i (s.call i)⟩
  | read {s : Tasks} {i : ℕ} {r : Read} (h : s.call i = .inl r) (dev : ℕ → Device) : Step s
      ⟨(r.step ⟨s.cache, dev⟩).2.cache, update s.call i (.inl (r.step ⟨s.cache, dev⟩).1)⟩
  | write {s : Tasks} {i : ℕ} {w : Write} (h : s.call i = .inr w) (dev : ℕ → Device) : Step s
      ⟨(w.step ⟨s.cache, dev⟩).2.cache, update s.call i (.inr (w.step ⟨s.cache, dev⟩).1)⟩

/-- Every load that goes on is the load of one task. -/
structure Tasks.Inv (s : Tasks) : Prop where
  ok : s.cache.Ok
  loads : ∀ {i a}, a ∈ s.load i → s.cache.Loads a
  alone : ∀ {i j a b}, a ∈ s.load i → b ∈ s.load j → a.1 = b.1 → i = j
  owned : ∀ {e}, (s.cache.entry e).loading = true → ∃ i, ∃ a ∈ s.load i, a.1 = e

variable {s s' : Tasks}

theorem Tasks.Inv.moves (hs : s.Inv) {i : ℕ} {c : Read ⊕ Write}
    (h : Moves s.cache k' (s.load i) (callLoad c)) : Tasks.Inv ⟨k', update s.call i c⟩ := by
  have hi : Tasks.load ⟨k', update s.call i c⟩ i = callLoad c := by
    simp only [load, update_self]
  have hj : ∀ {j}, j ≠ i → Tasks.load ⟨k', update s.call i c⟩ j = s.load j := fun h => by
    simp only [load, update_of_ne h]
  -- the load of another task is of another entry
  have hother : ∀ {j a b}, j ≠ i → a ∈ s.load j → b ∈ callLoad c → b.1 ≠ a.1 := by
    intro j a b hne ha hb hab
    rcases (h.loads b hb).2 with hold | hnew
    · exact hne (hs.alone ha hold hab.symm)
    · rw [hab, (hs.loads ha).1] at hnew
      exact absurd hnew Bool.true_eq_false_eq_False
  refine ⟨h.ok, fun {j a} ha => ?_, fun {j1 j2 a b} ha hb hab => ?_, fun {e} he => ?_⟩
  · by_cases hne : j = i
    · subst hne
      exact (h.loads a (hi ▸ ha)).1
    · rw [hj hne] at ha
      obtain ⟨h1, h2, h3⟩ := hs.loads ha
      obtain ⟨h4, h5⟩ := h.kept a.1 (fun b hb hab => hne (hs.alone ha hb hab.symm))
        fun b hb => hother hne ha hb
      exact ⟨h4.trans h1, (h5 h1).1.trans h2, (h5 h1).2.trans h3⟩
  · by_cases h1 : j1 = i <;> by_cases h2 : j2 = i
    · rw [h1, h2]
    · subst h1
      rw [hi] at ha
      rw [hj h2] at hb
      exact (hother h2 hb ha hab).elim
    · subst h2
      rw [hi] at hb
      rw [hj h1] at ha
      exact (hother h1 ha hb hab.symm).elim
    · rw [hj h1] at ha
      rw [hj h2] at hb
      exact hs.alone ha hb hab
  · by_cases hnew : ∃ a ∈ callLoad c, a.1 = e
    · exact ⟨i, hi ▸ hnew⟩
    push Not at hnew
    have hold : ∀ a ∈ s.load i, a.1 ≠ e := by
      rintro a ha rfl
      rw [h.ended a ha fun h => hnew a h rfl] at he
      exact absurd he Bool.false_ne_true
    obtain ⟨j, a, ha, hae⟩ := hs.owned ((h.kept e hold hnew).1 ▸ he)
    have hne : j ≠ i := by
      rintro rfl
      exact hold a ha hae
    exact ⟨j, a, hj hne ▸ ha, hae⟩

theorem Tasks.load_of_over {i : ℕ} (h : Over (s.call i)) : s.load i = none := by
  unfold load
  cases hc : s.call i with
  | inl r =>
    rw [hc] at h
    simp only [callLoad, Read.load, show r.pc = .done from h]
  | inr w => rfl

/-- **Step lemma**. -/
theorem Tasks.Step.inv (h : s.Step s') (hs : s.Inv) : s'.Inv := by
  cases h with
  | enterRead hover dev node offset size buffer =>
    refine hs.moves ?_
    rw [load_of_over hover]
    refine .same hs.ok rfl ?_
    simp only [callLoad, Read.start]
    split_ifs <;> first | rfl | exact Read.load_loop _
  | enterWrite hover =>
    refine hs.moves ?_
    rw [load_of_over hover]
    exact .same hs.ok rfl rfl
  | unmount hover node =>
    have hnone := load_of_over hover
    refine hs.moves ?_
    rw [hnone]
    obtain ⟨h1, h2⟩ := hs.ok.invalidateNode node
    exact .quiet h1 h2 hnone
  | @read i r h dev =>
    have hload : s.load i = r.load := by simp only [load, h, callLoad]
    refine hs.moves ?_
    rw [hload]
    exact Read.moves (y := ⟨s.cache, dev⟩) hs.ok fun a ha => hs.loads (hload ▸ ha)
  | @write i w h dev =>
    have hload : s.load i = none := by simp only [load, h, callLoad]
    refine hs.moves ?_
    rw [hload]
    obtain ⟨node, offset, size, buffer, pc⟩ := w
    cases pc with
    | transfer =>
      simp only [Write.step]
      split <;> exact .same hs.ok rfl rfl
    | invalidate written =>
      simp only [Write.step]
      obtain ⟨h1, h2⟩ := hs.ok.invalidate node (offset / blockSize)
        ((offset + written - 1) / blockSize)
      refine .quiet h1 (fun e => ?_) rfl
      rw [h2]
      split
      · exact Entry.Kept.rfl.dropped
      · exact .rfl
    | done written => exact .same hs.ok rfl rfl

def bootTasks : Tasks := ⟨emptyCache, fun _ => .inl ⟨0, 0, 0, 0, fun _ => 0, .done⟩⟩

end RHKernel.BlockCache
