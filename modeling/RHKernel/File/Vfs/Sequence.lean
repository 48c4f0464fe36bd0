import RHKernel.File.Vfs.Lifetime

/-!
# Remembered names and sequence numbers

A directory of a file-system driver remembers some names that the driver did not have, each with
the sequence number of the moment. Linking and unlinking a child raise the sequence number, so that
what is remembered does not count any more.

Two relations say what an operation does to all nodes: `Ages` to the entries and the sequence
numbers, `Sheds` to the children. What is remembered after an operation was remembered before
(`Ages.hit`), unless it was stored by it.
-/

namespace RHKernel.Vfs

open Function

/-- All callbacks that read or change the names of a directory are set. -/
def Node.backed (x : Node) : Bool :=
  x.callbacks.finddir && x.callbacks.create && x.callbacks.unlink && x.callbacks.rename

/-- The node is a directory of a driver. -/
def Backed (s : State) (d : ℕ) : Prop := ∃ x, s.nodes d = some x ∧ x.backed = true

/-! ### Sequence numbers -/

/-- The slots are filled in turn, and nothing was remembered later than now. -/
structure CacheOk (x : Node) : Prop where
  next : x.negNext < vfsNegCacheEntries
  count : x.negCount < vfsNegCacheEntries → x.negNext = x.negCount
  seq : ∀ entries, x.negCache = some entries → ∀ i < x.negCount, (entries i).seq ≤ x.childSeq

/-- Each sequence number can be raised that often without wrapping. -/
def Room (k : ℕ) (s : State) : Prop := ∀ d x, s.nodes d = some x → x.childSeq + k < 2 ^ 64

/-- The second node has the callbacks and the entries of the first, and its sequence number has
been raised at most that often. -/
structure Node.Ages (j : ℕ) (x y : Node) : Prop where
  callbacks : y.callbacks = x.callbacks
  negCache : y.negCache = x.negCache
  negCount : y.negCount = x.negCount
  negNext : y.negNext = x.negNext
  seq : x.childSeq + j < 2 ^ 64 → x.childSeq ≤ y.childSeq ∧ y.childSeq ≤ x.childSeq + j

/-- The nodes of the second state come from the first, with their entries. -/
def Ages (j : ℕ) (s s' : State) : Prop :=
  ∀ d y, s'.nodes d = some y → ∃ x, s.nodes d = some x ∧ x.Ages j y

section Sequence

variable {s s' t : State} {j k d n p c : ℕ} {name : Name} {x y z : Node} {f : Node → Node}

theorem Node.Ages.refl (x : Node) : x.Ages 0 x := ⟨rfl, rfl, rfl, rfl, fun _ => ⟨le_rfl, le_rfl⟩⟩

theorem Node.Ages.trans (h : x.Ages j y) (h' : y.Ages k z) : x.Ages (j + k) z where
  callbacks := h'.callbacks.trans h.callbacks
  negCache := h'.negCache.trans h.negCache
  negCount := h'.negCount.trans h.negCount
  negNext := h'.negNext.trans h.negNext
  seq := by
    intro hroom
    obtain ⟨hlow, hhigh⟩ := h.seq (by omega)
    obtain ⟨hlow', hhigh'⟩ := h'.seq (by omega)
    exact ⟨by omega, by omega⟩

theorem Node.Ages.mono (h : x.Ages j y) (hjk : j ≤ k) : x.Ages k y :=
  ⟨h.callbacks, h.negCache, h.negCount, h.negNext, fun hroom => by
    obtain ⟨hlow, hhigh⟩ := h.seq (by omega)
    exact ⟨hlow, by omega⟩⟩

theorem Ages.refl (s : State) : Ages 0 s s := fun _ y hy => ⟨y, hy, .refl y⟩

theorem Ages.trans (h : Ages j s s') (h' : Ages k s' t) : Ages (j + k) s t := by
  intro d z hz
  obtain ⟨y, hy, hyz⟩ := h' d z hz
  obtain ⟨x, hx, hxy⟩ := h d y hy
  exact ⟨x, hx, hxy.trans hyz⟩

theorem Ages.mono (h : Ages j s s') (hjk : j ≤ k) : Ages k s s' := by
  intro d y hy
  obtain ⟨x, hx, hxy⟩ := h d y hy
  exact ⟨x, hx, hxy.mono hjk⟩

theorem ages_modify (s : State) (n : ℕ) (hf : ∀ x : Node, x.Ages j (f x)) :
    Ages j s (s.modify n f) := by
  intro d y hy
  rcases update_eq_cases hy with ⟨rfl, hy⟩ | ⟨-, hy⟩
  · obtain ⟨x, hx, rfl⟩ := Option.map_eq_some_iff.mp hy
    exact ⟨x, hx, hf x⟩
  · exact ⟨y, hy, (Node.Ages.refl y).mono (Nat.zero_le j)⟩

theorem ages_free (s : State) (n : ℕ) : Ages 0 s (s.free n) := by
  intro d y hy
  obtain ⟨-, hy⟩ := (update_eq_cases hy).resolve_left nofun
  exact ⟨y, hy, .refl y⟩

variable (hcallbacks : y.callbacks = x.callbacks) (hcache : y.negCache = x.negCache)
  (hcount : y.negCount = x.negCount) (hnext : y.negNext = x.negNext)

include hcallbacks hcache hcount hnext

theorem ages_same (hseq : y.childSeq = x.childSeq) : x.Ages 0 y :=
  ⟨hcallbacks, hcache, hcount, hnext, fun _ => ⟨hseq.ge, hseq.le⟩⟩

theorem ages_bump (hseq : y.childSeq = (x.childSeq + 1) % 2 ^ 64) : x.Ages 1 y := by
  refine ⟨hcallbacks, hcache, hcount, hnext, fun hroom => ?_⟩
  rw [hseq, Nat.mod_eq_of_lt hroom]
  exact ⟨Nat.le_succ _, le_rfl⟩

omit hcallbacks hcache hcount hnext

theorem ages_withChildHash (s : State) (n : ℕ) (table : Option (ℕ → List ℕ)) :
    Ages 0 s (s.modify n (·.withChildHash table)) :=
  ages_modify s n fun _ => ages_same rfl rfl rfl rfl rfl

theorem ages_linkChild (s : State) (p c : ℕ) : Ages 1 s (linkChild s p c) := by
  have hlink : Ages 1 s ((s.modify c (·.withParent (some p))).modify p (·.pushChild c)) :=
    (ages_modify (f := (·.withParent (some p))) s c fun _ => ages_same rfl rfl rfl rfl rfl).trans
      (ages_modify (f := (·.pushChild c)) _ p fun _ => ages_bump rfl rfl rfl rfl rfl)
  unfold linkChild childHashInsert
  dsimp only
  split
  · exact hlink
  · exact hlink.trans (ages_withChildHash _ p _)

theorem ages_unlinkChild (s : State) (p c : ℕ) : Ages 1 s (unlinkChild s p c) := by
  have hremove : Ages 0 s (childHashRemove s p c) := by
    unfold childHashRemove
    split
    · exact .refl s
    · exact ages_withChildHash _ p _
  have hparent := hremove.trans (ages_modify (f := (·.withParent none)) _ c fun _ =>
    ages_same rfl rfl rfl rfl rfl)
  exact hparent.trans (ages_modify (f := (·.eraseChild c)) _ p fun _ =>
    ages_bump rfl rfl rfl rfl rfl)

theorem ages_attachChildIfNeeded {env : Env} {ok : Bool} (h : Links s.view)
    (hx : attachChildIfNeeded env s p c = (ok, s')) : Ages 1 s s' := by
  rcases attachChildIfNeeded_cases h hx with ⟨rfl, -, -⟩ | ⟨-, -, -, s1, hs1, -, -, hcase⟩
  · exact (Ages.refl _).mono (Nat.zero_le 1)
  have hbuild : Ages 0 s s1 := by
    rcases hs1 with rfl | rfl
    · exact .refl _
    · exact ages_withChildHash _ p _
  rcases hcase with ⟨-, rfl, -⟩ | ⟨-, rfl, -⟩
  · exact hbuild.mono (Nat.zero_le 1)
  · exact hbuild.trans (ages_linkChild s1 p c)

theorem Ages.backed (h : Ages j s s') (hd : Backed s' d) : Backed s d := by
  obtain ⟨y, hy, hb⟩ := hd
  obtain ⟨x, hx, hxy⟩ := h d y hy
  refine ⟨x, hx, ?_⟩
  rw [Node.backed, ← hxy.callbacks]
  exact hb

theorem Ages.room (h : Ages j s s') (hroom : Room (k + j) s) : Room k s' := by
  intro d y hy
  obtain ⟨x, hx, hxy⟩ := h d y hy
  have hx' := hroom d x hx
  have hseq := (hxy.seq (by omega)).2
  omega

theorem Ages.cacheOk (h : Ages j s s') (hroom : Room j s)
    (hcache : ∀ d x, s.nodes d = some x → CacheOk x) (d : ℕ) (y : Node)
    (hy : s'.nodes d = some y) : CacheOk y := by
  obtain ⟨x, hx, hxy⟩ := h d y hy
  obtain ⟨hnext, hcount, hseq⟩ := hcache d x hx
  refine ⟨hxy.negNext ▸ hnext, ?_, fun entries hentries i hi => ?_⟩
  · rw [hxy.negNext, hxy.negCount]
    exact hcount
  · rw [hxy.negCache] at hentries
    rw [hxy.negCount] at hi
    exact (hseq entries hentries i hi).trans (hxy.seq (hroom d x hx)).1

theorem negCacheHit_iff {hash : UInt64} : negCacheHit s d name hash = true ↔
    ∃ x entries i, s.nodes d = some x ∧ x.negCache = some entries ∧
      name.length ≤ vfsNegCacheName ∧ i < x.negCount ∧ (entries i).seq = x.childSeq ∧
      (entries i).hash = hash ∧ (entries i).name = name := by
  unfold negCacheHit
  constructor
  · intro hhit
    split at hhit
    · cases hhit
    rename_i x hx
    split at hhit
    · cases hhit
    rename_i entries hentries
    rw [Bool.and_eq_true, decide_eq_true_eq, List.any_eq_true] at hhit
    obtain ⟨hlen, i, hi, hmatch⟩ := hhit
    rw [Bool.and_eq_true, Bool.and_eq_true, beq_iff_eq, beq_iff_eq, beq_iff_eq] at hmatch
    exact ⟨x, entries, i, hx, hentries, hlen, List.mem_range.mp hi, hmatch.1.1, hmatch.1.2,
      hmatch.2⟩
  · rintro ⟨x, entries, i, hx, hentries, hlen, hi, hseq, hhash, hname⟩
    rw [hx]
    dsimp only
    rw [hentries]
    rw [Bool.and_eq_true, decide_eq_true_eq, List.any_eq_true]
    refine ⟨hlen, i, List.mem_range.mpr hi, ?_⟩
    rw [Bool.and_eq_true, Bool.and_eq_true, beq_iff_eq, beq_iff_eq, beq_iff_eq]
    exact ⟨⟨hseq, hhash⟩, hname⟩

/-- What is remembered now was remembered before, with the same sequence number. -/
theorem Ages.hit {hash : UInt64} (h : Ages j s s') (hroom : Room j s)
    (hcache : ∀ d x, s.nodes d = some x → CacheOk x)
    (hhit : negCacheHit s' d name hash = true) :
    negCacheHit s d name hash = true ∧ ∃ x y, s.nodes d = some x ∧ s'.nodes d = some y ∧
      y.childSeq = x.childSeq := by
  obtain ⟨y, entries, i, hy, hentries, hlen, hi, hseq, hrest⟩ := negCacheHit_iff.mp hhit
  obtain ⟨x, hx, hxy⟩ := h d y hy
  rw [hxy.negCache] at hentries
  rw [hxy.negCount] at hi
  have hold := (hcache d x hx).seq entries hentries i hi
  have hnew := (hxy.seq (hroom d x hx)).1
  exact ⟨negCacheHit_iff.mpr ⟨x, entries, i, hx, hentries, hlen, hi, by omega, hrest⟩, x, y, hx,
    hy, by omega⟩

end Sequence

/-! ### Nodes that lose their parent -/

/-- No child is new, and none has a new name. -/
def Sheds (s s' : State) : Prop :=
  ∀ c d, s'.parentOf c = some d → s.parentOf c = some d ∧ s'.nameOf c = s.nameOf c

section Sheds

variable {s s' t : State} {n p c : ℕ} {f : Node → Node}

theorem Sheds.refl (s : State) : Sheds s s := fun _ _ h => ⟨h, rfl⟩

theorem Sheds.trans (h : Sheds s s') (h' : Sheds s' t) : Sheds s t := by
  intro c d hc
  obtain ⟨hc', hname'⟩ := h' c d hc
  obtain ⟨hc'', hname⟩ := h c d hc'
  exact ⟨hc'', hname'.trans hname⟩

theorem sheds_of_nodes (h : ∀ c y, s'.nodes c = some y → ∃ x, s.nodes c = some x ∧
    y.name = x.name ∧ (y.parent = x.parent ∨ y.parent = none)) : Sheds s s' := by
  intro c d hc
  obtain ⟨y, hy, hparent⟩ := Option.bind_eq_some_iff.mp hc
  obtain ⟨x, hx, hname, hsame⟩ := h c y hy
  have hxd : x.parent = some d := by
    rcases hsame with hsame | hnone
    · exact hsame.symm.trans hparent
    · rw [hnone] at hparent
      cases hparent
  rw [State.parentOf, State.nameOf, State.nameOf, hx, hy, Option.bind_some]
  exact ⟨hxd, hname⟩

theorem sheds_modify (s : State) (n : ℕ) (hname : ∀ x, (f x).name = x.name)
    (hparent : ∀ x, (f x).parent = x.parent ∨ (f x).parent = none) : Sheds s (s.modify n f) := by
  refine sheds_of_nodes fun c y hy => ?_
  rcases update_eq_cases hy with ⟨rfl, hy⟩ | ⟨-, hy⟩
  · obtain ⟨x, hx, rfl⟩ := Option.map_eq_some_iff.mp hy
    exact ⟨x, hx, hname x, hparent x⟩
  · exact ⟨y, hy, rfl, .inl rfl⟩

theorem sheds_free (s : State) (n : ℕ) : Sheds s (s.free n) := by
  refine sheds_of_nodes fun c y hy => ?_
  obtain ⟨-, hy⟩ := (update_eq_cases hy).resolve_left nofun
  exact ⟨y, hy, rfl, .inl rfl⟩

theorem sheds_unlinkChild (h : Links s.view) (hc : s.parentOf c = some p) :
    Sheds s (unlinkChild s p c) ∧ (unlinkChild s p c).parentOf c = none := by
  obtain ⟨-, hparent, hname⟩ := h.unlinkChild hc
  refine ⟨fun d q hd => ⟨?_, congrFun hname d⟩, by rw [hparent, update_self]⟩
  rw [hparent] at hd
  exact (update_none_eq_some hd).2

/-- `put_node` takes parents away and leaves the entries of what is left. -/
theorem fades_putNodeFuel (fuel : ℕ) (s : State) (n : ℕ) :
    Ages 0 s (putNodeFuel fuel s n) ∧ Sheds s (putNodeFuel fuel s n) := by
  induction fuel generalizing s n with
  | zero => exact ⟨.refl s, .refl s⟩
  | succ fuel ih =>
    rw [putNodeFuel]
    split
    · exact ⟨.refl s, .refl s⟩
    have hlow : ∀ k, Ages 0 s (s.modify n (·.withRefCount k)) ∧
        Sheds s (s.modify n (·.withRefCount k)) := fun k =>
      ⟨ages_modify s n fun _ => ages_same rfl rfl rfl rfl rfl,
        sheds_modify s n (fun _ => rfl) fun _ => .inl rfl⟩
    split_ifs
    · exact ⟨.refl s, .refl s⟩
    · exact hlow _
    have hloop : ∀ (l : List ℕ) (t : State),
        Ages 0 t (l.foldl (fun s c => putNodeFuel fuel (orphanChild s n c) c) t) ∧
        Sheds t (l.foldl (fun s c => putNodeFuel fuel (orphanChild s n c) c) t) := by
      intro l
      induction l with
      | nil => exact fun t => ⟨.refl t, .refl t⟩
      | cons c l ihl =>
        intro t
        have hages : Ages 0 t (orphanChild t n c) :=
          (ages_modify (f := Node.popChild) t n fun _ => ages_same rfl rfl rfl rfl rfl).trans
            (ages_modify (f := fun x => (x.withParent none).withUnlinked) _ c fun _ =>
              ages_same rfl rfl rfl rfl rfl)
        have hsheds : Sheds t (orphanChild t n c) :=
          (sheds_modify (f := Node.popChild) t n (fun _ => rfl) fun _ => .inl rfl).trans
            (sheds_modify _ c (fun _ => rfl) fun _ => .inr rfl)
        exact ⟨hages.trans ((ih _ c).1.trans (ihl _).1), hsheds.trans ((ih _ c).2.trans (ihl _).2)⟩
    exact ⟨(hlow _).1.trans ((hloop _ _).1.trans (ages_free _ n)),
      (hlow _).2.trans ((hloop _ _).2.trans (sheds_free _ n))⟩

theorem fades_withUnlinked (s : State) (n : ℕ) :
    Ages 0 s (s.modify n Node.withUnlinked) ∧ Sheds s (s.modify n Node.withUnlinked) :=
  ⟨ages_modify s n fun _ => ages_same rfl rfl rfl rfl rfl,
    sheds_modify s n (fun _ => rfl) fun _ => .inl rfl⟩

theorem fades_dropDetached (s : State) (o : Option ℕ) :
    Ages 0 s (dropDetached s o) ∧ Sheds s (dropDetached s o) := by
  unfold dropDetached
  cases o with
  | none => exact ⟨.refl s, .refl s⟩
  | some n =>
    obtain ⟨hages, hsheds⟩ := fades_withUnlinked s n
    dsimp only
    split_ifs
    · obtain ⟨hages', hsheds'⟩ := fades_putNodeFuel _ (s.modify n Node.withUnlinked) n
      exact ⟨hages.trans hages', hsheds.trans hsheds'⟩
    · exact ⟨hages, hsheds⟩

theorem childSeq_modify {f : Node → Node} (hf : ∀ x, (f x).childSeq = (x.childSeq + 1) % 2 ^ 64)
    (s : State) (p : ℕ) : ((s.modify p f).nodes p).map Node.childSeq =
      ((s.nodes p).map Node.childSeq).map fun q => (q + 1) % 2 ^ 64 := by
  dsimp only [State.modify]
  rw [update_self]
  cases s.nodes p with
  | none => rfl
  | some x => exact congrArg some (hf x)

theorem childSeq_linkChild (s : State) (p c : ℕ) : ((linkChild s p c).nodes p).map Node.childSeq =
    ((s.nodes p).map Node.childSeq).map fun q => (q + 1) % 2 ^ 64 := by
  have hparent : Frame Node.childSeq s (s.modify c (·.withParent (some p))) :=
    frame_modify s c fun _ => rfl
  have hinsert : ∀ t : State, Frame Node.childSeq t (childHashInsert t p c) := by
    intro t
    unfold childHashInsert
    split
    · exact .refl _ t
    · exact frame_modify t p fun _ => rfl
  refine ((hinsert _).nodes p).trans ((childSeq_modify (fun _ => rfl) _ p).trans ?_)
  rw [hparent.nodes p]

theorem childSeq_unlinkChild (s : State) (p c : ℕ) :
    ((unlinkChild s p c).nodes p).map Node.childSeq =
      ((s.nodes p).map Node.childSeq).map fun q => (q + 1) % 2 ^ 64 := by
  have hremove : Frame Node.childSeq s (childHashRemove s p c) := by
    unfold childHashRemove
    split
    · exact .refl _ s
    · exact frame_modify s p fun _ => rfl
  have hparent : Frame Node.childSeq s ((childHashRemove s p c).modify c (·.withParent none)) :=
    hremove.trans (frame_modify _ c fun _ => rfl)
  refine (childSeq_modify (fun _ => rfl) _ p).trans ?_
  rw [hparent.nodes p]

/-- What detaching a child by its name does to the children and the entries: a child of the name
is not left, and if there was one then nothing that the directory remembers counts any more. -/
theorem fades_detachCachedChild {name : Name} {o : Option ℕ} (h : Links s.view)
    (hx : detachCachedChild s p name = (o, s')) :
    Ages 1 s s' ∧ Sheds s s' ∧ (∀ c, s'.parentOf c = some p → s'.nameOf c ≠ name) ∧
      (findCachedChild s p name ≠ none → (s'.nodes p).map Node.childSeq =
        ((s.nodes p).map Node.childSeq).map fun q => (q + 1) % 2 ^ 64) := by
  rw [detachCachedChild_eq h] at hx
  cases hfind : findCachedChild s p name with
  | none =>
    rw [hfind] at hx
    obtain ⟨-, rfl⟩ := Prod.mk.inj hx
    exact ⟨(Ages.refl s).mono (Nat.zero_le 1), .refl s, findCachedChild_eq_none h hfind,
      fun hne => absurd rfl hne⟩
  | some c =>
    rw [hfind] at hx
    obtain ⟨-, rfl⟩ := Prod.mk.inj hx
    obtain ⟨hc, hname⟩ := findCachedChild_eq_some h hfind
    obtain ⟨hsheds, hnone⟩ := sheds_unlinkChild h hc
    refine ⟨ages_unlinkChild s p c, hsheds, fun d hd hdname => ?_,
      fun _ => childSeq_unlinkChild s p c⟩
    obtain ⟨hd', hsame⟩ := hsheds d p hd
    -- the names of a directory differ
    have hdc : d = c := h.names p d c hd' hc (hsame.symm.trans (hdname.trans hname.symm))
    rw [hdc, hnone] at hd
    cases hd

end Sheds

end RHKernel.Vfs
