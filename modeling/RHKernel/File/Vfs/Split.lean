import RHKernel.File.Vfs.Lifetime

/-!
# Splitting a path and following it

`open_at` walks along the components of a path in place. `split_parent_at` cuts the last component
off, copies the text before it and calls `open_at` for the copy. Both see the same components: any
number of slashes separates two of them, and slashes at the ends do not count. But the copy has
room for 255 bytes only, so that a path that can be opened may not be one to create, unlink or
rename.
-/

namespace RHKernel.Vfs

open List

def components (path : Name) : List Name := (path.splitOn 47).filter (!·.isEmpty)

/-- The node of the text before the last component. Without such a text it is the working
directory. -/
def openDir (env : Env) (s : State) (cwd : ℕ) (dir : Name) : Option ℕ × State :=
  if dir = [] then (some cwd, s) else openAt env s (some cwd) dir

/-- `split_parent_at` finds the parent as `open_at` does, and the child that `open_at` finds. -/
structure SplitsLikeOpen (env : Env) (s : State) (cwd : ℕ) (path : Name) : Prop where
  parent : ∀ p name t, splitParentAt env s cwd path = (some (p, name), t) ↔
    Ordinary (lastOf path) ∧ name = lastOf path ∧ openDir env s cwd (dirOf path) = (some p, t)
  child : ∀ c u p, openAt env s (some cwd) path = (some c, u) → u.parentOf c = some p →
    ∃ t, splitParentAt env s cwd path = (some (p, u.nameOf c), t)

variable {env : Env} {s t u : State} {cwd p q c curr : ℕ} {path dir name x y z : Name}

/-! ### Components -/

theorem components_append (x y : Name) :
    components (x ++ 47 :: y) = components x ++ components y := by
  unfold components List.splitOn
  rw [splitOnP_append_cons x y (p := (· == 47)) rfl, filter_append]

theorem components_slashes (hz : ∀ b ∈ z, b = 47) : components (x ++ z) = components x := by
  induction z generalizing x with
  | nil => rw [append_nil]
  | cons b z ih =>
    have hrest := ih (x := []) fun b hb => hz b (mem_cons_of_mem _ hb)
    rw [hz b mem_cons_self, components_append]
    exact (congrArg (components x ++ ·) hrest).trans (append_nil _)

theorem components_name (hname : name ≠ []) (hslash : 47 ∉ name) : components name = [name] := by
  have hpiece : ∀ b ∈ name, (b == 47) = false := fun b hb =>
    beq_false_of_ne fun h => hslash (h ▸ hb)
  unfold components List.splitOn
  rw [splitOnP_eq_singleton hpiece, filter_singleton, isEmpty_eq_false_iff.mpr hname]
  rfl

theorem eq_dropWhile_append_takeWhile (f : UInt8 → Bool) (x : Name) :
    x = (x.reverse.dropWhile f).reverse ++ (x.reverse.takeWhile f).reverse := by
  rw [← reverse_append, takeWhile_append_dropWhile, reverse_reverse]

/-- Only slashes are trimmed, and not the first byte. -/
theorem trimTrailingSlashes_spec (path : Name) : (∃ z, (∀ b ∈ z, b = 47) ∧
    path = trimTrailingSlashes path ++ z) ∧ (trimTrailingSlashes path).head? = path.head? := by
  have hall : ∀ b ∈ path.reverse.takeWhile (· == 47), b = 47 := fun b hb =>
    eq_of_beq (all_eq_true.mp all_takeWhile b hb)
  have hpath := eq_dropWhile_append_takeWhile (· == 47) path
  unfold trimTrailingSlashes
  dsimp only
  split_ifs with hnil
  · rw [hnil, nil_append] at hpath
    refine ⟨⟨path.drop 1, fun b hb => hall b ?_, (take_append_drop 1 path).symm⟩, ?_⟩
    · rw [← mem_reverse, ← hpath]
      exact mem_of_mem_drop hb
    · cases path <;> rfl
  · refine ⟨⟨_, fun b hb => hall b (mem_reverse.mp hb), hpath⟩, ?_⟩
    conv_rhs => rw [hpath]
    exact (head?_append_of_ne_nil _ hnil).symm

theorem components_trim (path : Name) :
    components (trimTrailingSlashes path) = components path := by
  obtain ⟨⟨z, hz, hpath⟩, -⟩ := trimTrailingSlashes_spec path
  conv_rhs => rw [hpath]
  exact (components_slashes hz).symm

/-- A trimmed path is the text before the last component, which ends with a slash, and the
component. -/
theorem dir_append_last (path : Name) : trimTrailingSlashes path = dirOf path ++ lastOf path ∧
    47 ∉ lastOf path ∧ (dirOf path = [] ∨ ∃ x, dirOf path = x ++ [47]) := by
  unfold dirOf lastOf parentPart lastComponent
  generalize trimTrailingSlashes path = l
  have hl := eq_dropWhile_append_takeWhile (· != 47) l
  have hlast : 47 ∉ (l.reverse.takeWhile (· != 47)).reverse := fun h =>
    absurd (all_eq_true.mp all_takeWhile _ (mem_reverse.mp h)) (by decide)
  have hend := head?_dropWhile_not (· != 47) l.reverse
  generalize l.reverse.dropWhile (· != 47) = d at hl hend
  generalize (l.reverse.takeWhile (· != 47)).reverse = w at hl hlast ⊢
  have hdir : l.take (l.length - w.length) = d.reverse := by
    rw [hl, length_append, Nat.add_sub_cancel, take_left]
  refine ⟨hdir ▸ hl, hlast, ?_⟩
  rw [hdir]
  cases d with
  | nil => exact .inl rfl
  | cons b x =>
    have hb : b = 47 := by simpa using hend
    exact .inr ⟨x.reverse, by rw [hb, reverse_cons]⟩

theorem components_path (hlast : lastOf path ≠ []) :
    components path = components (dirOf path) ++ [lastOf path] := by
  obtain ⟨hl, hslash, hdir⟩ := dir_append_last path
  rw [← components_trim path, hl]
  rcases hdir with hnil | ⟨x, hx⟩
  · rw [hnil]
    exact components_name hlast hslash
  · rw [hx, append_assoc, singleton_append, components_append, components_name hlast hslash,
      components_slashes fun b => mem_singleton.mp]

/-! ### Following a path -/

/-- The node at which a path starts. -/
def startOf (s : State) (cwd : ℕ) (path : Name) : ℕ :=
  if path.head? = some 47 then s.root else cwd

theorem openAt_eq (hroot : s.validNode s.root = true) (hpath : path ≠ []) :
    openAt env s (some cwd) path = if !s.validNode (startOf s cwd path) then (none, s)
      else traverseComponents env s (startOf s cwd path) (components path) := by
  unfold openAt startOf
  rw [if_neg (by rw [hroot]; exact not_or.mpr ⟨hpath, Bool.noConfusion⟩)]
  by_cases hslash : path.head? = some 47
  · obtain ⟨rest, rfl⟩ := head?_eq_some_iff.mp hslash
    have hrest : components (47 :: rest) = components rest := components_append [] rest
    rw [if_pos hslash, if_pos hslash, hrest, hroot]
    by_cases hone : 47 :: rest = [47]
    · cases hone
      rfl
    · rw [if_neg hone, traverseRelative, hroot]
      rfl
  · rw [if_neg hslash, if_neg hslash]
    rfl

/-- The last component is looked up in the directory of the others. -/
theorem traverseComponents_append {l : List Name} (hname : Ordinary name)
    (h : traverseComponents env s curr (l ++ [name]) = (some c, u)) :
    ∃ p t, traverseComponents env s curr l = (some p, t) ∧ finddir env t p name = (some c, u) := by
  induction l generalizing s curr with
  | nil =>
    refine ⟨curr, s, rfl, ?_⟩
    rw [nil_append, traverseComponents.eq_2, if_neg (not_lt.mpr hname.2.1),
      if_neg hname.2.2.1, if_neg hname.2.2.2] at h
    generalize finddir env s curr name = r at h ⊢
    rcases r with ⟨_ | n, t⟩
    · cases h
    · exact h
  | cons component rest ih =>
    rw [cons_append, traverseComponents.eq_2] at h
    rw [traverseComponents.eq_2]
    split_ifs at h ⊢
    · cases h
    · exact ih h
    · exact ih h
    · generalize finddir env s curr component = r at h ⊢
      rcases r with ⟨_ | n, t⟩
      · cases h
      · exact ih h

/-- What `open_at` finds is the last component in the directory before it. -/
theorem openAt_eq_some (hroot : s.validNode s.root = true) (hlast : Ordinary (lastOf path))
    (h : openAt env s (some cwd) path = (some c, u)) : ∃ p t,
      openDir env s cwd (dirOf path) = (some p, t) ∧
        finddir env t p (lastOf path) = (some c, u) := by
  obtain ⟨hl, hslash, -⟩ := dir_append_last path
  have hhead := (trimTrailingSlashes_spec path).2
  have hpath : path ≠ [] := by
    rintro rfl
    cases h
  rw [openAt_eq hroot hpath, components_path hlast.1] at h
  split_ifs at h with hvalid
  · cases h
  obtain ⟨p, t, hdir, hfind⟩ := traverseComponents_append hlast h
  refine ⟨p, t, ?_, hfind⟩
  unfold openDir
  unfold startOf at hdir hvalid
  rw [← hhead, hl] at hdir hvalid
  split_ifs with hnil
  · -- the path is a name, so that it starts at the working directory
    have hcwd : (dirOf path ++ lastOf path).head? ≠ some 47 := fun h =>
      hslash (mem_of_mem_head? (hnil ▸ h :))
    rw [if_neg hcwd, hnil] at hdir
    exact hdir
  · rw [head?_append_of_ne_nil _ hnil] at hdir hvalid
    rw [openAt_eq hroot hnil, startOf, if_neg hvalid]
    exact hdir

/-- The copy of the text before the last component is opened like the text. -/
theorem openParent_eq (hroot : s.validNode s.root = true)
    (hlen : (trimTrailingSlashes dir).length < vfsStackComponent) :
    openParent env s cwd dir = openDir env s cwd dir := by
  unfold openParent openDir
  by_cases hdir : dir = []
  · rw [if_pos hdir, if_pos hdir]
  have hhead := (trimTrailingSlashes_spec dir).2
  have htrim : trimTrailingSlashes dir ≠ [] := fun h => hdir (head?_eq_none_iff.mp
    (hhead.symm.trans (congrArg head? h)))
  rw [if_neg hdir, if_neg hdir, if_neg (not_le.mpr hlen), openAt_eq hroot hdir,
    openAt_eq hroot htrim, components_trim, startOf, startOf, hhead]
  by_cases hslash : dir = [47]
  · rw [if_pos hslash, hslash, if_neg]
    · rfl
    · exact fun h => Bool.false_ne_true ((congrArg (!·) hroot).symm.trans h)
  · rw [if_neg hslash]

theorem length_lt_of_openParent (h : openParent env s cwd dir = (some p, t)) :
    (trimTrailingSlashes dir).length < vfsStackComponent := by
  unfold openParent at h
  split_ifs at h with hnil hslash hlong
  · rw [hnil]
    decide
  · rw [hslash]
    decide
  · cases h
  · exact Nat.lt_of_not_le hlong

theorem parent_of_finddir {refs : ℕ → ℕ} (h : Life [] refs t)
    (hfind : finddir env t p name = (some c, u)) (hc : u.parentOf c = some q) : q = p := by
  have hlook := lookup_finddir env t p name
  rw [hfind] at hlook
  cases hlook with
  | cached _ _ hcached =>
    exact Option.some.inj (hc.symm.trans (findCachedChild_eq_some h.plainLinks hcached).1)
  | @found info _ _ _ _ _ _ =>
    have hn := h.fresh t.next le_rfl
    obtain ⟨hl, hpar⟩ := h.plainLinks.add hn info.name info.type 0 info.callbacks
    obtain ⟨-, -, hcase⟩ := attachChildIfNeeded_spec hl Prod.mk.eta.symm
    rcases hcase with hsame | ⟨-, hlinked⟩
    · rw [createFsNode, hsame, hpar, parentOf_eq_none_of_invalid hn] at hc
      cases hc
    · rw [createFsNode, hlinked, Function.update_self] at hc
      exact (Option.some.inj hc).symm

/-- **Creating, unlinking and renaming resolve like opening** if, first, a directory that can be
opened has a short path and the name can be copied, and second, the node that is opened has the
name with which the path ends. -/
theorem splitsLikeOpen_iff {refs : ℕ → ℕ} (h : Life [] refs s) : SplitsLikeOpen env s cwd path ↔
    (∀ p t, Ordinary (lastOf path) → openDir env s cwd (dirOf path) = (some p, t) →
      (trimTrailingSlashes (dirOf path)).length < vfsStackComponent ∧
      (t.nodes p).map Node.type = some .directory ∧ env.nameAlloc (lastOf path) = true) ∧
    ∀ c u p, openAt env s (some cwd) path = (some c, u) → u.parentOf c = some p →
      Ordinary (lastOf path) ∧ u.nameOf c = lastOf path := by
  have hroot := validNode_of_refOf (ne_of_gt (Nat.zero_lt_of_lt h.rootHeld))
  constructor
  · intro hsplit
    refine ⟨fun p t hord hdir => ?_, fun c u p hopen hc => ?_⟩
    · obtain ⟨-, -, hparent, hrest⟩ :=
        splitParentAt_iff.mp ((hsplit.parent p _ t).mpr ⟨hord, rfl, hdir⟩)
      exact ⟨length_lt_of_openParent hparent, hrest⟩
    · obtain ⟨t, hchild⟩ := hsplit.child c u p hopen hc
      obtain ⟨hord, hname, -⟩ := (hsplit.parent _ _ _).mp hchild
      exact ⟨hord, hname⟩
  rintro ⟨hparent, hchild⟩
  have hsplit : ∀ p name t, splitParentAt env s cwd path = (some (p, name), t) ↔
      Ordinary (lastOf path) ∧ name = lastOf path ∧
        openDir env s cwd (dirOf path) = (some p, t) := by
    intro p name t
    rw [splitParentAt_iff]
    refine and_congr_right fun hord => and_congr_right fun _ => ⟨?_, fun hdir => ?_⟩
    · rintro ⟨hopen, -⟩
      exact (openParent_eq hroot (length_lt_of_openParent hopen)).symm.trans hopen
    · obtain ⟨hlen, hrest⟩ := hparent p t hord hdir
      exact ⟨(openParent_eq hroot hlen).trans hdir, hrest⟩
  refine ⟨hsplit, fun c u p hopen hc => ?_⟩
  obtain ⟨hord, hname⟩ := hchild c u p hopen hc
  obtain ⟨p', t, hdir, hfind⟩ := openAt_eq_some hroot hord hopen
  have hlife : Life [] refs (openDir env s cwd (dirOf path)).2 := by
    unfold openDir
    split_ifs
    · exact h
    · exact h.openAt env _ _
  rw [hdir] at hlife
  obtain rfl := parent_of_finddir hlife hfind hc
  exact ⟨t, (hsplit p _ t).mpr ⟨hord, hname, hdir⟩⟩

theorem splitsLikeOpen_iff_root : SplitsLikeOpen .plain (Sys.init 0).vfs 0 [47, 47, 120, 47] := by
  refine (splitsLikeOpen_iff (sysInv_init 0).life).mpr ⟨fun p t _ hdir => ?_, fun c u p hopen => ?_⟩
  · cases hdir.symm.trans (show _ = (some 0, (Sys.init 0).vfs) from rfl)
    decide
  · cases congrArg Prod.fst hopen

/-- `/././…/./x`, with 257 bytes before the `x`. -/
def dottedPath : Name := 47 :: (replicate 128 [46, 47]).flatten ++ [120]

/-- The directory of a long path can be opened, but the path cannot be split. -/
theorem splitParentAt_dottedPath : ¬SplitsLikeOpen .plain (Sys.init 0).vfs 0 dottedPath := by
  intro h
  have hord : Ordinary (lastOf dottedPath) := by
    unfold Ordinary
    decide
  have hopens : (openDir .plain (Sys.init 0).vfs 0 (dirOf dottedPath)).1 = some 0 := by
    decide +kernel
  have hnone : (splitParentAt .plain (Sys.init 0).vfs 0 dottedPath).1 = none := by decide +kernel
  generalize hdir : openDir .plain (Sys.init 0).vfs 0 (dirOf dottedPath) = r at hopens
  obtain ⟨o, t⟩ := r
  cases hopens
  rw [(h.parent 0 _ t).mpr ⟨hord, rfl, hdir⟩] at hnone
  cases hnone

end RHKernel.Vfs
