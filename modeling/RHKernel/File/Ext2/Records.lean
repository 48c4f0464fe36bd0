import RHKernel.File.Ext2.Dirent

/-!
# The records of a directory block

`Tiles` says that a block is divided into a list of records that pass `ext2_validate_dirent`. The
scans of the driver are described over this list: where a look-up ends, which record gives up its
slack to a new one, and which record takes over the one that is removed.
-/

namespace RHKernel.Ext2

open List LittleEndian Rec

variable {g : Geometry} {b b' : Block} {o boff stop fuel n ino j left o' p : ℕ} {r q : Rec}
  {l l' : List Rec}
  {name : List UInt8} {fileType : UInt8}

theorem recAt_lt (b : Block) (o : ℕ) :
    (recAt b o).ino < 2 ^ 32 ∧ (recAt b o).recLen < 2 ^ 16 ∧ (recAt b o).name.length < 256 := by
  refine ⟨rd_lt b o 4, rd_lt b (o + 4) 2, ?_⟩
  rw [recAt, length_map, length_range]
  exact (b (o + 6)).toNat_lt

theorem recAt_congr (hlen : 8 + (recAt b o).name.length ≤ n)
    (h : ∀ j, o ≤ j → j < o + n → b' j = b j) : recAt b' o = recAt b o := by
  have hbyte : ∀ i < 8, b' (o + i) = b (o + i) := fun i hi => h _ (by omega) (by omega)
  have hname : ∀ i < (b (o + 6)).toNat, b' (o + 8 + i) = b (o + 8 + i) := by
    intro i hi
    rw [recAt, length_map, length_range] at hlen
    exact h _ (by omega) (by omega)
  unfold recAt
  rw [hbyte 6 (by omega), hbyte 7 (by omega),
    rd_congr fun j h1 h2 => h j h1 (by omega), rd_congr fun j h1 h2 => h j (by omega) (by omega)]
  congr 1
  exact map_congr_left fun i hi => hname i (List.mem_range.mp hi)

theorem putRec_of_lt (h : j < o + 8) (b : Block) (r : Rec) :
    putRec b o r j =
      wr (wr (wr (wr b o 4 r.ino) (o + 4) 2 r.recLen) (o + 6) 1 r.name.length) (o + 7) 1
        r.fileType.toNat j := if_neg (by omega)

theorem putRec_of_outside (h : j < o ∨ o + 8 + r.name.length ≤ j) (b : Block) :
    putRec b o r j = b j := by
  unfold putRec
  rw [if_neg (by omega), wr_of_outside (by omega), wr_of_outside (by omega),
    wr_of_outside (by omega), wr_of_outside (by omega)]

theorem recAt_putRec (b : Block) (o : ℕ) (hino : r.ino < 2 ^ 32) (hlen : r.recLen < 2 ^ 16)
    (hname : r.name.length < 256) : recAt (putRec b o r) o = r := by
  have hcount : (putRec b o r (o + 6)).toNat = r.name.length := by
    rw [putRec_of_lt (by omega), wr_of_outside (by omega), wr, if_pos (by omega), Nat.sub_self,
      Nat.pow_zero, Nat.div_one, UInt8.toNat_ofNat', Nat.mod_eq_of_lt hname]
  have htype : putRec b o r (o + 7) = r.fileType := by
    rw [putRec_of_lt (by omega), wr, if_pos (by omega), Nat.sub_self, Nat.pow_zero, Nat.div_one,
      UInt8.ofNat_toNat]
  have hinode : rd (putRec b o r) o 4 = r.ino := by
    rw [rd_congr fun j _ h2 => putRec_of_lt (by omega) b r, rd_wr_of_disjoint (by omega),
      rd_wr_of_disjoint (by omega), rd_wr_of_disjoint (by omega), rd_wr_self]
    exact Nat.mod_eq_of_lt hino
  have hrec : rd (putRec b o r) (o + 4) 2 = r.recLen := by
    rw [rd_congr fun j _ h2 => putRec_of_lt (by omega) b r, rd_wr_of_disjoint (by omega),
      rd_wr_of_disjoint (by omega), rd_wr_self]
    exact Nat.mod_eq_of_lt hlen
  have hbytes : (List.range r.name.length).map (fun i => putRec b o r (o + 8 + i)) = r.name := by
    refine ext_getElem (by rw [length_map, length_range]) fun i h1 h2 => ?_
    rw [getElem_map, getElem_range, putRec]
    rw [if_pos (by omega), Nat.add_sub_cancel_left]
    exact (getElem_eq_getD 0).symm
  unfold recAt
  rw [hcount, htype, hinode, hrec, hbytes]

/-! ### Blocks and lists of records -/

/-- From `boff` to `stop` the block consists of the records `l`, and there it has no room for
more. -/
def Tiles (g : Geometry) (b : Block) : ℕ → List Rec → ℕ → Prop
  | boff, [], stop => boff = stop ∧ g.blockSize < boff + 8
  | boff, r :: l, stop =>
    boff + 8 ≤ g.blockSize ∧ recAt b boff = r ∧ r.Valid g boff ∧ Tiles g b (boff + r.recLen) l stop

theorem Rec.Valid.facts (h : r.Valid g boff) : 8 ≤ r.recLen ∧ r.recLen % 4 = 0 ∧
    boff + r.recLen ≤ g.blockSize ∧ 8 + r.name.length ≤ r.recLen ∧ r.ino ≤ g.inodesCount ∧
    fileTypeValid r.fileType ∧ (r.ino = 0 → r.name.length = 0) := by
  obtain ⟨h1, h2, h3, h4, h5⟩ := h
  refine ⟨by omega, by omega, by omega, by omega, by omega, h4, fun h0 => ?_⟩
  by_contra hne
  exact h5 ⟨h0, hne⟩

theorem Rec.Valid.mk (h1 : 8 ≤ r.recLen) (h2 : r.recLen % 4 = 0)
    (h3 : boff + r.recLen ≤ g.blockSize) (h4 : 8 + r.name.length ≤ r.recLen)
    (h5 : r.ino ≤ g.inodesCount) (h6 : fileTypeValid r.fileType)
    (h7 : r.ino = 0 → r.name.length = 0) : r.Valid g boff :=
  ⟨by omega, by omega, by omega, h6, fun h => h.2 (h7 h.1)⟩

theorem Tiles.le (h : Tiles g b boff l stop) : boff ≤ stop := by
  induction l generalizing boff with
  | nil => exact h.1.le
  | cons r l ih => exact (Nat.le_add_right _ _).trans (ih h.2.2.2)

theorem Tiles.congr (h : Tiles g b boff l stop) (hb : ∀ j, boff ≤ j → j < stop → b' j = b j) :
    Tiles g b' boff l stop := by
  induction l generalizing boff with
  | nil => exact h
  | cons r l ih =>
    obtain ⟨h1, h2, h3, h4⟩ := h
    have hfacts := h3.facts
    have hle := h4.le
    refine ⟨h1, ?_, h3, ih h4 fun j hj => hb j (by omega)⟩
    rw [← h2]
    refine recAt_congr (n := r.recLen) (by rw [h2]; omega) fun j hj1 hj2 => hb j hj1 (by omega)

theorem Tiles.name_lt (h : Tiles g b boff l stop) (hr : r ∈ l) : r.name.length < 256 := by
  induction l generalizing boff with
  | nil => exact absurd hr not_mem_nil
  | cons q l ih =>
    obtain rfl | hr := mem_cons.mp hr
    · exact h.2.1 ▸ (recAt_lt b boff).2.2
    · exact ih h.2.2.2 hr

/-- The names in a list of records. -/
def live (l : List Rec) : List (List UInt8 × ℕ) :=
  (l.filter fun r => r.ino ≠ 0 ∧ r.name.length ≠ 0).map fun r => (r.name, r.ino)

theorem live_cons (r : Rec) (l : List Rec) : live (r :: l) = live [r] ++ live l := by
  unfold live
  rw [← map_append, ← filter_append, singleton_append]

theorem live_of_used (h : r.ino ≠ 0 ∧ r.name.length ≠ 0) : live [r] = [(r.name, r.ino)] := by
  rw [live, filter_cons, if_pos (decide_eq_true h)]
  rfl

theorem live_of_unused (h : ¬(r.ino ≠ 0 ∧ r.name.length ≠ 0)) : live [r] = [] := by
  simp only [live, filter_cons, h, decide_false, Bool.false_eq_true, if_false, filter_nil, map_nil]

theorem mem_live {x : List UInt8 × ℕ} : x ∈ live l ↔ ∃ r ∈ l, r.Is x.1 ∧ r.ino = x.2 := by
  obtain ⟨name, ino⟩ := x
  simp only [live, mem_map, mem_filter, decide_eq_true_eq, Is, Prod.mk.injEq]
  constructor
  · rintro ⟨r, ⟨hr, h1, h2⟩, h3, h4⟩
    exact ⟨r, hr, ⟨h1, h2, h3⟩, h4⟩
  · rintro ⟨r, hr, ⟨h1, h2, h3⟩, h4⟩
    exact ⟨r, ⟨hr, h1, h2⟩, h3, h4⟩

/-! ### Scans -/

/-- The first record with a name, and its offset. -/
def firstIs (name : List UInt8) : ℕ → List Rec → Option (ℕ × Rec)
  | _, [] => none
  | o, r :: l => if r.Is name then some (o, r) else firstIs name (o + r.recLen) l

theorem findIn_eq (h : Tiles g b boff l stop) (hleft : g.blockSize ≤ left)
    (hfuel : g.blockSize ≤ boff + fuel) :
    findIn g b left name fuel boff =
      (firstIs name boff l).elim .absent fun x => .found x.1 x.2 := by
  induction l generalizing boff fuel with
  | nil =>
    cases fuel with
    | zero => rfl
    | succ fuel =>
      rw [findIn, if_neg (fun hc => absurd hc.1 (not_le.mpr h.2))]
      rfl
  | cons r l ih =>
    obtain ⟨h1, h2, h3, h4⟩ := h
    have hfacts := h3.facts
    obtain ⟨fuel, rfl⟩ : ∃ f, fuel = f + 1 := ⟨fuel - 1, by omega⟩
    rw [findIn, if_pos ⟨h1, by omega⟩, h2]
    rw [if_neg (not_not.mpr h3), firstIs]
    split
    · rfl
    · exact ih h4 (by omega)

/-! ### The record that is given up or taken over -/

theorem recLenFor_facts (n : ℕ) : 8 + n ≤ recLenFor n ∧ recLenFor n % 4 = 0 := by
  unfold recLenFor
  omega

def Rec.withLen (r : Rec) (n : ℕ) : Rec := { r with recLen := n }

theorem recAt_wr_recLen (h : n < 2 ^ 16) : recAt (wr b (o + 4) 2 n) o = (recAt b o).withLen n := by
  have hsix : wr b (o + 4) 2 n (o + 6) = b (o + 6) := wr_of_outside (by omega)
  have hname : ∀ i, wr b (o + 4) 2 n (o + 8 + i) = b (o + 8 + i) :=
    fun i => wr_of_outside (by omega)
  unfold recAt withLen
  rw [rd_wr_of_disjoint (by omega), rd_wr_self, hsix, wr_of_outside (by omega)]
  simp only [hname, mk.injEq, true_and, and_true]
  exact Nat.mod_eq_of_lt h

theorem live_withLen (n : ℕ) : live [r.withLen n] = live [r] := by
  by_cases h : r.ino ≠ 0 ∧ r.name.length ≠ 0
  · rw [live_of_used h, live_of_used (r := r.withLen n) h]
    rfl
  · rw [live_of_unused h, live_of_unused (r := r.withLen n) h]

theorem Tiles.cons_head (h : Tiles g b boff (r :: l) stop)
    (ho : o' = boff + r.recLen) (hl : Tiles g b' o' l' stop)
    (hb : ∀ j, j < boff + r.recLen → b' j = b j) : Tiles g b' boff (r :: l') stop := by
  obtain ⟨h1, h2, h3, h4⟩ := h
  have hfacts := h3.facts
  refine ⟨h1, ?_, h3, ho ▸ hl⟩
  rw [← h2]
  exact recAt_congr (n := r.recLen) (by rw [h2]; omega) fun j _ hj => hb j hj

/-- What a call of `ext2_dir_add_entry` has to be given. -/
structure Addable (g : Geometry) (name : List UInt8) (ino : ℕ) (fileType : UInt8) : Prop where
  ino_ne : ino ≠ 0
  ino_lt : ino < 2 ^ 32
  ino_le : ino ≤ g.inodesCount
  name_len : nameLenChecked name
  type : fileTypeValid fileType

theorem Geometry.blockSize_lt (g : Geometry) : g.blockSize < 2 ^ 16 ∧ g.blockSize % 4 = 0 ∧
    512 ≤ g.blockSize := by
  obtain h | h | h := g.blockSize_mem <;> omega

variable (ha : Addable g name ino fileType)

include ha

theorem Addable.put (hfit : recLenFor name.length ≤ n)
    (hmod : n % 4 = 0) (hend : o + n ≤ g.blockSize)
    (hl : Tiles g (putRec b o ⟨ino, n, fileType, name⟩) (o + n) l stop) :
    Tiles g (putRec b o ⟨ino, n, fileType, name⟩) o (⟨ino, n, fileType, name⟩ :: l) stop := by
  have hneed := recLenFor_facts name.length
  have hbs := g.blockSize_lt
  have hname : name.length ≤ 255 := ha.name_len.2
  refine ⟨by omega, recAt_putRec b o ha.ino_lt (by simp only; omega) (by simp only; omega),
    Valid.mk (by simp only; omega) hmod hend (by simp only; omega) ha.ino_le ha.type
      fun h => absurd h ha.ino_ne, hl⟩

theorem Addable.live :
    live [⟨ino, n, fileType, name⟩] = [(name, ino)] :=
  live_of_used ⟨ha.ino_ne, ha.name_len.1⟩

/-- A new entry takes an unused record or the slack of a used one. -/
theorem placeIn_spec (h : Tiles g b boff l stop)
    (hfuel : g.blockSize ≤ boff + fuel) (hput : placeIn g b name ino fileType fuel boff = some b') :
    (∃ l', Tiles g b' boff l' stop ∧ (live l').Perm ((name, ino) :: live l)) ∧
      ∀ j < boff, b' j = b j := by
  induction l generalizing boff fuel with
  | nil =>
    cases fuel with
    | zero => simp only [placeIn, reduceCtorEq] at hput
    | succ fuel => simp only [placeIn, if_neg (not_le.mpr h.2), reduceCtorEq] at hput
  | cons r l ih =>
    have hhead := h
    obtain ⟨h1, h2, h3, h4⟩ := h
    have hfacts := h3.facts
    have hneed := recLenFor_facts name.length
    have hideal := recLenFor_facts r.name.length
    have hbs := g.blockSize_lt
    obtain ⟨fuel, rfl⟩ : ∃ f, fuel = f + 1 := ⟨fuel - 1, by omega⟩
    rw [placeIn, if_pos h1, h2] at hput
    rw [if_neg (not_not.mpr h3)] at hput
    split_ifs at hput with hfree hslack
    · -- An unused record is taken as it is.
      obtain rfl := Option.some.inj hput
      have hrest : Tiles g (putRec b boff ⟨ino, r.recLen, fileType, name⟩) _ l stop :=
        h4.congr fun j hj _ => putRec_of_outside (by simp only; omega) b
      refine ⟨⟨_, ha.put hfree.2 hfacts.2.1 hfacts.2.2.1 hrest, ?_⟩,
        fun j hj => putRec_of_outside (Or.inl hj) b⟩
      rw [live_cons, ha.live, live_cons r, live_of_unused fun hc => hc.1 hfree.1]
      exact List.Perm.refl _
    · -- A used record keeps what its own name needs.
      obtain rfl := Option.some.inj hput
      generalize recLenFor r.name.length = need at *
      set b1 := wr b (boff + 4) 2 need with hb1
      set new : Rec := ⟨ino, r.recLen - need, fileType, name⟩ with hnew
      have hlow : ∀ j, j < boff + need →
          putRec b1 (boff + need) new j = b1 j :=
        fun j hj => putRec_of_outside (Or.inl hj) b1
      have hrest : Tiles g (putRec b1 (boff + need) new) _ l stop :=
        h4.congr fun j hj _ => (putRec_of_outside (by simp only [hnew]; omega) b1).trans
          (wr_of_outside (by omega))
      have htail : Tiles g (putRec b1 (boff + need) new) (boff + need) (new :: l) stop := by
        refine ha.put (by omega) (by omega) (by omega) ?_
        rwa [show boff + need + (r.recLen - need) = boff + r.recLen by omega]
      have hkept : recAt b1 boff = r.withLen need := by
        rw [hb1, recAt_wr_recLen (by omega), h2]
      have hfirst : recAt (putRec b1 (boff + need) new) boff = r.withLen need := by
        rw [← hkept]
        refine recAt_congr (n := need) ?_ fun j _ hj => hlow j hj
        rw [hkept]
        exact hideal.1
      refine ⟨⟨r.withLen need :: new :: l, ⟨h1, hfirst, ?_, htail⟩, ?_⟩,
        fun j hj => (hlow j (by omega)).trans (wr_of_outside (by omega))⟩
      · exact Valid.mk (by simp only [withLen]; omega) hideal.2
          (by simp only [withLen]; omega) hideal.1 hfacts.2.2.2.2.1 hfacts.2.2.2.2.2.1
          hfacts.2.2.2.2.2.2
      · rw [live_cons, live_withLen, live_cons new l, ha.live, live_cons r l]
        exact perm_middle
    · obtain ⟨⟨l', hl', hlive⟩, hbelow⟩ := ih h4 (by omega) hput
      refine ⟨⟨r :: l', hhead.cons_head rfl hl' hbelow, ?_⟩, fun j hj => hbelow j (by omega)⟩
      rw [live_cons, live_cons r l]
      exact (Perm.append_left _ hlive).trans perm_middle

theorem newBlock_tiles :
    Tiles g (newBlock g name ino fileType) 0 [⟨ino, g.blockSize, fileType, name⟩] g.blockSize := by
  have hbs := g.blockSize_lt
  have hname : name.length ≤ 255 := ha.name_len.2
  have hneed : recLenFor name.length ≤ g.blockSize := by
    unfold recLenFor
    omega
  exact ha.put hneed hbs.2.1 (by omega) ⟨by omega, by omega⟩

omit ha

/-- A record that is not the first of its block is taken over by the one before it. -/
theorem cutIn_some (name : List UInt8) (fuel : ℕ) (h : Tiles g b p (q :: l) stop)
    (hfuel : g.blockSize ≤ p + q.recLen + fuel) :
    (cutIn g b name fuel (p + q.recLen) (some p) = none ∧ ∀ r ∈ l, ¬r.Is name) ∨
      ∃ b' l' ino, cutIn g b name fuel (p + q.recLen) (some p) = some b' ∧ Tiles g b' p l' stop ∧
        (live (q :: l)).Perm ((name, ino) :: live l') ∧ ∀ j < p, b' j = b j := by
  induction l generalizing p q fuel with
  | nil =>
    have hcut : cutIn g b name fuel (p + q.recLen) (some p) = none := by
      cases fuel with
      | zero => rfl
      | succ fuel => rw [cutIn, if_neg (not_le.mpr h.2.2.2.2)]
    exact Or.inl ⟨hcut, nofun⟩
  | cons r l ih =>
    obtain ⟨h1, h2, h3, h4⟩ := h
    have hq := h3.facts
    have hr := h4.2.2.1.facts
    have hbs := g.blockSize_lt
    obtain ⟨fuel, rfl⟩ : ∃ f, fuel = f + 1 := ⟨fuel - 1, by omega⟩
    rw [cutIn, if_pos h4.1, h4.2.1]
    simp only
    rw [if_neg (not_not.mpr h4.2.2.1)]
    split_ifs with his
    · rw [h2]
      have hfirst : recAt (wr b (p + 4) 2 (q.recLen + r.recLen)) p =
          q.withLen (q.recLen + r.recLen) := by
        rw [recAt_wr_recLen (by omega), h2]
      have hlive : live [r] = [(name, r.ino)] := by
        obtain ⟨hi, hn, rfl⟩ := his
        exact live_of_used ⟨hi, hn⟩
      refine Or.inr ⟨_, q.withLen (q.recLen + r.recLen) :: l, r.ino, rfl, ⟨h1, hfirst, ?_, ?_⟩, ?_,
        fun j hj => wr_of_outside (by omega)⟩
      · exact Valid.mk (by simp only [withLen]; omega) (by simp only [withLen]; omega)
          (by simp only [withLen]; omega) (by simp only [withLen]; omega) hq.2.2.2.2.1
          hq.2.2.2.2.2.1 hq.2.2.2.2.2.2
      · refine Tiles.congr ?_ fun j hj _ => wr_of_outside (by simp only [withLen] at hj; omega)
        have hrest := h4.2.2.2
        rwa [add_assoc] at hrest
      · rw [live_cons, live_cons r, hlive, live_cons (q.withLen _), live_withLen]
        exact perm_middle
    · obtain ⟨hcut, hno⟩ | ⟨b', l', ino, hcut, hl', hlive, hbelow⟩ := ih fuel h4 (by omega)
      · exact Or.inl ⟨hcut, forall_mem_cons.mpr ⟨his, hno⟩⟩
      · refine Or.inr ⟨b', q :: l', ino, hcut, Tiles.cons_head ⟨h1, h2, h3, h4⟩ rfl hl' hbelow, ?_,
          fun j hj => hbelow j (by omega)⟩
        rw [live_cons, live_cons q l']
        exact (Perm.append_left _ hlive).trans perm_middle

end RHKernel.Ext2
