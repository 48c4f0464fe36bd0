import RHKernel.File.Exfat.FileSet
import RHKernel.Lib.Step

/-!
# What `build_file_set` writes, `parse_file_set` reads

The round trip of file sets. `parse_file_set` checks more than the layout of the stream, so it also
rejects sets that `build_file_set` would write: with attributes it does not know, with a valid
length above the data length, or, for a directory, other than it, and with a name whose surrogates
are not paired. Apart from that it returns what was written, whatever the name and its length.
-/

namespace RHKernel.Exfat

open List LittleEndian Step

variable {fs : Volume} {p stream : Entry} {o cp k n total index secondaryCount : ℕ}

theorem rd16_wr16_self (p : Entry) (o : ℕ) (v : UInt16) : rd16 (wr16 p o v) o = v := by
  have hlt := v.toNat_lt
  rw [rd16, wr16, rd_wr_self, Nat.mod_eq_of_lt (by omega), UInt16.ofNat_toNat]

theorem rd32_wr32_self (p : Entry) (o : ℕ) (v : UInt32) : rd32 (wr32 p o v) o = v := by
  have hlt := v.toNat_lt
  rw [rd32, wr32, rd_wr_self, Nat.mod_eq_of_lt (by omega), UInt32.ofNat_toNat]

theorem rd64_wr64_self (p : Entry) (o : ℕ) (v : UInt64) : rd64 (wr64 p o v) o = v := by
  have hlt := v.toNat_lt
  rw [rd64, wr64, rd_wr_self, Nat.mod_eq_of_lt (by omega), UInt64.ofNat_toNat]

theorem setByte_self (p : Entry) (o : ℕ) (v : UInt8) : setByte p o v o = v :=
  Function.update_self _ _ _

/-! ### Names -/

/-- Surrogates come in pairs. -/
def Paired : List UInt16 → Prop
  | [] => True
  | [u] => ¬highSurrogate u ∧ ¬lowSurrogate u
  | u :: v :: rest =>
    if highSurrogate u then lowSurrogate v ∧ Paired rest
    else ¬lowSurrogate u ∧ Paired (v :: rest)

theorem utf8Bytes_length (hcp : cp ≤ 0x10FFFF) :
    ∃ bytes, utf8Bytes cp = some bytes ∧ bytes.length ≤ 4 ∧ (cp < 0x10000 → bytes.length ≤ 3) := by
  unfold utf8Bytes
  split
  · exact ⟨_, rfl, by simp, by simp⟩
  split
  · exact ⟨_, rfl, by simp, by simp⟩
  split_ifs with hbig
  · exact ⟨_, rfl, by simp, by simp⟩
  · exact ⟨_, rfl, by simp, fun h => absurd h hbig⟩

/-- A code point finds room, so that only the rest decides. -/
theorem putUtf8_isSome {next : ℕ → Option (List UInt8)} {P : Prop}
    (hcp : cp ≤ 0x10FFFF) (hk : 4 ≤ k ∨ cp < 0x10000 ∧ 3 ≤ k) (ho : o + k < maxNameUtf8)
    (hnext : ∀ j ≤ k, (next (o + j)).isSome ↔ P) : (putUtf8 cp o next).isSome ↔ P := by
  obtain ⟨bytes, hb, h4, h3⟩ := utf8Bytes_length hcp
  have hlen : bytes.length ≤ k := by
    rcases hk with hk | ⟨hsmall, hk⟩
    · omega
    · have := h3 hsmall
      omega
  simp only [putUtf8, hb]
  rw [if_neg (by omega), Option.isSome_map]
  exact hnext _ hlen

theorem unit_le (u : UInt16) : u.toNat < 0x10000 := u.toNat_lt

/-- A name converts if its surrogates are paired: the output buffer is large enough for any. -/
theorem utf16ToUtf8_isSome_iff : ∀ (name : List UInt16) (o : ℕ),
    o + 3 * name.length < maxNameUtf8 → ((utf16ToUtf8 name o).isSome ↔ Paired name)
  | [], _, _ => ⟨fun _ => trivial, fun _ => rfl⟩
  | [u], o, ho => by
    have hu := unit_le u
    rw [length_singleton] at ho
    rw [utf16ToUtf8, Paired]
    split_ifs with h
    · exact ⟨nofun, fun hp => absurd h (not_or.mpr hp)⟩
    · refine putUtf8_isSome (by omega) (.inr ⟨hu, le_refl 3⟩) ho fun j _ => ?_
      exact ⟨fun _ => not_or.mp h, fun _ => rfl⟩
  | u :: v :: rest, o, ho => by
    have hu := unit_le u
    rw [length_cons, length_cons] at ho
    rw [utf16ToUtf8, Paired]
    split
    · split
      · rename_i h
        exact ⟨nofun, fun hp => absurd hp.1 h⟩
      rename_i hhigh hlow
      rw [not_not] at hlow
      have h1 : u.toNat ≤ 0xDBFF := hhigh.2
      have h2 : v.toNat ≤ 0xDFFF := hlow.2
      rw [and_iff_right hlow]
      refine putUtf8_isSome (k := 6) (by omega) (.inl (by omega)) (by omega) fun j hj => ?_
      exact utf16ToUtf8_isSome_iff rest (o + j) (by omega)
    · split_ifs with h
      · exact ⟨nofun, fun hp => absurd h hp.1⟩
      rw [and_iff_right h]
      refine putUtf8_isSome (k := 3) (by omega) (.inr ⟨hu, le_refl 3⟩) (by omega) fun j hj => ?_
      refine utf16ToUtf8_isSome_iff (v :: rest) (o + j) ?_
      rw [length_cons]
      omega

/-! ### Checksums -/

/-- The checksum leaves out the bytes in which it is stored. -/
theorem fileSetChecksum_wr16 (file : Entry) (rest : List Entry) (v : UInt16) :
    fileSetChecksum (wr16 file 2 v :: rest) = fileSetChecksum (file :: rest) := by
  have hfirst : entryChecksum 0 (wr16 file 2 v) 0 = entryChecksum 0 file 0 := by
    unfold entryChecksum
    congr 1
    funext c i
    split_ifs with hi
    · rfl
    · rw [wr16, wr_of_outside (by omega)]
  unfold fileSetChecksum
  rw [zipIdx_cons, zipIdx_cons, foldl_cons, foldl_cons, hfirst]

/-! ### The entries of a set -/

theorem nameEntry_spec (name : List UInt16) (e : ℕ) :
    nameEntry name e 0 = entryName ∧
      ∀ j < 15, rd16 (nameEntry name e) (2 + j * 2) = name.getD (15 * e + j) 0 := by
  refine foldl_range (P := fun k p => p 0 = entryName ∧
    ∀ j < k, rd16 p (2 + j * 2) = name.getD (15 * e + j) 0) (fun {i p} _ hp => ⟨?_, fun j hj => ?_⟩)
    ⟨setByte_self _ _ _, fun j hj => absurd hj (Nat.not_lt_zero j)⟩
  · rw [wr16, wr_of_outside (by omega)]
    exact hp.1
  rcases lt_or_ge j i with hlt | hge
  · rw [rd16, wr16, rd_wr_of_disjoint (by omega)]
    exact hp.2 j hlt
  · obtain rfl : j = i := by omega
    exact rd16_wr16_self _ _ _

theorem names_collected (name : List UInt16) (stream : Option Entry) (k : ℕ) (hk : k ≤ 17) :
    ((List.range k).map (nameEntry name)).foldlM Found.next ⟨stream, 0, []⟩ =
      .ok ⟨stream, k, (List.range (15 * k)).map fun i => name.getD i 0⟩ := by
  induction k with
  | zero => rfl
  | succ k ih =>
    obtain ⟨h0, hunits⟩ := nameEntry_spec name k
    rw [range_succ, map_append, foldlM_append, ih (by omega), map_singleton]
    rw [bind_of_ok, foldlM_cons, Found.next, if_neg (by rw [h0]; decide), if_pos h0, bind_of_ok]
    have hmap : (List.range 15).map (fun j => rd16 (nameEntry name k) (2 + j * 2)) =
        (List.range 15).map fun j => name.getD (15 * k + j) 0 :=
      map_congr_left fun j hj => hunits j (List.mem_range.mp hj)
    have htake : ∀ l : List UInt16, l.length = 15 →
        l.take (maxNameUnits - ((List.range (15 * k)).map fun i => name.getD i 0).length) = l := by
      intro l hl
      refine take_of_length_le ?_
      rw [length_map, length_range, hl]
      unfold maxNameUnits
      omega
    rw [hmap, htake _ (by rw [length_map, length_range]), Nat.mul_succ, range_add,
      map_append, map_map]
    rfl

theorem take_units (name : List UInt16) (h : name.length ≤ n) :
    ((List.range n).map fun i => name.getD i 0).take name.length = name := by
  refine ext_getElem ?_ fun i h1 h2 => ?_
  · rw [length_take, length_map, length_range, min_eq_left h]
  · rw [getElem_take, getElem_map, getElem_range]
    exact (getElem_eq_getD 0).symm

section Set

variable (name : List UInt16) (attr : UInt16) (flags : UInt8) (first : UInt32) (valid data : UInt64)

theorem streamEntry_spec (fs : Volume) (hlen : name.length ≤ maxNameUnits) :
    let p := streamEntry fs name flags first valid data
    p 0 = entryStream ∧ p 1 = flags ∧ (p 3).toNat = name.length ∧ rd16 p 4 = nameHash fs name ∧
      rd64 p 8 = valid ∧ rd32 p 20 = first ∧ rd64 p 24 = data := by
  have hbyte : (UInt8.ofNat name.length).toNat = name.length := by
    exact Nat.mod_eq_of_lt (lt_of_le_of_lt hlen (by decide))
  simp only [streamEntry]
  generalize hp : setByte (setByte (setByte zeroEntry 0 entryStream) 1 flags) 3
    (.ofNat name.length) = p
  have hout : ∀ j < 4, wr64 (wr32 (wr64 (wr16 p 4 (nameHash fs name)) 8 valid) 20 first) 24 data j =
      p j := by
    intro j hj
    rw [wr64, wr_of_outside (by omega), wr32, wr_of_outside (by omega), wr64,
      wr_of_outside (by omega), wr16, wr_of_outside (by omega)]
  refine ⟨?_, ?_, ?_, ?_, ?_, ?_, rd64_wr64_self _ _ _⟩
  · rw [hout 0 (by omega), ← hp]
    rfl
  · rw [hout 1 (by omega), ← hp]
    rfl
  · rw [hout 3 (by omega), ← hp, setByte_self, hbyte]
  · rw [rd16, wr64, rd_wr_of_disjoint (by omega), wr32, rd_wr_of_disjoint (by omega), wr64,
      rd_wr_of_disjoint (by omega)]
    exact rd16_wr16_self _ _ _
  · rw [rd64, wr64, rd_wr_of_disjoint (by omega), wr32, rd_wr_of_disjoint (by omega)]
    exact rd64_wr64_self _ _ _
  · rw [rd32, wr64, rd_wr_of_disjoint (by omega)]
    exact rd32_wr32_self _ _ _

theorem fileEntry_spec (htotal : total ≤ maxSetEntries) (sum : UInt16) :
    let p := wr16 (fileEntry total attr) 2 sum
    p 0 = entryFile ∧ (p 1).toNat = total - 1 ∧ rd16 p 2 = sum ∧ rd16 p 4 = attr := by
  have hbyte : (UInt8.ofNat (total - 1)).toNat = total - 1 := by
    unfold maxSetEntries maxSecondaries at htotal
    exact Nat.mod_eq_of_lt (by omega)
  simp only [fileEntry]
  refine ⟨?_, ?_, rd16_wr16_self _ _ _, ?_⟩
  · rw [wr16, wr_of_outside (by omega), wr16, wr_of_outside (by omega)]
    rfl
  · rw [wr16, wr_of_outside (by omega), wr16, wr_of_outside (by omega), setByte_self, hbyte]
  · rw [rd16, wr16, rd_wr_of_disjoint (by omega)]
    exact rd16_wr16_self _ _ _

/-- What `parse_file_set` asks of a set beyond its form. -/
def Accepted : Prop :=
  valid ≤ data ∧ attr &&& ~~~attrKnown = 0 ∧
    (attr &&& attrDirectory ≠ 0 → valid = data ∧ data &&& 31 = 0) ∧ Paired name

theorem readSecondaries_eq {read : ℕ → Except Int Entry} {rest : List Entry}
    (hread : ∀ i (h : i < rest.length), read (index + (i + 1)) = .ok rest[i])
    (huse : ∀ e ∈ rest, e 0 &&& 0x80 ≠ 0) : readSecondaries read index rest.length = .ok rest := by
  have hmap : ∀ k ≤ rest.length, readSecondaries read index k = .ok (rest.take k) := by
    intro k hk
    induction k with
    | zero => rfl
    | succ k ih =>
      have hprev := ih (by omega)
      unfold readSecondaries at hprev ⊢
      rw [range_succ, mapM_append, hprev, bind_of_ok]
      simp [hread k (by omega), if_neg (huse _ (getElem_mem (show k < rest.length by omega)))]
  have hall := hmap rest.length (le_refl _)
  rw [take_length] at hall
  exact hall

/-- The file that a set is for. -/
def builtEntry (index secondaryCount : ℕ) (utf8 : List UInt8) : DirEntry :=
  ⟨utf8, name, attr, flags, first, data, valid, index, secondaryCount⟩

/-- The checks on a set that was built: those that are left are the ones of `Accepted`. -/
theorem checkSet_built (hname : validNewName name = true) (htotal : total ≤ maxSetEntries)
    (sum : UInt16)
    (hlayout : streamLayoutValid fs first data flags = true) :
    let check := checkSet fs index secondaryCount (wr16 (fileEntry total attr) 2 sum)
      ⟨some (streamEntry fs name flags first valid data), (name.length + 14) / 15,
        (List.range (15 * ((name.length + 14) / 15))).map fun i => name.getD i 0⟩
    (∀ de, check = .ok de → Accepted name attr valid data ∧
      ∃ utf8, utf16ToUtf8 name 0 = some utf8 ∧
        de = builtEntry name attr flags first valid data index secondaryCount utf8) ∧
      (Accepted name attr valid data → ∃ de, check = .ok de) := by
  simp only [validNewName, decide_eq_true_eq] at hname
  obtain ⟨hpos, hmax, -⟩ := hname
  obtain ⟨-, h1, h3, hhash, hvalid, hfirst, hdata⟩ :=
    streamEntry_spec name flags first valid data fs hmax
  obtain ⟨-, -, -, hattr⟩ := fileEntry_spec attr htotal sum
  have hunits := take_units name (show name.length ≤ 15 * ((name.length + 14) / 15) by omega)
  have hutf := utf16ToUtf8_isSome_iff name 0 (by unfold maxNameUnits maxNameUtf8 at *; omega)
  intro check
  have hcheck : check = if data < valid then .error (-1)
      else if attr &&& ~~~attrKnown ≠ 0 then .error (-1)
      else if attr &&& attrDirectory ≠ 0 ∧ (valid ≠ data ∨ data &&& 31 ≠ 0) then .error (-1)
      else
        (utf16ToUtf8 name 0).elim (.error (-1)) fun utf8 =>
          .ok (builtEntry name attr flags first valid data index secondaryCount utf8) := by
    simp only [check, checkSet, h1, h3, hhash, hvalid, hfirst, hdata, hattr, hunits, hlayout]
    rw [if_neg (by omega), if_neg (by rw [length_map, length_range]; omega)]
    simp only [Bool.true_eq_false, ne_eq, not_true_eq_false, if_false]
    cases utf16ToUtf8 name 0 with
    | none => rfl
    | some utf8 => rfl
  rw [hcheck]
  constructor
  · intro de hok
    simp only [guard_eq_ok] at hok
    obtain ⟨hle, hknown, hdir, hok⟩ := hok
    cases hname : utf16ToUtf8 name 0 with
    | none =>
      rw [hname] at hok
      cases hok
    | some utf8 =>
      rw [hname] at hok
      cases hok
      rw [hname] at hutf
      exact ⟨⟨UInt64.not_lt.mp hle, not_not.mp hknown,
        fun hd => by_contra fun hne => hdir ⟨hd, not_and_or.mp hne⟩, hutf.mp rfl⟩,
        utf8, rfl, rfl⟩
  · rintro ⟨hle, hknown, hdir, hpaired⟩
    obtain ⟨utf8, hname⟩ := Option.isSome_iff_exists.mp (hutf.mpr hpaired)
    refine ⟨builtEntry name attr flags first valid data index secondaryCount utf8, ?_⟩
    rw [if_neg (UInt64.not_lt.mpr hle), if_neg (not_not.mpr hknown),
      if_neg fun h => not_and_or.mpr h.2 (hdir h.1), hname]
    rfl

/-- **`parse_file_set`** on a set of `build_file_set`. -/
theorem parseFileSet_built {read : ℕ → Except Int Entry}
    {set : List Entry} (hbuild : buildFileSet fs name attr flags first valid data = some set)
    (hread : ∀ i (h : i < set.length), read (index + i) = .ok set[i])
    (hlayout : streamLayoutValid fs first data flags = true) :
    (∀ de n, parseFileSet fs read index = .ok (de, n) → Accepted name attr valid data ∧
      n = set.length ∧ ∃ utf8, utf16ToUtf8 name 0 = some utf8 ∧
        de = builtEntry name attr flags first valid data index (set.length - 1) utf8) ∧
      (Accepted name attr valid data → ∃ de n, parseFileSet fs read index = .ok (de, n)) := by
  unfold buildFileSet at hbuild
  simp only [Option.ite_none_left_eq_some, Bool.not_eq_false, Option.some_inj] at hbuild
  obtain ⟨hname, htotal, rfl⟩ := hbuild
  have htotal := not_lt.mp htotal
  have hmax : name.length ≤ maxNameUnits ∧ name.length ≠ 0 := by
    simp only [validNewName, decide_eq_true_eq] at hname
    exact ⟨hname.2.1, hname.1⟩
  generalize hrest : streamEntry fs name flags first valid data ::
    (List.range ((name.length + 14) / 15)).map (nameEntry name) = rest at hread
  have hlen : rest.length = (name.length + 14) / 15 + 1 := by
    rw [← hrest, length_cons, length_map, length_range]
  generalize hsum : fileSetChecksum (fileEntry (2 + (name.length + 14) / 15) attr :: rest) = sum
    at hread
  obtain ⟨hstream, -⟩ := streamEntry_spec name flags first valid data fs hmax.1
  obtain ⟨hfile, hcount, hstored, -⟩ := fileEntry_spec attr htotal sum
  -- the secondary entries are in use, and hold one stream and the name
  have huse : ∀ e ∈ rest, e 0 &&& 0x80 ≠ 0 := by
    intro e he
    rw [← hrest, mem_cons, mem_map] at he
    rcases he with rfl | ⟨k, -, rfl⟩
    · rw [hstream]
      decide
    · rw [(nameEntry_spec name k).1]
      decide
  have hsecond := readSecondaries_eq (fun i h => hread (i + 1) (Nat.succ_lt_succ h)) huse
  have hfound : rest.foldlM Found.next ⟨none, 0, []⟩ = .ok
      ⟨some (streamEntry fs name flags first valid data), (name.length + 14) / 15,
        (List.range (15 * ((name.length + 14) / 15))).map fun i => name.getD i 0⟩ := by
    rw [← hrest, foldlM_cons, Found.next, if_pos hstream,
      if_neg (show ¬(none : Option Entry).isSome = true from Bool.false_ne_true), bind_of_ok]
    exact names_collected name _ _ (by unfold maxNameUnits at hmax; omega)
  have hparse : parseFileSet fs read index =
      (checkSet fs index rest.length (wr16 (fileEntry (2 + (name.length + 14) / 15) attr) 2 sum)
        ⟨some (streamEntry fs name flags first valid data), (name.length + 14) / 15,
          (List.range (15 * ((name.length + 14) / 15))).map fun i => name.getD i 0⟩).map
        fun de => (de, rest.length + 1) := by
    have hzero : read index = .ok (wr16 (fileEntry (2 + (name.length + 14) / 15) attr) 2 sum) :=
      hread 0 (Nat.succ_pos _)
    rw [parseFileSet, hzero, bind_of_ok, if_neg (by rw [hfile]; decide), if_neg (not_not.mpr hfile)]
    have hnum : (wr16 (fileEntry (2 + (name.length + 14) / 15) attr) 2 sum 1).toNat =
        rest.length := by rw [hcount, hlen]; omega
    simp only [hnum]
    rw [if_neg (by unfold maxSetEntries at htotal; omega), hsecond, bind_of_ok,
      fileSetChecksum_wr16, hsum, hstored, if_neg (not_not.mpr rfl), hfound, bind_of_ok]
    cases checkSet fs index rest.length _ _ <;> rfl
  obtain ⟨h1, h2⟩ := checkSet_built name attr flags first valid data hname htotal sum hlayout
  refine ⟨fun de n hok => ?_, fun hacc => ?_⟩
  · rw [hparse] at hok
    cases hcheck : checkSet fs index rest.length
        (wr16 (fileEntry (2 + (name.length + 14) / 15) attr) 2 sum) _ with
    | error e =>
      rw [hcheck] at hok
      cases hok
    | ok de' =>
      rw [hcheck] at hok
      cases hok
      obtain ⟨hacc, hutf⟩ := h1 _ hcheck
      exact ⟨hacc, rfl, hutf⟩
  · obtain ⟨de, hok⟩ := h2 hacc
    exact ⟨de, rest.length + 1, by rw [hparse, hok]; rfl⟩

end Set

/-! ### What an accepted set says about itself -/

theorem mapM_range_ok {f : ℕ → Except Int Entry} {l : List Entry}
    (h : (List.range k).mapM f = .ok l) :
    l.length = k ∧ ∀ i (hi : i < l.length), f i = .ok l[i] := by
  induction k generalizing l with
  | zero =>
    cases h
    exact ⟨rfl, fun i hi => absurd hi (Nat.not_lt_zero i)⟩
  | succ k ih =>
    rw [range_succ, mapM_append] at h
    obtain ⟨l1, h1, h⟩ := ok_bind h
    obtain ⟨l2, h2, h⟩ := ok_bind h
    obtain rfl : l1 ++ l2 = l := Except.ok.inj h
    obtain ⟨e, he, h2⟩ := ok_bind h2
    obtain rfl : [e] = l2 := Except.ok.inj h2
    obtain ⟨hlen, hget⟩ := ih h1
    refine ⟨by rw [length_append, hlen, length_singleton], fun i hi => ?_⟩
    rw [getElem_append]
    split
    · rename_i hlt
      exact hget i hlt
    rw [length_append, length_singleton] at hi
    obtain rfl : i = k := by omega
    simp only [hlen, Nat.sub_self, getElem_cons_zero]
    exact he

theorem found_stream {l : List Entry} {x x' : Found}
    (h : l.foldlM Found.next x = .ok x') (hs : x'.stream = some stream) :
    x.stream = some stream ∨ stream ∈ l ∧ stream 0 = entryStream := by
  induction l generalizing x with
  | nil =>
    cases h
    exact .inl hs
  | cons e l ih =>
    obtain ⟨y, hy, h⟩ := ok_bind h
    rcases ih h with hfound | ⟨hmem, h0⟩
    · unfold Found.next at hy
      split at hy
      · rename_i he
        split at hy
        · cases hy
        · cases hy
          obtain rfl := Option.some.inj hfound
          exact .inr ⟨mem_cons_self, he⟩
      · split at hy <;> cases hy <;> exact .inl hfound
    · exact .inr ⟨mem_cons_of_mem _ hmem, h0⟩

/-- The set of an accepted file: the entries that were read. -/
structure IsSet (fs : Volume) (read : ℕ → Except Int Entry) (index : ℕ) (de : DirEntry) (n : ℕ)
    (file : Entry) (rest : List Entry) : Prop where
  primary : read index = .ok file
  length : rest.length + 1 = n
  secondary (i : ℕ) (h : i < rest.length) : read (index + (i + 1)) = .ok rest[i]
  checksum : rd16 file 2 = fileSetChecksum (file :: rest)
  hash : ∃ stream ∈ rest, stream 0 = entryStream ∧ rd16 stream 4 = nameHash fs de.name16

/-- **`parse_file_set`** accepts only what has the right checksum and the right hash. -/
theorem parseFileSet_sound {read : ℕ → Except Int Entry} {de : DirEntry}
    (h : parseFileSet fs read index = .ok (de, n)) :
    ∃ file rest, IsSet fs read index de n file rest := by
  obtain ⟨file, hfile, h⟩ := ok_bind h
  obtain ⟨-, -, -, h⟩ := by simpa only [guard_eq_ok] using h
  obtain ⟨rest, hrest, h⟩ := ok_bind h
  obtain ⟨hsum, h⟩ := guard_eq_ok.mp h
  obtain ⟨x, hx, h⟩ := ok_bind h
  obtain ⟨de', hcheck, h⟩ := ok_bind h
  obtain ⟨rfl, rfl⟩ : de' = de ∧ _ = n := Prod.mk.inj (Except.ok.inj h)
  obtain ⟨hlen, hget⟩ := mapM_range_ok hrest
  refine ⟨file, rest, hfile, by rw [hlen], fun i hi => ?_, (not_not.mp hsum).symm, ?_⟩
  · have hi := hget i hi
    split at hi
    · cases hi
    rename_i e he
    split at hi
    · cases hi
    · rw [he]
      exact hi
  unfold checkSet at hcheck
  split at hcheck
  · cases hcheck
  rename_i stream hstream
  have hmem := (found_stream hx hstream).resolve_left (Option.some_ne_none stream).symm
  refine ⟨stream, hmem.1, hmem.2, ?_⟩
  simp only at hcheck
  -- the length of the name, the lengths, the attributes, the layout and the hash are checked
  simp only [guard_eq_ok] at hcheck
  obtain ⟨-, -, -, -, -, -, hhash, hcheck⟩ := hcheck
  split at hcheck
  · cases hcheck
  · cases hcheck
    exact (not_not.mp hhash).symm

theorem buildFileSet_isSome (fs : Volume) {name : List UInt16} (hname : validNewName name = true)
    (attr : UInt16) (flags : UInt8) (first : UInt32) (valid data : UInt64) :
    ∃ set, buildFileSet fs name attr flags first valid data = some set := by
  have hmax : name.length ≤ maxNameUnits := by
    simp only [validNewName, decide_eq_true_eq] at hname
    exact hname.2.1
  unfold buildFileSet
  rw [if_neg (by simp [hname])]
  rw [if_neg (by unfold maxNameUnits maxSetEntries maxSecondaries at *; omega)]
  exact ⟨_, rfl⟩

/-- **Round trip.** `build_file_set` writes a set for every name, and `parse_file_set` reads from it
what was written and consumes all of it, if and only if the set is one it accepts; and of all sets
it only accepts those whose checksum and name hash are the ones that `build_file_set` computes. -/
theorem fileSet_roundTrip (fs : Volume) (name : List UInt16) (attr : UInt16) (flags : UInt8)
    (first : UInt32) (valid data : UInt64) (hname : validNewName name = true)
    (hlayout : streamLayoutValid fs first data flags = true) :
    (∃ set, buildFileSet fs name attr flags first valid data = some set ∧
      ∀ read index, (∀ i (h : i < set.length), read (index + i) = .ok set[i]) →
        ((∃ x, parseFileSet fs read index = .ok x) ↔ Accepted name attr valid data) ∧
        ∀ de n, parseFileSet fs read index = .ok (de, n) → n = set.length ∧ de.name16 = name ∧
          de.attr = attr ∧ de.flags = flags ∧ de.firstCluster = first ∧ de.validLength = valid ∧
          de.dataLength = data) ∧
    ∀ read index de n, parseFileSet fs read index = .ok (de, n) →
      ∃ file rest, IsSet fs read index de n file rest := by
  refine ⟨?_, fun read index de n => parseFileSet_sound⟩
  obtain ⟨set, hset⟩ := buildFileSet_isSome fs hname attr flags first valid data
  refine ⟨set, hset, fun read index hread => ?_⟩
  obtain ⟨h1, h2⟩ := parseFileSet_built name attr flags first valid data hset hread hlayout
  refine ⟨⟨fun ⟨x, hx⟩ => (h1 x.1 x.2 hx).1, fun hacc => ?_⟩, fun de n hok => ?_⟩
  · obtain ⟨de, n, hok⟩ := h2 hacc
    exact ⟨(de, n), hok⟩
  · obtain ⟨-, hn, utf8, -, rfl⟩ := h1 de n hok
    exact ⟨hn, rfl, rfl, rfl, rfl, rfl, rfl⟩

/-- A volume without files. -/
def emptyVolume : Volume := ⟨16, 4096, 8, 512, 64, 2 ^ 20, none⟩

/-- The entries of a set, as a directory that holds nothing else. -/
def readOf (set : List Entry) (i : ℕ) : Except Int Entry := (set[i]?).elim (.error 1) .ok

/-- An empty file with the name of one letter. -/
theorem fileSet_roundTrip_letter : ∃ set read x,
    buildFileSet emptyVolume [0x61] 0x20 0 0 0 0 = some set ∧
      parseFileSet emptyVolume read 0 = .ok x ∧ x.1.name16 = [0x61] ∧ x.2 = set.length := by
  obtain ⟨⟨set, hset, h⟩, -⟩ := fileSet_roundTrip emptyVolume [0x61] 0x20 0 0 0 0
    (by decide) (by decide)
  obtain ⟨hiff, hsame⟩ := h (readOf set) 0 fun i hi => by
    rw [readOf, zero_add, getElem?_eq_getElem hi]
    rfl
  obtain ⟨x, hx⟩ := hiff.mpr ⟨by decide, by decide, by decide, by decide, by decide⟩
  obtain ⟨hn, hname, -⟩ := hsame x.1 x.2 hx
  exact ⟨set, readOf set, x, hset, hx, hname, hn⟩

/-- A name and attributes whose set is built, and is not accepted when it is read. -/
def BuiltRejected (name : List UInt16) (attr : UInt16) : Prop :=
  validNewName name = true ∧ streamLayoutValid emptyVolume 0 0 0 = true ∧
    ∃ set, buildFileSet emptyVolume name attr 0 0 0 0 = some set ∧
      ∀ de n, parseFileSet emptyVolume (readOf set) 0 ≠ .ok (de, n)

theorem builtRejected_of_not_accepted {name : List UInt16} {attr : UInt16}
    (hname : validNewName name = true) (hacc : ¬Accepted name attr 0 0) :
    BuiltRejected name attr := by
  obtain ⟨set, hset⟩ := buildFileSet_isSome emptyVolume hname attr 0 0 0 0
  refine ⟨hname, by decide, set, hset, fun de n hok => hacc ?_⟩
  refine ((parseFileSet_built name attr 0 0 0 0 hset (fun i hi => ?_) (by decide)).1 de n hok).1
  rw [readOf, zero_add, getElem?_eq_getElem hi]
  rfl

/-- Sets that are written and not accepted: with a bit of the attributes that has no meaning, and
with one half of a surrogate pair for a name. -/
theorem parseFileSet_rejects_built : BuiltRejected [0x61] 0x40 ∧ BuiltRejected [0xD800] 0x20 :=
  ⟨builtRejected_of_not_accepted (by decide) fun h => absurd h.2.1 (by decide),
    builtRejected_of_not_accepted (by decide) fun h => absurd h.2.2.2.1 (by decide)⟩

end RHKernel.Exfat
