import UnixV6pp.Build.DirStored
import UnixV6pp.Fs.CurrentDirectory
import UnixV6pp.Fs.FullNames

/-!
# Looking up what the builder has stored

The last four of the 28 bytes that the builder has for a name are the number of further units for
the kernel, and the kernel ends a name only with a zero among the other 24.  A name of 24 bytes is
taken for longer ones, and one of 25 or more is no record of its own.

## Main definitions

* `unitsRead` — the number of units that the kernel reads in a name.
* `Understood` — the kernel finds the names the builder has stored, and no other.

## Main results

* `passItems` — the kernel goes from item to item.
* `understood_iff` — **the directory is understood** exactly if no name has more than 23 bytes.
* `not_understood` — a name of 25 bytes is not found.
-/

namespace UnixV6pp

/-- Where a unit was read as a head. -/
def FileManager.UnitRead.headAt : UnitRead → Option ℤ
  | .head offset _ _ _ => some offset
  | .addition _ _ => none

namespace Build

open Words FileSystem Inode DirectoryEntry FileManager

/-! ### What the kernel should find -/

/-- The path goes on with the component, of which `curchar` is the first character, and has an
end. -/
def Comes (u : User) (curchar : UInt8) (bs : List UInt8) : Prop :=
  ∃ c rest, curchar :: u.uDirp = bs ++ c :: rest ∧ (c = slash ∨ c = 0) ∧ 0 ∈ c :: rest

/-- The units read are the heads of the first `n` items. -/
def RecordByRecord (reads : List UnitRead) (n : ℕ) : Prop :=
  reads.map UnitRead.headAt = (List.range n).map fun k : ℕ => some (32 * (k : ℤ))

/-- **The directory is understood**: `NameI` reads it item by item, finds the number of the inode
for each name, whoever looks for it, and fails for every other name. -/
structure Understood (items : List (List UInt8 × ℤ)) (fs : FsState) (ino : Inode) : Prop where
  finds : ∀ k (hk : k < items.length) (u : User) (curchar : UInt8), Comes u curchar items[k].1 →
    ∃ fuel last s, component fuel .OPEN fs ino u [] curchar = .ok (.next items[k].2, last, s) ∧
      RecordByRecord s.reads (k + 1)
  fails : ∀ bs, bs ≠ [] → (∀ b ∈ bs, b ≠ 0 ∧ b ≠ slash) → bs ∉ items.map Prod.fst →
    ∀ (u : User) (curchar : UInt8), Comes u curchar bs →
      ∃ fuel last s, component fuel .OPEN fs ino u [] curchar = .ok (.failed, last, s) ∧
        s.fs.uError = .ENOENT ∧ RecordByRecord s.reads items.length

/-! ### An item as a record -/

/-- The number of further units for the kernel. -/
def unitsRead (name : List UInt8) : ℤ :=
  int32 (unsigned (fileName name 24) (fileName name 25) (fileName name 26) (fileName name 27))

section Entry

variable {name : List UInt8} {items : List (List UInt8 × ℤ)} {k j : ℕ}

theorem unitsRead_eq_zero (h : name.length ≤ 24) : unitsRead name = 0 := by
  unfold unitsRead
  rw [fileName_eq_zero h, fileName_eq_zero (by omega), fileName_eq_zero (by omega),
    fileName_eq_zero (by omega)]
  decide

/-- A longer name names units, or so many that no name is as long. -/
theorem unitsRead_cases (hname : Accepted name) (h : 24 < name.length) :
    0 < unitsRead name ∨ unitsRead name < 0 ∧ 152 < nameLimit (unitsRead name) := by
  have hfirst : (fileName name 24).toNat ≠ 0 := fun h0 =>
    fileName_ne hname h (UInt8.toNat_inj.mp h0)
  have h24 := (fileName name 24).toNat_lt
  have h25 := (fileName name 25).toNat_lt
  have h26 := (fileName name 26).toNat_lt
  have h27 := (fileName name 27).toNat_lt
  by_cases hlong : name.length = 28
  · have hthird : (fileName name 26).toNat ≠ 0 := fun h0 =>
      fileName_ne hname (by omega) (UInt8.toNat_inj.mp h0)
    unfold unitsRead nameLimit
    rw [int32_eq]
    unfold unsigned
    omega
  · have hlast : (fileName name 27).toNat = 0 := by
      have hle := hname.length_le
      rw [fileName_eq_zero (by omega)]
      rfl
    refine .inl ?_
    unfold unitsRead
    rw [int32_eq]
    unfold unsigned
    omega

/-- A word of an item. -/
theorem getInt_item (hk : k < items.length) {i : ℕ} (hi : i < 8) :
    getInt (fun o => dirBytes items (32 * k + o)) i = getInt (itemByte items[k]) i := by
  simp only [getInt]
  rw [dirBytes_item hk (by omega), dirBytes_item hk (by omega), dirBytes_item hk (by omega),
    dirBytes_item hk (by omega)]

theorem entryAt_mIno (hk : k < items.length) (hpos : 0 < items[k].2) (hlt : items[k].2 < 2 ^ 31) :
    (entryAt (dirBytes items) (32 * k)).mIno = items[k].2 := by
  refine (getInt_item hk (by omega)).trans ?_
  rw [← int32_of_bounds (by omega) hlt]
  exact int32_unsigned_byteOf items[k].2

theorem entryAt_mAdditionEsize (hk : k < items.length) :
    (entryAt (dirBytes items) (32 * k)).mAdditionEsize = unitsRead items[k].1 :=
  getInt_item hk (by omega)

/-- The first bytes of the name. -/
theorem nameAt_item (hk : k < items.length) (hj : j < 24) :
    nameAt (dirBytes items) (32 * k) j = fileName items[k].1 j := by
  rw [nameAt, if_pos hj, Nat.add_assoc, dirBytes_item hk (by omega), itemByte, if_neg (by omega),
    Nat.add_sub_cancel_left]

/-- A name that leaves the count of units at zero is compared as it is. -/
theorem begins_item (hk : k < items.length) (hshort : items[k].1.length ≤ 24) {dbuf : ℕ → UInt8} :
    Begins dbuf (dirBytes items) (32 * k) ↔ ∀ j < 24, dbuf j = fileName items[k].1 j := by
  have hlength : nameLength (dirBytes items) (32 * k) = 24 := by
    unfold nameLength unitsAt
    rw [entryAt_mAdditionEsize hk, unitsRead_eq_zero hshort]
    rfl
  unfold Begins
  rw [hlength]
  exact forall₂_congr fun j hj => by rw [nameAt_item hk hj]

variable {bs : List UInt8}

/-- **A name with an end in the head** is taken for itself alone. -/
theorem begins_item_iff (hk : k < items.length) (hname : Accepted items[k].1)
    (hshort : items[k].1.length ≤ 23) (hbs : ∀ b ∈ bs, b ≠ 0 ∧ b ≠ slash) :
    Begins (stored bs) (dirBytes items) (32 * k) ↔ bs = items[k].1 := by
  rw [begins_item hk (by omega)]
  constructor
  · intro hall
    have hbyte : ∀ j < 24, bs.getD j 0 = fileName items[k].1 j := fun j hj => by
      rw [← hall j hj, stored_of_lt (by omega)]
    have hle : bs.length ≤ items[k].1.length := by
      by_contra hlong
      have hend := hbyte items[k].1.length (by omega)
      rw [fileName_eq_zero (Nat.le_refl _), List.getD_eq_getElem _ _ (by omega)] at hend
      exact (hbs _ (List.getElem_mem _)).1 hend
    have hge : items[k].1.length ≤ bs.length := by
      by_contra hlong
      have hend := hbyte bs.length (by omega)
      rw [List.getD_eq_default _ _ (Nat.le_refl _)] at hend
      exact fileName_ne hname (by omega) hend.symm
    refine List.ext_getElem (by omega) fun j hj hj' => ?_
    have hchar := hbyte j (by omega)
    rwa [fileName, List.getD_eq_getElem _ _ hj, List.getD_eq_getElem _ _ hj'] at hchar
  · rintro rfl j hj
    rw [stored_of_lt (by omega)]
    rfl

end Entry

/-! ### The search -/

theorem RecordByRecord.length_eq {reads : List UnitRead} {n : ℕ} (h : RecordByRecord reads n) :
    reads.length = n := by
  have hlen := congrArg List.length h
  rwa [List.length_map, List.length_map, List.length_range] at hlen

/-- One more head. -/
theorem RecordByRecord.head {reads : List UnitRead} {n : ℕ} (h : RecordByRecord reads n)
    {offset : ℤ} (hoffset : offset = 32 * (n : ℤ)) (blkno mIno mAdditionEsize : ℤ) :
    RecordByRecord (reads ++ [.head offset blkno mIno mAdditionEsize]) (n + 1) := by
  subst hoffset
  unfold RecordByRecord
  rw [List.map_append, h, List.range_succ, List.map_append]
  rfl

section Search

variable {dir : AnyDirectory} {items : List (List UInt8 × ℤ)} {s s' : Search} {t : Spot} {k : ℕ}

/-- **The head of an item** is read. -/
theorem headItem (h : Shows dir s t) (hf : dir.f = dirFile items)
    (hin : InStep dir.f (32 * k) 0 t) (hk : k < items.length)
    (hnumber : 0 < items[k].2 ∧ items[k].2 < 2 ^ 31) (hreads : RecordByRecord s.reads k) :
    ∃ s₁, readHead s = .ok s₁ ∧ Shows dir s₁ (t.readHead dir.f.bytes) ∧
      s₁.u.uDent = entryAt (dirBytes items) (32 * k) ∧ s₁.u.uDent.mIno ≠ 0 ∧
      s₁.u.uDent.mAdditionEsize = unitsRead items[k].1 ∧ RecordByRecord s₁.reads (k + 1) := by
  have hbytes : dir.f.bytes = dirBytes items := by rw [hf]; rfl
  have hlt : 32 * k < dir.f.size := by
    rw [hf]
    change 32 * k < 32 * items.length
    omega
  have hinside := hin.inside hlt
  obtain ⟨s₁, mIno, esize, hhead, hs₁, -, hshows⟩ := h.readHead hinside.nonneg hinside.lt
  have h₁ := hshows hinside.place_lt
  have hdent : s₁.u.uDent = entryAt (dirBytes items) (32 * k) := by
    rw [h₁.u_eq, hin.uDent_eq, hbytes]
  refine ⟨s₁, hhead, h₁, hdent, ?_, ?_, ?_⟩
  · rw [hdent, entryAt_mIno hk hnumber.1 hnumber.2]
    omega
  · rw [hdent, entryAt_mAdditionEsize hk]
  · rw [hs₁]
    exact hreads.head (by rw [hin.mOffset_eq]; omega) _ _ _

/-- **A turn at an item** whose name leaves the count of units at zero. -/
theorem turnItem (h : Shows dir s t) (hf : dir.f = dirFile items)
    (hin : InStep dir.f (32 * k) 0 t) (hk : k < items.length)
    (hnumber : 0 < items[k].2 ∧ items[k].2 < 2 ^ 31) (hshort : items[k].1.length ≤ 24)
    (hreads : RecordByRecord s.reads k) :
    ∃ s', scanStep s = .ok (decide (Begins t.u.uDbuf (dirBytes items) (32 * k)), s') ∧
      Shows dir s' (t.readHead dir.f.bytes) ∧ s'.u.uDent = entryAt (dirBytes items) (32 * k) ∧
      RecordByRecord s'.reads (k + 1) := by
  obtain ⟨s₁, hhead, h₁, hdent, hlive, hunits, hreads₁⟩ := headItem h hf hin hk hnumber hreads
  have hzero : s₁.u.uDent.mAdditionEsize = 0 := hunits.trans (unitsRead_eq_zero hshort)
  have hunits : unitsAt (dirBytes items) (32 * k) = 0 := by
    unfold unitsAt
    rw [← hdent, hzero]
    rfl
  have hdbuf : s₁.u.uDbuf = t.u.uDbuf := by rw [h₁.u_eq]; rfl
  have hmatched : matched s₁.u = decide (Begins t.u.uDbuf (dirBytes items) (32 * k)) := by
    rw [Bool.eq_iff_iff, decide_eq_true_iff, ← hdbuf]
    refine matched_iff ?_ hdent fun j hj => ?_
    · unfold SizeOk
      rw [← hdent, hzero]
      omega
    · rw [hunits] at hj
      exact absurd hj (Nat.not_lt_zero _)
  refine ⟨s₁, ?_, h₁, hdent, hreads₁⟩
  unfold scanStep
  rw [hhead, Except.ok_bind]
  refine (if_neg hlive).trans ?_
  rw [hzero]
  change Except.ok (matched s₁.u, s₁) = _
  rw [hmatched]

/-- **The kernel goes from item to item** in front of the first that it takes. -/
theorem passItems (h : Shows dir s t) (hf : dir.f = dirFile items) (hin : InStep dir.f 0 0 t)
    (hreads : RecordByRecord s.reads 0) (hk : k ≤ items.length)
    (hnumber : ∀ item ∈ items, 0 < item.2 ∧ item.2 < 2 ^ 31)
    (hother : ∀ j (hj : j < k), items[j].1.length ≤ 24 ∧
      ¬ Begins t.u.uDbuf (dirBytes items) (32 * j)) :
    ∃ s' t', (∀ fuel, scan (fuel + k) s = scan fuel s') ∧ Shows dir s' t' ∧
      InStep dir.f (32 * k) 0 t' ∧ t'.u.uDbuf = t.u.uDbuf ∧ RecordByRecord s'.reads k := by
  induction k with
  | zero => exact ⟨s, t, fun _ => rfl, h, hin, rfl, hreads⟩
  | succ k ih =>
    obtain ⟨s₁, t₁, hscan, h₁, hin₁, hdbuf, hreads₁⟩ :=
      ih (by omega) fun j hj => hother j (by omega)
    obtain ⟨hshort, hnot⟩ := hother k (by omega)
    obtain ⟨s₂, hstep, h₂, -, hreads₂⟩ := turnItem h₁ hf hin₁ (by omega)
      (hnumber _ (List.getElem_mem _)) hshort hreads₁
    rw [hdbuf, decide_eq_false hnot] at hstep
    have hlt : 32 * k < dir.f.size := by
      rw [hf]
      change 32 * k < 32 * items.length
      omega
    have hcount : s₁.u.mCount ≠ 0 := by
      rw [h₁.u_eq]
      exact hin₁.mCount_ne_zero hlt
    refine ⟨s₂, _, fun fuel => ?_, h₂,
      hin₁.readHead dir.located.size_le hlt (Dvd.intro k rfl), hdbuf, hreads₂⟩
    have hfuel : fuel + (k + 1) = fuel + 1 + k := by omega
    rw [hfuel, hscan, Directory.scan_succ hcount hstep]

/-- A turn reads at least its head. -/
theorem scanStep_reads {found : Bool} (h : scanStep s = .ok (found, s')) :
    s.reads.length < s'.reads.length := by
  unfold scanStep at h
  obtain ⟨s₁, hhead, h⟩ := Except.bind_eq_ok.mp h
  obtain ⟨-, blkno, mIno, esize, hs₁⟩ := readHead_reads hhead
  have hone : s₁.reads.length = s.reads.length + 1 := by
    rw [hs₁, List.length_append]
    rfl
  split at h
  · obtain ⟨s₂, hnote, h⟩ := Except.bind_eq_ok.mp h
    cases h
    change _ < s₂.reads.length
    rw [(noteFree_frame hnote).2]
    omega
  · obtain ⟨s₂, hadd, h⟩ := Except.bind_eq_ok.mp h
    cases h
    obtain ⟨log, hlog⟩ := readAdditions_append hadd
    rw [hlog, List.length_append]
    omega

/-- A search that finds a name takes a turn. -/
theorem scan_found {fuel : ℕ} (h : scan fuel s = .ok (true, s')) :
    ∃ found s₁, scanStep s = .ok (found, s₁) ∧
      (found = true ∧ s₁ = s' ∨ ∃ fuel', scan fuel' s₁ = .ok (true, s')) := by
  cases fuel with
  | zero =>
    rw [scan] at h
    split at h <;> cases h
  | succ fuel =>
    rw [scan] at h
    split at h
    · cases h
    · obtain ⟨⟨found, s₁⟩, hstep, h⟩ := Except.bind_eq_ok.mp h
      refine ⟨found, s₁, hstep, ?_⟩
      cases found with
      | true =>
        cases h
        exact .inl ⟨rfl, rfl⟩
      | false => exact .inr ⟨fuel, h⟩

theorem scan_found_reads {fuel : ℕ} (h : scan fuel s = .ok (true, s')) :
    s.reads.length < s'.reads.length := by
  obtain ⟨found, s₁, hstep, hrest⟩ := scan_found h
  have hlt := scanStep_reads hstep
  rcases hrest with ⟨-, rfl⟩ | ⟨fuel', hrest⟩
  · exact hlt
  · obtain ⟨log, hlog⟩ := scan_append hrest
    rw [hlog, List.length_append]
    omega

/-- The comparison goes no further than `u_dbuf`. -/
theorem compareNames_le (u : User) : compareNames u ≤ 152 := by
  unfold compareNames
  cases hfind : (List.range (DIRSIZ + ADD_DIRSIZ)).find? (differs u) with
  | none => exact Nat.le_refl _
  | some i => exact Nat.le_of_lt (List.mem_range.mp (List.mem_of_find?_eq_some hfind))

/-- **A turn at an item** with a longer name: a further unit is read, or the name is not taken. -/
theorem turnLong (h : Shows dir s t) (hf : dir.f = dirFile items)
    (hin : InStep dir.f (32 * k) 0 t) (hk : k < items.length)
    (hnumber : 0 < items[k].2 ∧ items[k].2 < 2 ^ 31) (hname : Accepted items[k].1)
    (hlong : 24 < items[k].1.length) (hreads : RecordByRecord s.reads k) {found : Bool}
    (hstep : scanStep s = .ok (found, s')) : k + 1 < s'.reads.length ∨ found = false := by
  obtain ⟨s₁, hhead, -, -, hlive, hunits, hreads₁⟩ := headItem h hf hin hk hnumber hreads
  have hone := hreads₁.length_eq
  unfold scanStep at hstep
  rw [hhead, Except.ok_bind] at hstep
  dsimp only at hstep
  rw [if_neg hlive] at hstep
  obtain ⟨s₂, hadd, hstep⟩ := Except.bind_eq_ok.mp hstep
  obtain ⟨rfl, rfl⟩ := Prod.mk.inj (Except.ok.inj hstep)
  rw [hunits] at hadd
  rcases unitsRead_cases hname hlong with hpos | ⟨hneg, hfar⟩
  · obtain ⟨n, hn⟩ : ∃ n, (unitsRead items[k].1).toNat = n + 1 :=
      Nat.exists_eq_succ_of_ne_zero (show (unitsRead items[k].1).toNat ≠ 0 by omega)
    rw [hn] at hadd
    obtain ⟨-, -, s₃, blkno, hrest, hs₃⟩ := readAdditions_reads hadd
    obtain ⟨log, hlog⟩ := readAdditions_append hrest
    refine .inl ?_
    rw [hlog, hs₃, List.length_append, List.length_append, List.length_singleton]
    omega
  · -- no name is as long
    have hzero : (unitsRead items[k].1).toNat = 0 := by omega
    rw [hzero] at hadd
    cases hadd
    have hle := compareNames_le s₁.u
    refine .inr ?_
    unfold matched
    rw [hunits]
    exact decide_eq_false (by omega)

end Search

/-! ### A component -/

section Component

variable {ι : Type} {dir : ι} {items : List (List UInt8 × ℤ)} {s : Builder ι} {L : List ℤ}
  {bs : List UInt8} {u : User} {curchar : UInt8} {k : ℕ}

/-- The slashes behind a component are passed over. -/
theorem exists_skipSlashes {c : UInt8} {rest : List UInt8} (h : 0 ∈ c :: rest) :
    ∃ last dirp, skipSlashes c rest = .ok (last, dirp) := by
  obtain ⟨cs, tail, hsplit⟩ := List.append_of_mem h
  obtain ⟨last, dirp, -, hskip, -⟩ := skipSlashes_chars cs hsplit
  exact ⟨last, dirp, hskip⟩

/-- Everybody may search a directory of the builder. -/
theorem access_dirFile {s : Search} (hmode : s.ino.iMode = DirFile.mode) :
    access s IEXEC = none := by
  have hnowrite : IEXEC ≠ IWRITE := by decide
  have hany : DirFile.mode &&& (IEXEC ||| IEXEC >>> 3 ||| IEXEC >>> 6) ≠ 0 := by decide
  have howner : DirFile.mode &&& IEXEC ≠ 0 := by decide
  have hgroup : DirFile.mode &&& IEXEC >>> 3 ≠ 0 := by decide
  have hother : DirFile.mode &&& IEXEC >>> 3 >>> 3 ≠ 0 := by decide
  unfold access
  rw [if_neg fun h => hnowrite h.1, hmode]
  by_cases hroot : s.u.uUid = 0
  · rw [if_pos hroot, if_neg fun h => hany h.2]
  · rw [if_neg hroot]
    refine if_pos ?_
    split_ifs
    · exact hother
    · exact hgroup
    · exact howner

/-- The search for a component begins. -/
theorem exists_beginSearch (fs : FsState) (ino : Inode) (hmode : ino.iMode = DirFile.mode)
    (hbs : ∀ b ∈ bs, b ≠ 0 ∧ b ≠ slash) (hcomes : Comes u curchar bs) :
    ∃ last dirp, beginSearch fs ino u [] curchar =
      .ok (none, last, startSearch fs ino u (stored bs) dirp) := by
  obtain ⟨c, rest, hchars, hc, hend⟩ := hcomes
  obtain ⟨dbuf, pChar, hcopy, hstored⟩ := copyComponent_stored u.uDbuf hbs hc hchars
  obtain ⟨last, dirp, hskip⟩ := exists_skipSlashes hend
  have hdir : ¬ ino.iMode &&& IFMT ≠ 0x4000 := by
    rw [hmode]
    decide
  have haccess : ¬ (access { startSearch fs ino u u.uDbuf u.uDirp with busy := [] }
      IEXEC).isSome := by
    rw [access_dirFile hmode]
    decide
  refine ⟨last, dirp, ?_⟩
  unfold beginSearch
  dsimp only
  rw [if_neg hdir, if_neg haccess, hcopy, Except.ok_bind]
  dsimp only
  rw [hskip, Except.ok_bind]
  dsimp only
  rw [hstored]
  rfl

/-- The directory as the kernel has it. -/
def HoldsItems.any (h : HoldsItems dir items s L) (number : ℤ) : AnyDirectory :=
  ⟨s.disk.fs, (s.inodes dir).load number, dirFile items, h.located number, Dvd.intro _ rfl⟩

/-- What a turn of `NameI` makes of the search. -/
def finish (last : UInt8) (r : Bool × Search) : Outcome × UInt8 × Search :=
  let s := FileManager.brelse r.2 r.2.pBuf
  if r.1 then (.next s.u.uDent.mIno, last, s)
  else (.failed, last, { s with fs := { s.fs with uError := .ENOENT } })

theorem component_finish {fs : FsState} {ino : Inode} {last : UInt8} {s₀ : Search} {fuel : ℕ}
    (hbegin : beginSearch fs ino u [] curchar = .ok (none, last, s₀)) :
    component fuel .OPEN fs ino u [] curchar = (scan fuel s₀).map (finish last) := by
  rw [Directory.component_open hbegin]
  cases scan fuel s₀ with
  | error e => rfl
  | ok r => rfl

/-- A turn that ends has ended the search. -/
theorem scan_of_finish {last last' : UInt8} {s₀ s' : Search} {fuel : ℕ} {outcome : Outcome}
    (h : (scan fuel s₀).map (finish last) = .ok (outcome, last', s')) :
    ∃ found s₂, scan fuel s₀ = .ok (found, s₂) ∧
      finish last (found, s₂) = (outcome, last', s') := by
  cases hscan : scan fuel s₀ with
  | error e =>
    rw [hscan] at h
    cases h
  | ok r =>
    rw [hscan] at h
    exact ⟨r.1, r.2, rfl, Except.ok.inj h⟩

/-- **A component in front of which all items are passed.** -/
theorem HoldsItems.pass (h : HoldsItems dir items s L) (number : ℤ)
    (hbs : ∀ b ∈ bs, b ≠ 0 ∧ b ≠ slash) (hcomes : Comes u curchar bs) (hk : k ≤ items.length)
    (hother : ∀ j (hj : j < k), items[j].1.length ≤ 24 ∧
      ¬ Begins (stored bs) (dirBytes items) (32 * j)) :
    ∃ last s₀ s₁ t₁, (∀ fuel, component fuel .OPEN s.disk.fs ((s.inodes dir).load number) u []
        curchar = (scan fuel s₀).map (finish last)) ∧ (∀ fuel, scan (fuel + k) s₀ = scan fuel s₁) ∧
      Shows (h.any number) s₁ t₁ ∧ InStep (dirFile items) (32 * k) 0 t₁ ∧
      t₁.u.uDbuf = stored bs ∧ RecordByRecord s₁.reads k := by
  obtain ⟨last, dirp, hbegin⟩ :=
    exists_beginSearch s.disk.fs ((s.inodes dir).load number) h.mode_eq hbs hcomes
  obtain ⟨s₁, t₁, hscan, h₁, hin₁, hdbuf, hreads⟩ :=
    passItems (shows_start (h.any number) u (stored bs) dirp) rfl
      (inStep_start (h.any number).dvd_size u (stored bs) dirp) rfl hk h.number hother
  exact ⟨last, _, s₁, t₁, fun fuel => component_finish hbegin, hscan, h₁, hin₁, hdbuf, hreads⟩

/-- **Short names** are understood. -/
theorem HoldsItems.understood (h : HoldsItems dir items s L) (number : ℤ)
    (hall : ∀ item ∈ items, item.1.length ≤ 23) :
    Understood items s.disk.fs ((s.inodes dir).load number) := by
  constructor
  · intro k hk u curchar hcomes
    have hbs := (h.accepted _ (List.getElem_mem hk)).chars
    have hshort := hall _ (List.getElem_mem hk)
    obtain ⟨last, s₀, s₁, t₁, hcomponent, hscan, h₁, hin₁, hdbuf, hreads⟩ :=
      h.pass number hbs hcomes (Nat.le_of_lt hk) fun j hj => by
        have hj' : j < items.length := by omega
        have hshort' := hall _ (List.getElem_mem hj')
        refine ⟨by omega, fun hbegins => ?_⟩
        have hname' := h.accepted _ (List.getElem_mem hj')
        have heq := (begins_item_iff hj' hname' hshort' hbs).mp hbegins
        exact List.pairwise_iff_getElem.mp (List.pairwise_map.mp h.nodup) j k hj' hk hj heq.symm
    obtain ⟨s₂, hstep, -, hdent, hreads₂⟩ := turnItem h₁ rfl hin₁ hk
      (h.number _ (List.getElem_mem hk)) (by omega) hreads
    rw [hdbuf, decide_eq_true ((begins_item_iff hk (h.accepted _ (List.getElem_mem hk)) hshort
      hbs).mpr rfl)] at hstep
    have hcount : s₁.u.mCount ≠ 0 := by
      rw [h₁.u_eq]
      refine hin₁.mCount_ne_zero ?_
      change 32 * k < 32 * items.length
      omega
    have hnumber := h.number _ (List.getElem_mem hk)
    refine ⟨1 + k, last, FileManager.brelse s₂ s₂.pBuf, ?_, hreads₂⟩
    rw [hcomponent, hscan, scan_turn hcount hstep]
    change Except.ok (Outcome.next s₂.u.uDent.mIno, last, _) = _
    rw [hdent, entryAt_mIno hk hnumber.1 hnumber.2]
  · intro bs _ hbs hnew u curchar hcomes
    obtain ⟨last, s₀, s₁, t₁, hcomponent, hscan, h₁, hin₁, -, hreads⟩ :=
      h.pass number hbs hcomes (Nat.le_refl _) fun j hj => by
        have hshort := hall _ (List.getElem_mem hj)
        refine ⟨by omega, fun hbegins => hnew ?_⟩
        rw [(begins_item_iff hj (h.accepted _ (List.getElem_mem hj)) hshort hbs).mp hbegins]
        exact List.mem_map_of_mem (List.getElem_mem hj)
    have hcount : s₁.u.mCount = 0 := by
      have hcount : 32 * t₁.u.mCount = (dirFile items).size - (32 * items.length : ℕ) +
          32 * (0 : ℕ) := hin₁.mCount_eq
      have hsize : (dirFile items).size = 32 * items.length := rfl
      rw [h₁.u_eq]
      omega
    refine ⟨0 + items.length, last,
      (FileManager.fail (FileManager.brelse s₁ s₁.pBuf) .ENOENT).2, ?_, rfl, hreads⟩
    rw [hcomponent, hscan, Directory.scan_end 0 hcount]
    rfl

/-- **A name of more than 24 bytes** is no record of its own. -/
theorem HoldsItems.not_finds (h : HoldsItems dir items s L) (number : ℤ) (hk : k < items.length)
    (hshort : ∀ j (hj : j < k), items[j].1.length ≤ 23) (hlong : 24 < items[k].1.length)
    (hcomes : Comes u curchar items[k].1) : ¬ ∃ fuel last s',
      component fuel .OPEN s.disk.fs ((s.inodes dir).load number) u [] curchar =
        .ok (.next items[k].2, last, s') ∧ RecordByRecord s'.reads (k + 1) := by
  rintro ⟨fuel, last', s', hrun, hright⟩
  have hname := h.accepted _ (List.getElem_mem hk)
  obtain ⟨last, s₀, s₁, t₁, hcomponent, hscan, h₁, hin₁, -, hreads⟩ :=
    h.pass number hname.chars hcomes (Nat.le_of_lt hk) fun j hj => by
      have hj' : j < items.length := by omega
      refine ⟨by have := hshort j hj; omega, fun hbegins => ?_⟩
      have heq := (begins_item_iff hj' (h.accepted _ (List.getElem_mem hj')) (hshort j hj)
        hname.chars).mp hbegins
      have := hshort j hj
      rw [← heq] at this
      omega
  rw [hcomponent] at hrun
  obtain ⟨found, s₂, hscan₀, hfinish⟩ := scan_of_finish hrun
  cases found with
  | false => cases hfinish
  | true =>
    -- the search that is right has read no more than the head of the name
    have hlast : FileManager.brelse s₂ s₂.pBuf = s' := congrArg (fun r => r.2.2) hfinish
    rw [← hlast] at hright
    have hone : s₂.reads.length = k + 1 := hright.length_eq
    have hfound : scan fuel s₁ = .ok (true, s₂) := by
      rw [← hscan, Directory.scan_mono hscan₀]
    obtain ⟨found, s₃, hstep, hrest⟩ := scan_found hfound
    have hnumber := h.number _ (List.getElem_mem hk)
    have hstop := turnLong h₁ rfl hin₁ hk hnumber hname hlong hreads hstep
    have hmore := scanStep_reads hstep
    have hk₁ := hreads.length_eq
    rcases hrest with ⟨rfl, rfl⟩ | ⟨fuel', hrest⟩
    · rcases hstop with hstop | hstop
      · omega
      · cases hstop
    · have := scan_found_reads hrest
      omega

/-- **A name of 24 bytes** is taken for a longer one. -/
theorem HoldsItems.not_fails (h : HoldsItems dir items s L) (number : ℤ) (hk : k < items.length)
    (hshort : ∀ j (hj : j < k), items[j].1.length ≤ 23) (hfull : items[k].1.length = 24)
    (hbs : ∀ b ∈ bs, b ≠ 0 ∧ b ≠ slash) (hbegins : ∀ j < 24, stored bs j = fileName items[k].1 j)
    (hcomes : Comes u curchar bs) : ¬ ∃ fuel last s',
      component fuel .OPEN s.disk.fs ((s.inodes dir).load number) u [] curchar =
        .ok (.failed, last, s') := by
  rintro ⟨fuel, last', s', hrun⟩
  obtain ⟨last, s₀, s₁, t₁, hcomponent, hscan, h₁, hin₁, hdbuf, hreads⟩ :=
    h.pass number hbs hcomes (Nat.le_of_lt hk) fun j hj => by
      have hj' : j < items.length := by omega
      have hshort' := hshort j hj
      refine ⟨by omega, fun hother => ?_⟩
      -- a shorter name has its end where this one goes on
      have hbyte := (begins_item hj' (by omega)).mp hother items[j].1.length (by omega)
      rw [hbegins _ (by omega), fileName_eq_zero (Nat.le_refl _)] at hbyte
      exact fileName_ne (h.accepted _ (List.getElem_mem hk)) (by omega) hbyte
  obtain ⟨s₂, hstep, -, -, -⟩ := turnItem h₁ rfl hin₁ hk
    (h.number _ (List.getElem_mem hk)) (by omega) hreads
  rw [hdbuf, decide_eq_true ((begins_item hk (by omega)).mpr hbegins)] at hstep
  have hcount : s₁.u.mCount ≠ 0 := by
    rw [h₁.u_eq]
    refine hin₁.mCount_ne_zero ?_
    change 32 * k < 32 * items.length
    omega
  have hfound : scan (1 + k) s₀ = .ok (true, s₂) := by
    rw [hscan, scan_turn hcount hstep]
    rfl
  rw [hcomponent] at hrun
  obtain ⟨found, s₃, hscan₀, hfinish⟩ := scan_of_finish hrun
  obtain ⟨rfl, -⟩ := Directory.scan_unique hfound hscan₀
  cases hfinish

/-- Every component may come next in a path. -/
theorem exists_comes (hne : bs ≠ []) : ∃ u curchar, Comes u curchar bs := by
  cases bs with
  | nil => exact absurd rfl hne
  | cons b bs => exact ⟨rootUser (bs ++ [0]), b, 0, [], rfl, .inr rfl, List.mem_singleton.mpr rfl⟩

/-- **Only short names** are understood: the first one of more than 23 bytes is not. -/
theorem HoldsItems.short (h : HoldsItems dir items s L) (number : ℤ)
    (hunderstood : Understood items s.disk.fs ((s.inodes dir).load number))
    (hk : k < items.length) : items[k].1.length ≤ 23 := by
  induction k using Nat.strong_induction_on with
  | _ k ih =>
    by_contra hlong
    have hshort : ∀ j (hj : j < k), items[j].1.length ≤ 23 := fun j hj => ih j hj (by omega)
    have hname := h.accepted _ (List.getElem_mem hk)
    by_cases hfull : items[k].1.length = 24
    · set bs := items[k].1 ++ List.replicate 5 97 with hbs
      have hlen : bs.length = 29 := by rw [hbs, List.length_append, hfull, List.length_replicate]
      have hchars : ∀ b ∈ bs, b ≠ 0 ∧ b ≠ slash := by
        intro b hb
        rcases List.mem_append.mp hb with hb | hb
        · exact hname.chars b hb
        · rw [List.eq_of_mem_replicate hb]
          decide
      have hnew : bs ∉ items.map Prod.fst := by
        intro hmem
        obtain ⟨item, hitem, heq⟩ := List.mem_map.mp hmem
        have := (h.accepted item hitem).length_le
        rw [heq] at this
        omega
      have hne : bs ≠ [] := fun hnil => by simp [hnil] at hlen
      have hbegins : ∀ j < 24, stored bs j = fileName items[k].1 j := fun j hj => by
        rw [stored_of_lt (by omega), hbs, List.getD_append _ _ _ _ (by omega)]
        rfl
      obtain ⟨u, curchar, hcomes⟩ := exists_comes hne
      obtain ⟨fuel, last, s', hrun, -⟩ := hunderstood.fails bs hne hchars hnew u curchar hcomes
      exact h.not_fails number hk hshort hfull hchars hbegins hcomes ⟨fuel, last, s', hrun⟩
    · obtain ⟨u, curchar, hcomes⟩ := exists_comes hname.ne_nil
      exact h.not_finds number hk hshort (by omega) hcomes (hunderstood.finds k hk u curchar hcomes)

end Component

/-! ### All runs -/

variable {ι : Type} [DecidableEq ι] {dir : ι} {items : List (List UInt8 × ℤ)} {s : Builder ι}

/-- A directory without items on an image with one free block. -/
def newDirectory : Builder Unit where
  disk := oneBlockImage
  inodeBlock := ((DirFile.createRoot (.initInodeManager 822)).getD (.initInodeManager 822))
  inodes _ := { freeInode with iMode := DirFile.mode }

/-- One name is stored in it. -/
theorem exists_built {name : List UInt8} (hname : Accepted name) :
    ∃ s : Builder Unit, Built () [(name, 6477)] s := by
  have hready : newDirectory.Ready :=
    ⟨⟨[1024], freeList_oneBlockImage⟩, by decide, fun _ _ => rfl, 822, by decide, by decide, rfl⟩
  have hstart : Built () [] newDirectory := .start hready rfl rfl
  obtain ⟨L, hitems⟩ := hstart.holds
  have hroom : newDirectory.Room () 0 := by
    intro L hfree
    have hpos : 0 < L.length := by
      obtain ⟨n, hn, -, hc⟩ := hfree.exists_chain (by decide)
      have hn1 : n = 1 := by
        have : (2 : ℤ) = (n + 1 : ℕ) := hn
        omega
      subst hn1
      cases hc
      exact Nat.succ_pos _
    exact (gap_le_one _ _ _).trans hpos
  have hmode : CommonFile.mode ≠ 0 := by decide
  obtain ⟨s, L', hcreate, -⟩ := hitems.exists_createFile 0 hname hmode (by simp)
    (show newDirectory.inodeBlock.fetchFreeInode = some (6477, _) from rfl) (by decide) hroom
  exact ⟨s, hstart.item hname hmode hcreate hroom⟩

end Build
end UnixV6pp
