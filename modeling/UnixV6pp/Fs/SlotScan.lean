import UnixV6pp.Fs.Slots

/-!
# Searching a directory of short names

In both formats a turn of the inner loop of `NameI` looks at one slot, and ends the loop if
the slot has the name looked for.  They differ in the free slots that are kept in mind: the
old version keeps the first one; the new version measures the characters behind the path,
and may go to sleep over it.

## Main definitions

* `On` — the search is at a slot.
* `Steps` — what a turn does, in terms of slots.

## Main results

* `steps_old`, `steps_new` — **the turns of the two versions.**
* `Steps.pass`, `Steps.found`, `Steps.missing` — the loop.
-/

namespace UnixV6pp

open Words FileSystem Inode BufferManager DirectoryEntry

namespace FileManager

variable {ι : Type*} [DecidableEq ι]

/-- There is space for the block behind the directory, whatever the flags of its inode. -/
def Roomy (d : Files ι) (i : ι) : Prop :=
  ∀ r iFlag, ∃ b ino' fs', bmap (d.fs.ahead r) { d.inodes i with iFlag := iFlag }
    ((d.inodes i).iSize / 512) = .ok (b, ino', fs') ∧ fs'.uError = .NOERROR

/-- The search of a process with the user structure `u` is at the slot `k`. -/
structure On (dir : Directory ι) (u : User) (s : Search) (k : ℕ) : Prop where
  at_ : dir.At s (32 * k)
  noError : s.fs.uError = .NOERROR
  guard : guardOf s.fs s.ino = guardOf dir.d.fs (dir.d.inodes dir.i)
  /-- Nothing was allocated unless a free slot was found. -/
  plain : s.freeEntryOffset = 0 → (∃ r, s.fs = dir.d.fs.ahead r) ∧ s.ino = dir.d.inodes dir.i
  user : ∃ dent off cnt, s.u = { u with uDent := dent, mOffset := off, mCount := cnt }
  /-- If there was space there still is. -/
  roomy : Roomy dir.d dir.i → Roomy (dir.d.set s.fs dir.i s.ino) dir.i

/-- What a turn of the inner loop does at each slot, for a process with the user structure `u`:
it goes to sleep at the free slots that `waits` names, if it would keep them. -/
structure Steps (dir : Directory ι) (slots : List Slot) (u : User)
    (step : Search → Except Stop (Bool × Search)) (keeps : Prop) [Decidable keeps]
    (waits : ℕ → Prop) (name : Name) : Prop where
  live : ∀ s k e, slots[k]? = some (some e) → On dir u s k →
    ∃ s', step s = .ok (decide (e.1 = name), s') ∧ On dir u s' (k + 1) ∧
      s'.freeEntryOffset = s.freeEntryOffset ∧ s'.u.uDent = ⟨e.2, e.1.pad, 0⟩
  free : ∀ s k, slots[k]? = some none → On dir u s k → (s.freeEntryOffset = 0 → ¬ waits k) →
    ∃ s', step s = .ok (false, s') ∧ On dir u s' (k + 1) ∧
      s'.freeEntryOffset = if s.freeEntryOffset = 0 ∧ keeps then ((32 * k + 32 : ℕ) : ℤ)
        else s.freeEntryOffset

/-! ### Reading a slot -/

section Reading

/-- Another block to read ahead. -/
theorem Roomy.ahead {d : Files ι} {i : ι} (h : Roomy d i) (r : ℤ) :
    Roomy (d.set (d.fs.ahead r) i (d.inodes i)) i := by
  intro r' iFlag
  rw [Files.inodes_set_self]
  exact h r' iFlag

variable {dir : Directory ι} {s : Search} {u : User} {o k : ℕ} {slots : List Slot}

/-- The unit at the slot has been read. -/
theorem On.next (h : On dir u s k) (hk : 32 * k < dir.f.size) (dent : DirectoryEntry) (r : ℤ)
    (reads : List UnitRead) : On dir u { s with
      fs := dir.d.fs.ahead r
      pBuf := some (bread dir.d.fs (dir.blockAt (32 * k)))
      busy := [dir.blockAt (32 * k)]
      u := nextUnit { s.u with uDent := dent }
      reads := reads } (k + 1) := by
  have hino := h.at_.ino_eq hk
  refine ⟨?_, dir.holds.uError_eq, ?_, fun _ => ⟨⟨r, rfl⟩, hino⟩, ?_, fun hroom => ?_⟩
  · exact h.at_.next hk (dvd_mul_right 32 k) r (u := { s.u with uDent := dent }) rfl rfl reads
  · change guardOf (dir.d.fs.ahead r) s.ino = _
    rw [hino]
    rfl
  · obtain ⟨_, _, _, hu⟩ := h.user
    exact ⟨dent, _, _, by rw [hu]; rfl⟩
  · change Roomy (dir.d.set (dir.d.fs.ahead r) dir.i s.ino) dir.i
    rw [hino]
    exact hroom.ahead r

/-- A free slot is kept in mind. -/
theorem On.keep (h : On dir u s k) {offset : ℤ} (hne : offset ≠ 0) :
    On dir u { s with freeEntryOffset := offset } k :=
  ⟨⟨h.at_.fs_eq, h.at_.ino_eq, h.at_.mOffset_eq, h.at_.mCount_eq, h.at_.pBuf_eq, h.at_.busy_eq,
    h.at_.holds⟩, h.noError, h.guard, fun hzero => absurd hzero hne, h.user,
    h.roomy⟩

theorem oldBytes_congr {b b' : ℕ → UInt8} (h : ∀ k < 32, b k = b' k) :
    Oos1.ofBytes b = Oos1.ofBytes b' := by
  unfold Oos1.ofBytes getInt
  rw [h _ (by omega), h _ (by omega), h _ (by omega), h _ (by omega)]
  congr 1
  funext k
  by_cases hk : k < Oos1.DIRSIZ
  · have hlt : 4 + k < 32 := by unfold Oos1.DIRSIZ at hk; omega
    rw [if_pos hk, if_pos hk, h _ hlt]
  · rw [if_neg hk, if_neg hk]

/-- **An old entry** is read to `u_dent`. -/
theorem readEntry_at (h : dir.At s o) (ho : o < dir.f.size) (h32 : 32 ∣ o)
    {dent : DirectoryEntry} (hdent : (Oos1.ofBytes fun k => dir.f.bytes (o + k)) = dent) :
    ∃ r, Oos1.readEntry s = .ok { s with
      fs := dir.d.fs.ahead r
      pBuf := some (bread dir.d.fs (dir.blockAt o))
      busy := [dir.blockAt o]
      u := nextUnit { s.u with uDent := dent }
      reads := s.reads ++ [.head o (dir.blockAt o) dent.mIno dent.mAdditionEsize] } := by
  obtain ⟨r, hreload⟩ := h.reload ho
  have hentry : Oos1.ofBytes (fun k => dir.d.fs.blk (dir.blockAt o) (o % 512 + k)) = dent :=
    (oldBytes_congr fun k hk => Directory.blk_eq ho h32 hk).trans hdent
  refine ⟨r, ?_⟩
  unfold Oos1.readEntry
  rw [hreload, Except.ok_bind, h.unitAt, Except.ok_bind]
  simp only [hentry, h.mOffset_eq]
  rfl

/-- How far a search for the first difference goes. -/
theorem le_find_iff (p : ℕ → Bool) (n : ℕ) :
    n ≤ ((List.range n).find? p).getD n ↔ ∀ k < n, p k = false := by
  cases hfind : (List.range n).find? p with
  | none =>
    refine ⟨fun _ k hk => ?_, fun _ => le_rfl⟩
    simpa using List.find?_eq_none.mp hfind k (List.mem_range.mpr hk)
  | some i =>
    have hlt := List.mem_range.mp (List.mem_of_find?_eq_some hfind)
    have hp := List.find?_some hfind
    constructor
    · intro hle
      exact absurd hle (not_le.mpr hlt)
    · intro hall
      rw [hall i hlt] at hp
      cases hp

/-- The old comparison finds out whether the names are the same. -/
theorem oldMatched_eq {name : Name} {e : Name × ℤ} (hdbuf : u.uDbuf = name.pad)
    (hdent : u.uDent = ⟨e.2, e.1.pad, 0⟩) : Oos1.matched u = decide (e.1 = name) := by
  rw [Bool.eq_iff_iff, decide_eq_true_iff, ← Name.pad_inj]
  unfold Oos1.matched Oos1.compareNames
  rw [decide_eq_true_iff, le_find_iff]
  simp only [Oos1.differs, hdbuf, hdent, bne_eq_false_iff_eq]
  constructor
  · intro h k hk
    exact (h k (by unfold Oos1.DIRSIZ; omega)).symm
  · intro h k hk
    by_cases h24 : k < 24
    · exact (h k h24).symm
    · rw [name.pad_of_le (not_lt.mp h24), e.1.pad_of_le (not_lt.mp h24)]

/-- The new comparison does so too. -/
theorem newMatched_eq {name : Name} {e : Name × ℤ} {b : ℕ → UInt8} (hslot : IsSlot b o (some e))
    (hdbuf : u.uDbuf = name.pad) (hdent : u.uDent = entryAt b o) :
    matched u = decide (e.1 = name) := by
  have hlength : nameLength b o = 24 := by rw [nameLength, hslot.unitsAt]
  rw [Bool.eq_iff_iff, decide_eq_true_iff, ← Name.pad_inj, matched_iff hslot.sizeOk hdent]
  · unfold Begins
    rw [hlength, hdbuf]
    refine forall₂_congr fun k hk => ?_
    rw [nameAt, if_pos hk, (hslot.entry e rfl).2 k hk]
    exact eq_comm
  · intro k hk
    rw [hslot.unitsAt] at hk
    omega

end Reading

/-! ### The old version -/

section Old

variable {dir : Directory ι} {u : User} {slots : List Slot} {name : Name}

theorem Layout.lt_size {f : FlatFile} {k : ℕ} {slot : Slot} (h : Layout f slots)
    (hk : slots[k]? = some slot) : 32 * k < f.size := by
  have hlt := (List.getElem?_eq_some_iff.mp hk).1
  have hsize := h.size_eq
  omega

/-- **A turn of the old version** never sleeps and keeps the first free slot. -/
theorem steps_old (hl : Layout dir.f slots) (hdbuf : u.uDbuf = name.pad) :
    Steps dir slots u Oos1.scanStep True (fun _ => False) name := by
  refine ⟨?_, ?_⟩
  · intro s k e hk hon
    have hslot := hl.slot k _ hk
    have hlt := hl.lt_size hk
    obtain ⟨r, hread⟩ := readEntry_at hon.at_ hlt (dvd_mul_right 32 k) hslot.oldEntry_eq
    have hnext := hon.next hlt ⟨e.2, e.1.pad, 0⟩ r
      (s.reads ++ [.head (32 * k : ℕ) (dir.blockAt (32 * k)) e.2 0])
    obtain ⟨_, _, _, hu⟩ := hnext.user
    refine ⟨_, ?_, hnext, rfl, rfl⟩
    unfold Oos1.scanStep
    rw [hread, Except.ok_bind]
    refine (if_neg (hslot.entry e rfl).1).trans ?_
    rw [oldMatched_eq (e := e) (by rw [hu]; exact hdbuf) rfl]
    rfl
  · intro s k hk hon _
    have hslot := hl.slot k _ hk
    have hlt := hl.lt_size hk
    set dent := Oos1.ofBytes fun j => dir.f.bytes (32 * k + j) with hdent
    obtain ⟨r, hread⟩ := readEntry_at hon.at_ hlt (dvd_mul_right 32 k) hdent.symm
    have hnext := hon.next hlt dent r
      (s.reads ++ [.head (32 * k : ℕ) (dir.blockAt (32 * k)) dent.mIno dent.mAdditionEsize])
    have hoff : (nextUnit { s.u with uDent := dent }).mOffset = ((32 * k + 32 : ℕ) : ℤ) :=
      hnext.at_.mOffset_eq
    have hzero : dent.mIno = 0 := hslot.oldEntry_mIno
    unfold Oos1.scanStep
    rw [hread, Except.ok_bind]
    by_cases hfree : s.freeEntryOffset = 0
    · refine ⟨_, (if_pos hzero).trans ?_, hnext.keep (show ((32 * k + 32 : ℕ) : ℤ) ≠ 0 by omega), ?_⟩
      · rw [← hoff]
        exact congrArg (fun s => Except.ok (false, s)) (if_pos hfree)
      · exact (if_pos ⟨hfree, trivial⟩).symm
    · refine ⟨_, (if_pos hzero).trans ?_, hnext, ?_⟩
      · exact congrArg (fun s => Except.ok (false, s)) (if_neg hfree)
      · exact (if_neg fun h => hfree h.1).symm

end Old

/-! ### The new version -/

/-- The characters behind the path need no further units. -/
def Short (dirp : List UInt8) : Prop :=
  match stringLength dirp with
  | .ok length => length ≤ 24
  | .error _ => False

instance (dirp : List UInt8) : Decidable (Short dirp) := by
  unfold Short
  cases stringLength dirp <;> infer_instance

/-- The new version does not come past the free slot `k` if it would keep it: it measures
characters that have no end, or goes to sleep for the buffer in its hands. -/
def Waits (dirp : List UInt8) (k : ℕ) : Prop :=
  match stringLength dirp with
  | .ok length => length ≤ 24 ∧ Directory.Sleeps (32 * k)
  | .error _ => True

instance (dirp : List UInt8) (k : ℕ) : Decidable (Waits dirp k) := by
  unfold Waits
  cases stringLength dirp <;> infer_instance

section New

variable {dir : Directory ι} {s s' : Search} {u : User} {slots : List Slot} {name : Name} {o k : ℕ}

omit [DecidableEq ι] in
/-- The one call of `Bmap` at a record without further units. -/
theorem noteFree_bmap (h : noteFree s = .ok s') (hunits : s.u.uDent.mAdditionEsize = 0)
    (hoff : s.u.mOffset = o) (ho : o < 2 ^ 31) : s'.fs = s.fs ∧ s'.ino = s.ino ∨
      ∃ b, bmap s.fs s.ino (o / 512 : ℕ) = .ok (b, s'.ino, s'.fs) := by
  rcases noteFree_ok h with rfl | rfl | ⟨length, b, hbmap, hle, -⟩
  · exact .inl ⟨rfl, rfl⟩
  · exact .inl ⟨rfl, rfl⟩
  · rw [hunits] at hle
    have huse : ((length + 7) / 32 : ℕ) = 0 := by omega
    have hbehind : (0 * 32 + (o : ℤ)) % 2 ^ 32 = o := by omega
    have hdiv : int32 ((o : ℤ) / 512) = (o / 512 : ℕ) := by
      rw [int32_of_bounds (by omega) (by omega)]
      omega
    rw [huse, Nat.cast_zero, hoff, hbehind, hdiv] at hbmap
    exact .inr ⟨b, hbmap⟩

/-- A turn at a free slot is what `noteFree` does there. -/
theorem scanStep_noted {s₁ s₂ : Search} (hread : readHead s = .ok s₁)
    (hfree : s₁.u.uDent.mIno = 0) (hunits : s₁.u.uDent.mAdditionEsize = 0)
    (hoff : s₁.u.mOffset = o) (ho : o < 2 ^ 31) (hnote : noteFree s₁ = .ok s₂)
    (hu : s₂.u = s₁.u) : scanStep s = .ok (false, s₂) := by
  have hstay : int32 (s₂.u.mOffset + 32 * s₂.u.uDent.mAdditionEsize) = s₂.u.mOffset := by
    rw [hu, hunits, hoff, int32_of_bounds (by omega) (by omega)]
    omega
  unfold scanStep
  rw [hread, Except.ok_bind]
  refine (if_pos hfree).trans ?_
  rw [hnote, Except.ok_bind]
  simp only [hstay]
  rfl

/-- A turn at a slot in use. -/
theorem live_new (hl : Layout dir.f slots) (hdbuf : u.uDbuf = name.pad) {e : Name × ℤ}
    (hk : slots[k]? = some (some e)) (hon : On dir u s k) :
    ∃ s', scanStep s = .ok (decide (e.1 = name), s') ∧ On dir u s' (k + 1) ∧
      s'.freeEntryOffset = s.freeEntryOffset ∧ s'.u.uDent = ⟨e.2, e.1.pad, 0⟩ := by
  have hslot := hl.slot k _ hk
  have hlt := hl.lt_size hk
  obtain ⟨r, hread⟩ := hon.at_.readHead hlt (dvd_mul_right 32 k)
  have hnext := hon.next hlt (entryAt dir.f.bytes (32 * k)) r (s.reads ++
    [.head (32 * k : ℕ) (dir.blockAt (32 * k)) (entryAt dir.f.bytes (32 * k)).mIno
      (entryAt dir.f.bytes (32 * k)).mAdditionEsize])
  have hlive : (entryAt dir.f.bytes (32 * k)).mIno ≠ 0 := by
    rw [hslot.entryAt_mIno]
    exact (hslot.entry e rfl).1
  have hunits : (entryAt dir.f.bytes (32 * k)).mAdditionEsize.toNat = 0 := hslot.unitsAt
  obtain ⟨_, _, _, hu⟩ := hnext.user
  refine ⟨_, ?_, hnext, rfl, hslot.entryAt_eq⟩
  unfold scanStep
  rw [hread, Except.ok_bind]
  refine (if_neg hlive).trans ?_
  have hadd (t : Search) : readAdditions (entryAt dir.f.bytes (32 * k)).mAdditionEsize.toNat 0 t =
      .ok t := by
    rw [hunits]
    rfl
  refine (congrArg (· >>= _) (hadd _)).trans ?_
  rw [Except.ok_bind, newMatched_eq hslot (by rw [hu]; exact hdbuf) rfl]
  rfl

/-- Once the block behind the directory is there, it is found again. -/
theorem Roomy.mapped {d : Files ι} {F : ι → FlatFile} {i : ι} (hd : Holds d F) {r b : ℤ}
    {ino' : Inode} {fs' : FsState} {lbn : ℕ} (hlbn : (d.inodes i).iSize / 512 = lbn)
    (hbmap : bmap (d.fs.ahead r) (d.inodes i) lbn = .ok (b, ino', fs'))
    (herr : fs'.uError = .NOERROR) : Roomy (d.set fs' i ino') i := by
  have hlt : lbn < 33030 := by
    by_contra hnot
    rw [bmap_refused _ _ (not_lt.mp hnot)] at hbmap
    cases hbmap
    cases herr
  have h₁ := hd.ahead (i := i) r
  obtain ⟨b', ino₁, fs₁, hbmap', hcase⟩ := h₁.bmap i hlt
  rw [Files.inodes_set_self, Files.fs_set] at hbmap'
  cases hbmap.symm.trans hbmap'
  rcases hcase with ⟨-, hfull⟩ | ⟨hne, hblock, hsame, -⟩
  · rw [herr] at hfull
    cases hfull
  · rw [Files.set_set] at hblock
    rw [Files.inodes_set_self] at hsame
    intro r' iFlag
    have hsize : ino'.iSize = (d.inodes i).iSize := by
      obtain ⟨_, hino⟩ := hsame
      rw [hino]
    have hmapped : blockOf (fs'.ahead r') { ino' with iFlag := iFlag } lbn ≠ 0 := by
      have hview : (d.set fs' i ino').view.block i lbn =
          blockOf (d.set fs' i ino').fs ((d.set fs' i ino').inodes i) lbn := rfl
      rw [hview, Files.inodes_set_self] at hblock
      exact hblock.trans_ne hne
    obtain ⟨r'', hfound⟩ := bmap_mapped hlt hmapped
    rw [Files.inodes_set_self, hsize, hlbn]
    exact ⟨_, _, _, hfound, herr⟩

/-- What a turn at a free slot leaves if `noteFree` goes through. -/
theorem On.noted {s₁ : Search} (h : On dir u s₁ (k + 1)) (hk : 32 * k < dir.f.size)
    (hfs : ∃ r, s₁.fs = dir.d.fs.ahead r) (hino : s₁.ino = dir.d.inodes dir.i)
    (hroom : Roomy dir.d dir.i) (hunits : s₁.u.uDent.mAdditionEsize = 0) {fs' : FsState}
    {ino' : Inode} (hnote : noteFree s₁ =
      .ok { s₁ with fs := fs', ino := ino', freeEntryOffset := (32 * k + 32 : ℕ) })
    (hlt : 32 * k + 32 < dir.f.size → (∃ r, fs' = dir.d.fs.ahead r) ∧ ino' = dir.d.inodes dir.i)
    (hholds : fs'.uError = .NOERROR → Holds (dir.d.set fs' dir.i ino') dir.F) :
    On dir u { s₁ with fs := fs', ino := ino', freeEntryOffset := (32 * k + 32 : ℕ) } (k + 1) := by
  have hsize := dir.located.size_eq
  have hle := dir.located.size_le
  have hsmall : maxFileSize < 2 ^ 31 := by decide
  have hoff : s₁.u.mOffset = (32 * k + 32 : ℕ) := h.at_.mOffset_eq
  have h32 := dir.dvd_size
  obtain ⟨r, hr⟩ := hfs
  -- the block behind the directory is the only one that may be new
  have hleft : fs'.uError = .NOERROR ∧ guardOf fs' ino' = guardOf s₁.fs s₁.ino ∧
      Roomy (dir.d.set fs' dir.i ino') dir.i := by
    rcases noteFree_bmap hnote hunits hoff (by omega) with ⟨hsame, hsame'⟩ | ⟨b, hbmap⟩
    · cases (show fs' = s₁.fs from hsame)
      cases (show ino' = s₁.ino from hsame')
      exact ⟨h.noError, rfl, h.roomy hroom⟩
    · have hguard := bmap_guard hbmap
      by_cases hend : 32 * k + 32 < dir.f.size
      · obtain ⟨⟨r', rfl⟩, rfl⟩ := hlt hend
        exact ⟨dir.holds.uError_eq, hguard, hroom.ahead r'⟩
      · obtain ⟨b', ino₂, fs₂, hroom', herr⟩ := hroom r (dir.d.inodes dir.i).iFlag
        have hlbn : (dir.d.inodes dir.i).iSize / 512 = ((32 * k + 32) / 512 : ℕ) := by
          rw [hsize]
          omega
        rw [hr, hino] at hbmap
        rw [hlbn] at hroom'
        cases hbmap.symm.trans hroom'
        exact ⟨herr, hguard, Roomy.mapped dir.holds hlbn hbmap herr⟩
  exact ⟨⟨fun ho => (hlt ho).1, fun ho => (hlt ho).2, h.at_.mOffset_eq, h.at_.mCount_eq,
    h.at_.pBuf_eq, h.at_.busy_eq, hholds⟩, hleft.1, hleft.2.1.trans h.guard,
    fun hzero => absurd hzero (show ((32 * k + 32 : ℕ) : ℤ) ≠ 0 by omega), h.user, fun _ => hleft.2.2⟩

/-- The head of a free slot is read. -/
theorem On.readFree (h : On dir u s k) (hl : Layout dir.f slots) (hk : slots[k]? = some none) :
    ∃ r s₁, readHead s = .ok s₁ ∧ On dir u s₁ (k + 1) ∧ s₁.fs = dir.d.fs.ahead r ∧
      s₁.ino = dir.d.inodes dir.i ∧ s₁.freeEntryOffset = s.freeEntryOffset ∧
      s₁.u.uDent.mIno = 0 ∧ s₁.u.uDent.mAdditionEsize = 0 ∧
      s₁ = { s with
        fs := dir.d.fs.ahead r
        pBuf := some (bread dir.d.fs (dir.blockAt (32 * k)))
        busy := [dir.blockAt (32 * k)]
        u := nextUnit { s.u with uDent := entryAt dir.f.bytes (32 * k) }
        reads := s.reads ++ dir.recordReads (32 * k) } := by
  have hslot := hl.slot k _ hk
  have hlt := hl.lt_size hk
  obtain ⟨r, hread⟩ := h.at_.readHead hlt (dvd_mul_right 32 k)
  have hreads : dir.recordReads (32 * k) =
      [.head (32 * k : ℕ) (dir.blockAt (32 * k)) (entryAt dir.f.bytes (32 * k)).mIno
        (entryAt dir.f.bytes (32 * k)).mAdditionEsize] := by
    rw [Directory.recordReads, if_pos (hslot.isFree.mpr rfl)]
  rw [← hreads] at hread
  exact ⟨r, _, hread, h.next hlt _ r _, rfl, h.at_.ino_eq hlt, rfl, hslot.entryAt_mIno,
    hslot.units, rfl⟩

/-- A turn at a free slot that the search comes past. -/
theorem free_new (hl : Layout dir.f slots) (hroom : Roomy dir.d dir.i)
    (hk : slots[k]? = some none) (hon : On dir u s k)
    (hawake : s.freeEntryOffset = 0 → ¬ Waits u.uDirp k) :
    ∃ s', scanStep s = .ok (false, s') ∧ On dir u s' (k + 1) ∧
      s'.freeEntryOffset = if s.freeEntryOffset = 0 ∧ Short u.uDirp then ((32 * k + 32 : ℕ) : ℤ)
        else s.freeEntryOffset := by
  have hslot := hl.slot k _ hk
  have hlt := hl.lt_size hk
  have hle := dir.located.size_le
  have hsmall : maxFileSize < 2 ^ 31 := by decide
  have h32 := dir.dvd_size
  obtain ⟨r, s₁, hread, hon₁, hfs₁, hino₁, hfree₁, hmIno₁, hunits₁, hs₁⟩ := hon.readFree hl hk
  have hoff₁ : s₁.u.mOffset = (32 * k + 32 : ℕ) := hon₁.at_.mOffset_eq
  have hdirp : s.u.uDirp = u.uDirp := by
    obtain ⟨_, _, _, hu⟩ := hon.user
    rw [hu]
  have hstep {s₂ : Search} (hnote : noteFree s₁ = .ok s₂) (hu : s₂.u = s₁.u) :
      scanStep s = .ok (false, s₂) :=
    scanStep_noted hread hmIno₁ hunits₁ hoff₁ (by omega) hnote hu
  by_cases hzero : s.freeEntryOffset = 0
  · cases hlen : stringLength u.uDirp with
    | error e => exact absurd (show Waits u.uDirp k by simp [Waits, hlen]) (hawake hzero)
    | ok L =>
      have hnoted := hon.at_.noteFree hlt (dvd_mul_right 32 k) hslot.units
        (by rw [hdirp]; exact hlen) r hs₁
      by_cases h24 : L ≤ 24
      · have hsleeps : ¬ Directory.Sleeps (32 * k) := fun hsleeps =>
          hawake hzero (by simp only [Waits, hlen]; exact ⟨h24, hsleeps⟩)
        rw [if_pos ⟨hzero, h24⟩, if_neg hsleeps] at hnoted
        obtain ⟨fs', ino', hnote, hnext, hholds⟩ := hnoted
        refine ⟨_, hstep hnote rfl, hon₁.noted hlt ⟨r, hfs₁⟩ hino₁ hroom hunits₁ hnote hnext hholds,
          ?_⟩
        rw [if_pos ⟨hzero, by simpa [Short, hlen] using h24⟩]
      · rw [if_neg fun h => h24 h.2] at hnoted
        refine ⟨s₁, hstep hnoted rfl, hon₁, ?_⟩
        rw [if_neg fun h => h24 (by simpa [Short, hlen] using h.2)]
        exact hfree₁
  · have hnote : noteFree s₁ = .ok s₁ := by
      unfold noteFree
      rw [if_pos (by rw [hfree₁]; exact hzero)]
      rfl
    refine ⟨s₁, hstep hnote rfl, hon₁, ?_⟩
    rw [if_neg fun h => hzero h.1]
    exact hfree₁

/-- **A turn of the new version.** -/
theorem steps_new (hl : Layout dir.f slots) (hroom : Roomy dir.d dir.i)
    (hdbuf : u.uDbuf = name.pad) :
    Steps dir slots u scanStep (Short u.uDirp) (Waits u.uDirp) name :=
  ⟨fun _ _ _ hk hon => live_new hl hdbuf hk hon,
    fun _ _ hk hon hawake => free_new hl hroom hk hon hawake⟩

/-- **The new version stops** at a free slot it would keep. -/
theorem stops_new (hl : Layout dir.f slots) (hk : slots[k]? = some none) (hon : On dir u s k)
    (hzero : s.freeEntryOffset = 0) (hwaits : Waits u.uDirp k) : ∃ e, scanStep s = .error e := by
  have hslot := hl.slot k _ hk
  have hlt := hl.lt_size hk
  have hdirp : s.u.uDirp = u.uDirp := by
    obtain ⟨_, _, _, hu⟩ := hon.user
    rw [hu]
  cases hlen : stringLength u.uDirp with
  | ok L =>
    simp only [Waits, hlen] at hwaits
    exact ⟨_, hon.at_.scanStep_sleeps hlt (dvd_mul_right 32 k) hslot.units
      (hslot.isFree.mpr rfl) (by rw [hdirp]; exact hlen) ⟨hzero, hwaits.1⟩ hwaits.2⟩
  | error e =>
    obtain ⟨r, s₁, hread, -, -, -, hfree₁, hmIno₁, -, hs₁⟩ := hon.readFree hl hk
    have hnote : noteFree s₁ = .error e := by
      unfold noteFree
      rw [if_neg (by rw [hfree₁]; exact not_not.mpr hzero), hs₁]
      change (stringLength s.u.uDirp >>= _) = _
      rw [hdirp, hlen]
      rfl
    refine ⟨e, ?_⟩
    unfold scanStep
    rw [hread, Except.ok_bind]
    refine (if_pos hmIno₁).trans ?_
    rw [hnote]
    rfl

end New

/-! ### The loop -/

/-- The loop comes past the first `k` slots without finding the name. -/
structure Passed (keeps : Prop) [Decidable keeps] (waits : ℕ → Prop) (slots : List Slot)
    (name : Name) (k : ℕ) : Prop where
  other : ∀ m < k, ∀ e, slots[m]? = some (some e) → e.1 ≠ name
  awake : ∀ m < k, slots[m]? = some none → kept keeps slots m = 0 → ¬ waits m

section Loop

variable {dir : Directory ι} {s : Search} {u : User} {slots : List Slot} {name : Name} {k : ℕ}
  {step : Search → Except Stop (Bool × Search)} {keeps : Prop} [Decidable keeps] {waits : ℕ → Prop}

theorem Passed.mono (h : Passed keeps waits slots name k) {m : ℕ} (hm : m ≤ k) :
    Passed keeps waits slots name m :=
  ⟨fun j hj => h.other j (by omega), fun j hj => h.awake j (by omega)⟩

theorem On.mCount_ne (h : On dir u s k) (hl : Layout dir.f slots) (hk : k < slots.length) :
    s.u.mCount ≠ 0 := by
  have hcount := h.at_.mCount_eq
  have hsize := hl.size_eq
  omega

theorem scanWith_next {s' : Search} {fuel : ℕ} (hcount : s.u.mCount ≠ 0)
    (hstep : step s = .ok (false, s')) : scanWith step (fuel + 1) s = scanWith step fuel s' := by
  rw [scanWith, if_neg hcount, hstep]
  rfl

/-- **The loop comes past slots** that do not have the name. -/
theorem Steps.pass (h : Steps dir slots u step keeps waits name) (hl : Layout dir.f slots)
    (hon : On dir u s 0) (hzero : s.freeEntryOffset = 0) (hk : k ≤ slots.length)
    (hpass : Passed keeps waits slots name k) :
    ∃ s', (∀ fuel, scanWith step (fuel + k) s = scanWith step fuel s') ∧ On dir u s' k ∧
      s'.freeEntryOffset = kept keeps slots k := by
  induction k with
  | zero => exact ⟨s, fun _ => rfl, hon, hzero⟩
  | succ k ih =>
    obtain ⟨s₁, hscan, hon₁, hkept⟩ := ih (by omega) (hpass.mono (Nat.le_succ k))
    have hcount := hon₁.mCount_ne hl hk
    have hget : slots[k]? = some slots[k] := List.getElem?_eq_getElem hk
    obtain ⟨s₂, hstep, hon₂, hkept₂⟩ : ∃ s₂, step s₁ = .ok (false, s₂) ∧ On dir u s₂ (k + 1) ∧
        s₂.freeEntryOffset = kept keeps slots (k + 1) := by
      cases hslot : slots[k] with
      | none =>
        rw [hslot] at hget
        obtain ⟨s₂, hstep, hon₂, hfree⟩ := h.free s₁ k hget hon₁ fun hfree =>
          hpass.awake k (Nat.lt_succ_self k) hget (hkept ▸ hfree)
        refine ⟨s₂, hstep, hon₂, ?_⟩
        rw [hfree, kept, hkept]
        simp only [hget, true_and]
      | some e =>
        rw [hslot] at hget
        obtain ⟨s₂, hstep, hon₂, hfree, -⟩ := h.live s₁ k e hget hon₁
        have hother := hpass.other k (Nat.lt_succ_self k) e hget
        rw [decide_eq_false hother] at hstep
        refine ⟨s₂, hstep, hon₂, ?_⟩
        rw [hfree, kept, if_neg (by simp [hget]), hkept]
    refine ⟨s₂, fun fuel => ?_, hon₂, hkept₂⟩
    have hfuel : fuel + (k + 1) = fuel + 1 + k := by omega
    rw [hfuel, hscan, scanWith_next hcount hstep]

/-- **The name is found.** -/
theorem Steps.found (h : Steps dir slots u step keeps waits name) (hl : Layout dir.f slots)
    (hon : On dir u s 0) (hzero : s.freeEntryOffset = 0) {n : ℤ}
    (hk : slots[k]? = some (some (name, n))) (hpass : Passed keeps waits slots name k) :
    ∃ s', scanWith step slots.length s = .ok (true, s') ∧ On dir u s' (k + 1) ∧
      s'.u.uDent = ⟨n, name.pad, 0⟩ := by
  have hlt := (List.getElem?_eq_some_iff.mp hk).1
  obtain ⟨s₁, hscan, hon₁, -⟩ := h.pass hl hon hzero hlt.le hpass
  obtain ⟨s₂, hstep, hon₂, -, hdent⟩ := h.live s₁ k _ hk hon₁
  rw [decide_eq_true rfl] at hstep
  refine ⟨s₂, ?_, hon₂, hdent⟩
  have hfuel : slots.length = slots.length - k - 1 + 1 + k := by omega
  rw [hfuel, hscan, scanWith, if_neg (hon₁.mCount_ne hl hlt), hstep]
  rfl

/-- **The name is missing.** -/
theorem Steps.missing (h : Steps dir slots u step keeps waits name) (hl : Layout dir.f slots)
    (hon : On dir u s 0) (hzero : s.freeEntryOffset = 0)
    (hpass : Passed keeps waits slots name slots.length) :
    ∃ s', scanWith step slots.length s = .ok (false, s') ∧ On dir u s' slots.length ∧
      s'.freeEntryOffset = kept keeps slots slots.length := by
  obtain ⟨s', hscan, hon', hkept⟩ := h.pass hl hon hzero le_rfl hpass
  have hcount := hon'.at_.mCount_eq
  have hsize := hl.size_eq
  refine ⟨s', ?_, hon', hkept⟩
  have hstart := hscan 0
  rw [Nat.zero_add] at hstart
  rw [hstart, scanWith, if_pos (by omega)]

end Loop

/-- **The new version does not end** if a free slot that it would keep stops it. -/
theorem scan_stops {dir : Directory ι} {s : Search} {u : User} {slots : List Slot} {name : Name}
    {k : ℕ} (hl : Layout dir.f slots) (hroom : Roomy dir.d dir.i) (hdbuf : u.uDbuf = name.pad)
    (hon : On dir u s 0) (hzero : s.freeEntryOffset = 0) (hk : slots[k]? = some none)
    (hpass : Passed (Short u.uDirp) (Waits u.uDirp) slots name k)
    (hkept : kept (Short u.uDirp) slots k = 0) (hwaits : Waits u.uDirp k) :
    ∃ e, scanWith scanStep slots.length s = .error e := by
  have hlt := (List.getElem?_eq_some_iff.mp hk).1
  obtain ⟨s₁, hscan, hon₁, hfree⟩ := (steps_new hl hroom hdbuf).pass hl hon hzero hlt.le hpass
  obtain ⟨e, hstep⟩ := stops_new hl hk hon₁ (hfree.trans hkept) hwaits
  refine ⟨e, ?_⟩
  have hfuel : slots.length = slots.length - k - 1 + 1 + k := by omega
  rw [hfuel, hscan, scanWith, if_neg (hon₁.mCount_ne hl hlt), hstep]
  rfl

end FileManager
end UnixV6pp
