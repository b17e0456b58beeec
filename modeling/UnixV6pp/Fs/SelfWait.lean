import UnixV6pp.Fs.SameDirectory

/-!
# The new search that waits for itself

Seventeen names of one byte fill the first block of a directory and the first 32 bytes of the
second.  When the last name is taken away the first free record ends inside the second block,
and no search of the new version comes past it any more; the old version goes on.

* `Holds.bmap_stocked` — `Bmap` of a small file succeeds while there are numbers on the stack.
* `emptyDisk` — an empty directory on a device with 40 free blocks.
* `not_sameDirectory` — **the calls after which the two versions do not agree.**
-/

namespace UnixV6pp

open Words IndexTree FileSystem Inode BufferManager DirectoryEntry

/-! ### Space for small files -/

namespace FileSystem

variable {s : FsState} {L : List ℤ} {n : ℕ}

/-- A number above the bottom of the stack is handed out. -/
theorem FreeList.alloc_pop (h : FreeList s L) (hn : (n + 2 : ℕ) ≤ s.sb.sNfree) :
    ∃ b s', alloc s = .ok (some b, s') ∧ s'.uError = s.uError ∧
      (n + 1 : ℕ) ≤ s'.sb.sNfree := by
  rcases h.exists_chain (by omega) with ⟨m, hm, hlt, hc⟩
  have hm' : m ≠ 0 := by omega
  cases hc with
  | last => exact absurd rfl hm'
  | link => exact absurd rfl hm'
  | pop _ _ hne hc =>
    refine ⟨_, _, (h.alloc_eq hm hlt).trans (if_neg hne), rfl, ?_⟩
    rw [if_neg hm']
    change ((n + 1 : ℕ) : ℤ) ≤ (m : ℤ)
    omega

/-- The stack with the numbers 1024, 1025 and so on. -/
def stack (k : ℕ) : ℤ := if k = 0 then 0 else 1023 + k

/-- The first numbers on it. -/
def freeBlocks : ℕ → List ℤ
  | 0 => []
  | n + 1 => stack (n + 1) :: freeBlocks n

theorem mem_freeBlocks {b : ℤ} (h : b ∈ freeBlocks n) : 1024 ≤ b ∧ b < 1024 + n := by
  induction n with
  | zero => cases h
  | succ n ih =>
    rcases List.mem_cons.mp h with rfl | h
    · rw [stack, if_neg (Nat.succ_ne_zero n)]
      omega
    · have := ih h
      omega

theorem chain_freeBlocks {blk : ℤ → Block} (hn : n < 100) : Chain blk (n + 1) stack (freeBlocks n) := by
  induction n with
  | zero => exact .last rfl
  | succ n ih =>
    refine .pop (by omega) (by omega) ?_ (ih (by omega))
    rw [stack, if_neg (Nat.succ_ne_zero n)]
    omega

theorem nodup_freeBlocks : (freeBlocks n).Nodup := by
  induction n with
  | zero => exact List.nodup_nil
  | succ n ih =>
    refine List.nodup_cons.mpr ⟨fun hmem => ?_, ih⟩
    have hlt := (mem_freeBlocks hmem).2
    rw [stack, if_neg (Nat.succ_ne_zero n)] at hlt
    omega

end FileSystem

namespace Inode

open FileManager

variable {ι : Type*} {d : Files ι} {F : ι → FlatFile} {i : ι} {n : ℕ}

/-- **`Bmap` of a small file** succeeds while there are numbers on the stack. -/
theorem Holds.bmap_stocked (h : Holds d F) (hn : (n + 2 : ℕ) ≤ d.fs.sb.sNfree) {lbn : ℕ}
    (hlbn : lbn < 6) (r : ℤ) (iFlag : UInt32) : ∃ b ino' fs',
      Inode.bmap (d.fs.ahead r) { d.inodes i with iFlag := iFlag } lbn = .ok (b, ino', fs') ∧
      fs'.uError = .NOERROR ∧ (n + 1 : ℕ) ≤ fs'.sb.sNfree := by
  rcases h.inv with ⟨L, hinv⟩
  have hfree : FreeList (d.fs.ahead r) L := hinv.sound.freeList.of_eq rfl fun _ _ => rfl
  have hdirect : Inode.bmap (d.fs.ahead r) { d.inodes i with iFlag := iFlag } lbn =
      bmapDirect (d.fs.ahead r) { d.inodes i with iFlag := iFlag } lbn := by
    rw [Inode.bmap, if_neg (by unfold hugeFileBlock; omega), if_pos (by omega)]
  rw [hdirect, bmapDirect, readAt_ofNat _ (show lbn < 10 by omega), Except.ok_bind]
  by_cases hzero : (d.inodes i).iAddr lbn = 0
  · rcases hfree.alloc_pop hn with ⟨b, s', halloc, herr, hleft⟩
    rw [if_pos hzero, allocBuf, halloc]
    exact ⟨_, _, _, rfl, herr.trans h.uError_eq, hleft⟩
  · rw [if_neg hzero]
    refine ⟨_, _, _, rfl, h.uError_eq, ?_⟩
    change ((n + 1 : ℕ) : ℤ) ≤ d.fs.sb.sNfree
    omega

/-- There is space for a small directory. -/
theorem Holds.roomy (h : Holds d F) (hn : (n + 2 : ℕ) ≤ d.fs.sb.sNfree)
    (hsize : (F i).size < 3072) : Roomy d i := by
  intro r iFlag
  have hlbn : (d.inodes i).iSize / 512 = ((F i).size / 512 : ℕ) := by
    rw [h.size_eq]
    omega
  rw [hlbn]
  rcases h.bmap_stocked (i := i) hn (show (F i).size / 512 < 6 by omega) r iFlag with
    ⟨b, ino', fs', hbmap, herr, -⟩
  exact ⟨b, ino', fs', hbmap, herr⟩

end Inode

namespace FileManager

/-! ### Seventeen names -/

/-- An empty directory on a device with 40 free blocks. -/
def emptyDisk : Disk Unit where
  d := {
    fs := {
      sb := { sNfree := 41, sFree := stack, sNinode := 0, sInode := fun _ => 0, sFlock := 0
              sIlock := 0, sFmod := 0, sRonly := 0 }
      blk := fun _ _ => 0
      uError := .NOERROR
      rablock := 0 }
    inodes := fun _ => { empty with iMode := 0x41FF } }
  nodes := fun _ => ⟨0, 0, 0, 0⟩

theorem empty_emptyDisk : Empty () emptyDisk := by
  have hplain : ({ empty with iMode := 0x41FF } : Inode).isDevice = false := by decide
  have hnumber : (empty.iNumber : ℤ) < inodeCount := by decide
  have hfree : FreeList emptyDisk.d.fs (freeBlocks 40) := by
    refine ⟨by decide, rfl, fun b hb => ?_, nodup_freeBlocks,
      .inr ⟨41, rfl, chain_freeBlocks (by omega)⟩⟩
    have := mem_freeBlocks hb
    exact ⟨by unfold dataZoneStartSector; omega, by omega⟩
  have hat : ∀ (t : Unit × ℕ) p, emptyDisk.d.view.at t p = 0 := fun t p => walk_zero p
  have hinv : Inv emptyDisk.d (freeBlocks 40) := by
    refine ⟨⟨hfree, by decide, ⟨?_, ?_, ?_⟩⟩, fun _ => hplain, fun _ => hnumber⟩
    · exact fun t p _ _ _ _ hne => absurd (hat t p) hne
    · exact fun t p _ hne => absurd (hat t p) hne
    · intro t p _ hmem
      have hpos := (mem_freeBlocks hmem).1
      change 1024 ≤ emptyDisk.d.view.at t p at hpos
      rw [hat] at hpos
      omega
  refine ⟨fun _ => FlatFile.new, ⟨⟨_, hinv⟩, rfl, fun _ => rfl, fun _ => Nat.zero_le _, ?_⟩, rfl⟩
  intro i o _
  exact if_pos (hat _ _)

/-- Names of one byte. -/
def letter (k : ℕ) : Name where
  bytes := [UInt8.ofNat (97 + k % 26)]
  ne_nil := List.cons_ne_nil _ _
  length_le := by simp
  ne_zero := by
    have hall : ∀ m : Fin 26, UInt8.ofNat (97 + m) ≠ 0 := by decide
    simpa using hall ⟨k % 26, Nat.mod_lt k (by omega)⟩
  ne_slash := by
    have hall : ∀ m : Fin 26, UInt8.ofNat (97 + m) ≠ slash := by decide
    simpa using hall ⟨k % 26, Nat.mod_lt k (by omega)⟩

theorem letter_inj {j k : ℕ} (hj : j < 26) (hk : k < 26) (h : letter j = letter k) : j = k := by
  have hall : ∀ m n : Fin 26, UInt8.ofNat (97 + m) = UInt8.ofNat (97 + n) → m = n := by decide
  have hbytes : UInt8.ofNat (97 + j % 26) = UInt8.ofNat (97 + k % 26) := by
    simpa [letter] using congrArg Name.bytes h
  rw [Nat.mod_eq_of_lt hj, Nat.mod_eq_of_lt hk] at hbytes
  exact congrArg Fin.val (hall ⟨j, hj⟩ ⟨k, hk⟩ hbytes)

/-- The name is the whole path, and zeros follow. -/
def letterPath (k : ℕ) : Path := ⟨letter k, 0, 0, [0], by decide, fun _ => rfl⟩

/-- The superuser. -/
def root : User := { (default : User) with uUid := 0, uGid := 0 }

theorem root_user : root.uUid = 0 ∧ root.uGid = 0 := ⟨rfl, rfl⟩

/-- What access to the directory depends on. -/
def openGuard : Guard := ⟨0, 0x41FF, 0, 0⟩

/-- The call that makes the file with the inode `k + 1`. -/
def creatLetter (k : ℕ) (hk : k < 100) : DirCall :=
  .creat (letterPath k) rfl 0 (k + 1) ⟨by omega, by unfold inodeCount; omega⟩

/-- The slots when so many names have been made. -/
def letters (k : ℕ) : List Slot := (List.range k).map fun j => some (letter j, (j + 1 : ℤ))

section Letters

variable {j k : ℕ} {slot : Slot} {fmt : Format} {disk : Disk Unit} {st : DirSpec.State}

theorem length_letters (k : ℕ) : (letters k).length = k := by simp [letters]

theorem getElem?_letters :
    (letters k)[j]? = some slot ↔ j < k ∧ some (letter j, (j + 1 : ℤ)) = slot := by
  by_cases hj : j < k
  · simp [letters, hj]
  · simp [letters, hj]

theorem letters_used (j : ℕ) : (letters k)[j]? ≠ some none := by
  simp [getElem?_letters]

/-- The next name is none of those. -/
theorem letters_other (hk : k < 26) {n : ℤ} : (letters k)[j]? ≠ some (some (letter k, n)) := by
  intro heq
  rcases getElem?_letters.mp heq with ⟨hj, hslot⟩
  have hname : letter j = letter k := congrArg Prod.fst (Option.some.inj hslot)
  have := letter_inj (hj.trans hk) hk hname
  omega

theorem put_letters (k : ℕ) :
    put (letters k) k (some (letter k, (k + 1 : ℤ))) = letters (k + 1) := by
  rw [put, if_neg (by rw [length_letters]; omega)]
  simp [letters, List.range_succ]

/-- So many names are made, and there are numbers left on the stack. -/
structure Filled (disk : Disk Unit) (st : DirSpec.State) (k : ℕ) : Prop where
  models : Models disk () openGuard (letters k) st
  stock : (41 - k : ℤ) ≤ disk.d.fs.sb.sNfree

theorem Filled.roomy (h : Filled disk st k) (hk : k ≤ 17) : Roomy disk.d () := by
  rcases h.models.files with ⟨F, hd, hl⟩
  have hsize := hl.size_eq
  rw [length_letters] at hsize
  have hstock := h.stock
  have hleft : ((0 + 2 : ℕ) : ℤ) ≤ disk.d.fs.sb.sNfree := by omega
  exact hd.roomy hleft (by omega)

/-- **The next name is made**, in either format. -/
theorem Filled.creat (R : fmt.Reading) (h : Filled disk st k) (hk : k < 17) (buffer : ℤ → Block) :
    ∃ disk', fmt.call buffer () root disk (creatLetter k (by omega)) = .ok (.file (k + 1), disk') ∧
      Filled disk' ((st.setEntry (letter k) (some (k + 1))).setNode (k + 1)
        (makNode 0 0 (newACCMode 0 &&& ~~~ISVTX))) (k + 1) := by
  rcases h.models.files with ⟨F, hd, hl⟩
  have hsize := hl.size_eq
  rw [length_letters] at hsize
  have hstock := h.stock
  have hcomes : Searchable openGuard root.uUid root.uGid → R.Comes (letters k) (letterPath k) :=
    fun _ j hfree => absurd hfree (letters_used j)
  have hnone : st.entries (letter k) = none := by
    cases hfound : st.entries (letter k) with
    | none => rfl
    | some n =>
      rcases (h.models.lists.mem_iff _ n).mp hfound with ⟨j, hj⟩
      exact absurd hj (letters_other (by omega))
  have hcreate : DirSpec.search openGuard root.uUid root.uGid .CREATE (letterPath k).next
      (st.entries (letterPath k).name) = (.create, .NOERROR) := by
    change DirSpec.search _ _ _ _ _ (st.entries (letter k)) = _
    rw [hnone]
    rfl
  have hspace : ∀ r iFlag, Mappable (disk.d.set (disk.d.fs.ahead r) ()
      { disk.d.inodes () with iFlag := iFlag }) () (letters k).length
      fun sb _ => (40 - k : ℤ) ≤ sb.sNfree := by
    intro r iFlag iFlag'
    have hleft : (((39 - k) + 2 : ℕ) : ℤ) ≤ disk.d.fs.sb.sNfree := by omega
    have hsmall : 32 * (letters k).length / 512 < 6 := by
      rw [length_letters]
      omega
    rcases hd.bmap_stocked (i := ()) hleft hsmall r iFlag' with ⟨b, ino', fs', hbmap, herr, hleft⟩
    refine ⟨b, ino', fs', ?_, herr, by omega⟩
    rw [Files.inodes_set_self]
    exact hbmap
  have hnumber : (0 : ℤ) < k + 1 ∧ (k + 1 : ℤ) < inodeCount :=
    ⟨by omega, by unfold inodeCount; omega⟩
  rcases creat_makes R h.models (h.roomy hk.le) buffer root (letterPath k) 0 hnumber hcomes hcreate
    hspace with ⟨disk', hcall, hmodels, hleft⟩
  have hplace : place (R.keeps (letterPath k).dirp) (letters k) = k := by
    rw [place, kept_eq_zero fun m _ => letters_used m, if_pos rfl, length_letters]
  have hstock' := hleft (hplace.trans (length_letters k).symm)
  rw [hplace] at hmodels
  have hput : put (letters k) k (some ((letterPath k).name, (k + 1 : ℤ))) = letters (k + 1) :=
    put_letters k
  rw [hput] at hmodels
  exact ⟨disk', hcall, hmodels, by push_cast; omega⟩

/-- A call is made when there is space. -/
def SpaceStep (s : Both Unit) (l : Label) : Prop := ∀ c uid gid, l = .call c uid gid → Space () s

theorem start_emptyDisk : Start () ⟨emptyDisk, emptyDisk, []⟩ :=
  ⟨empty_emptyDisk, empty_emptyDisk, rfl, rfl, rfl⟩

/-- The names are made one after the other. -/
theorem run_letters (hk : k ≤ 17) : ∃ s st,
    Runs (Step ()) SpaceStep ⟨emptyDisk, emptyDisk, []⟩ s ∧ Filled s.old st k ∧ Filled s.new st k := by
  induction k with
  | zero =>
    have hfilled : Filled emptyDisk ⟨fun _ => none, emptyDisk.nodes⟩ 0 :=
      ⟨empty_emptyDisk.models, by decide⟩
    exact ⟨_, _, Runs.refl _, hfilled, hfilled⟩
  | succ k ih =>
    rcases ih (by omega) with ⟨s, st, hrun, hold, hnew⟩
    rcases hold.creat oldReading (by omega) fun _ _ => 0 with ⟨disk₁, heq₁, hold'⟩
    rcases hnew.creat newReading (by omega) fun _ _ => 0 with ⟨disk₂, heq₂, hnew'⟩
    refine ⟨⟨disk₁, disk₂, _⟩, _, hrun.tail (l := .call (creatLetter k (by omega)) 0 0) ?_
      (.call root_user root_user heq₁ heq₂), hold', hnew'⟩
    exact fun _ _ _ _ => ⟨hold.roomy (by omega), hnew.roomy (by omega)⟩

/-- The last of seventeen names is taken away. -/
theorem Filled.unlink (R : fmt.Reading) (h : Filled disk st 17) (buffer : ℤ → Block) :
    ∃ disk', fmt.call buffer () root disk (.unlink (letterPath 16) rfl) = .ok (.file 17, disk') ∧
      ∃ st', Models disk' () openGuard (put (letters 17) 16 none) st' := by
  have hcomes : Searchable openGuard root.uUid root.uGid → R.Comes (letters 17) (letterPath 16) :=
    fun _ j hfree => absurd hfree (letters_used j)
  have hfound : st.entries (letter 16) = some 17 :=
    (h.models.lists.mem_iff _ _).mpr ⟨16, getElem?_letters.mpr ⟨by omega, rfl⟩⟩
  have hdelete : DirSpec.search openGuard root.uUid root.uGid .DELETE (letterPath 16).next
      (st.entries (letterPath 16).name) = (.parent, .NOERROR) := by
    change DirSpec.search _ _ _ _ _ (st.entries (letter 16)) = _
    rw [hfound]
    rfl
  have hallowed : unlinkError root.uUid (st.nodes 17) = none := if_neg fun h => h.2 rfl
  rcases unlink_clears R h.models (h.roomy le_rfl) buffer root (letterPath 16) hcomes hdelete hfound
    hallowed with ⟨disk', k, hk, hcall, hmodels⟩
  rcases getElem?_letters.mp hk with ⟨hlt, hslot⟩
  have hname : letter k = letter 16 := congrArg Prod.fst (Option.some.inj hslot)
  have h16 : k = 16 := letter_inj (by omega) (by omega) hname
  subst h16
  exact ⟨disk', hcall, _, hmodels⟩

/-- The first name is made on both devices, and they agree. -/
theorem sameDirectory_run_letter : ∃ s : Both Unit, s.replies = [(.file 1, .file 1)] ∧
    ∀ name n, Oos1.Names (s.old.file ()) name n ↔ Names (s.new.file ()) name n := by
  have hfilled : Filled emptyDisk ⟨fun _ => none, emptyDisk.nodes⟩ 0 :=
    ⟨empty_emptyDisk.models, by decide⟩
  rcases hfilled.creat oldReading (by omega) fun _ _ => 0 with ⟨disk₁, heq₁, -⟩
  rcases hfilled.creat newReading (by omega) fun _ _ => 0 with ⟨disk₂, heq₂, -⟩
  have hroom := hfilled.roomy (by omega)
  have hclear : Clear emptyDisk () 0 0 (creatLetter 0 (by omega)) :=
    (hfilled.models.clear_iff 0 0 _).mpr fun _ j hfree => absurd hfree (letters_used j)
  have hrun : Runs (Step ()) (ClearStep ()) ⟨emptyDisk, emptyDisk, []⟩ _ :=
    Runs.single (l := .call (creatLetter 0 (by omega)) 0 0)
      (fun _ _ _ hl => by
        cases hl
        exact ⟨⟨hroom, hroom⟩, hclear⟩)
      (.call root_user root_user heq₁ heq₂)
  have h := sameDirectory_run start_emptyDisk hrun
  exact ⟨_, rfl, h.2.1⟩

/-- A directory of one block and a slot has space for another slot. -/
theorem roomy_put (h : Models disk () openGuard (put (letters 17) 16 none) st) : Roomy disk.d () := by
  rcases h.files with ⟨F, hd, hl⟩
  have hlen : (put (letters 17) 16 none).length = 17 := by
    rw [length_put (by rw [length_letters]; omega), length_letters]
    rfl
  have hsize := hl.size_eq
  rw [hlen] at hsize
  have hlbn : (disk.d.inodes ()).iSize / 512 = (1 : ℕ) := by
    rw [hd.size_eq, hsize]
    rfl
  intro r iFlag
  have hne : blockOf (disk.d.fs.ahead r) { disk.d.inodes () with iFlag := iFlag } 1 ≠ 0 :=
    hl.mapped hd (show 512 * 1 < (F ()).size by omega)
  rcases bmap_mapped (by omega) hne with ⟨r', hbmap⟩
  rw [hlbn]
  exact ⟨_, _, _, hbmap, hd.uError_eq⟩

/-- **The two versions do not agree**: after seventeen names are made and the last is taken away
there is space, and the old version makes it again, but the new one does not come to an end. -/
theorem not_sameDirectory : ∃ s, Start () ⟨emptyDisk, emptyDisk, []⟩ ∧
    Runs (Step ()) SpaceStep ⟨emptyDisk, emptyDisk, []⟩ s ∧ Space () s ∧ ∃ r disk₁ e,
      oos1.call (fun _ _ => 0) () root s.old (creatLetter 16 (by omega)) = .ok (r, disk₁) ∧
      oos2.call (fun _ _ => 0) () root s.new (creatLetter 16 (by omega)) = .error e := by
  rcases run_letters le_rfl with ⟨s, st, hrun, hold, hnew⟩
  rcases hold.unlink oldReading fun _ _ => 0 with ⟨disk₁, heq₁, st₁, hold'⟩
  rcases hnew.unlink newReading fun _ _ => 0 with ⟨disk₂, heq₂, st₂, hnew'⟩
  have hspace : Space () ⟨disk₁, disk₂, s.replies ++ [(.file 17, .file 17)]⟩ :=
    ⟨roomy_put hold', roomy_put hnew'⟩
  refine ⟨_, start_emptyDisk, hrun.tail (l := .call (.unlink (letterPath 16) rfl) 0 0)
    (fun _ _ _ _ => ⟨hold.roomy le_rfl, hnew.roomy le_rfl⟩)
    (.call root_user root_user heq₁ heq₂), hspace, ?_⟩
  -- the free slot is the seventeenth, and the names in front of it are others
  have hget (j : ℕ) : (put (letters 17) 16 none)[j]? = if j = 16 then some none else (letters 17)[j]? :=
    getElem?_put (by rw [length_letters]; omega) j
  have hblocked : ¬ newReading.Comes (put (letters 17) 16 none) (letterPath 16) := by
    have hwaits : Waits [0] 16 := by decide
    intro hcomes
    refine hcomes 16 (by rw [hget, if_pos rfl]) (fun j hj => ?_) (fun j hj n => ?_) hwaits
    · rw [hget, if_neg hj.ne]
      exact letters_used j
    · rw [hget, if_neg hj.ne]
      intro heq
      rcases getElem?_letters.mp heq with ⟨hlt, hslot⟩
      have hname : letter j = letter 16 := congrArg Prod.fst (Option.some.inj hslot)
      have := letter_inj (by omega) (by omega) hname
      omega
  rcases oldReading.call_spec hold' hspace.1 (fun _ _ => 0) root (creatLetter 16 (by omega))
    (ends_old _ _ _ _ _ _) with ⟨disk₁', hcall, -⟩
  rcases call_stops hnew' hspace.2 (fun _ _ => 0) root (creatLetter 16 (by omega)) fun hclear =>
    hblocked ((hnew'.clear_iff _ _ _).mp hclear ⟨rfl, rfl⟩) with ⟨e, he⟩
  exact ⟨_, disk₁', e, hcall, he⟩

end Letters

end FileManager
end UnixV6pp
