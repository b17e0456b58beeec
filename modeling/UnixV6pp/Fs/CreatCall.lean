import UnixV6pp.Fs.DirectoryCalls
import UnixV6pp.Fs.Kernel
import Mathlib.Tactic.IntervalCases
import Mathlib.Tactic.SplitIfs

/-!
# `Creat` of a file that exists

`NameI` has led to a file.  `Creat` gets its inode, `Open1` checks the access, truncates the
file, and only then looks for a descriptor and an entry of the table of open files; at the end
the mode is changed, whether `Open1` succeeded or not.

Who else has the file open holds further references to the in-core inode.  When there are
none left, the entry is free, and the file is what its inode on the disk says.

* `Inode.icopy` — the inode on the disk.
* `FileManager.fAlloc`, `FileManager.open1`, `FileManager.creat` — the call.
* `creat_fails_iff` — **what a failed call leaves as it was.**
-/

namespace UnixV6pp

open Words FileSystem BufferManager

/-! ### The inode on the disk -/

/-- The number a `short` holds when `x` is stored in it. -/
def int16 (x : ℤ) : ℤ := (x + 2 ^ 15) % 2 ^ 16 - 2 ^ 15

namespace Inode

/-- `Inode::ICopy` from the sector of the inode. -/
def icopy (ino : Inode) (sector : Block) (number : ℤ) : Inode :=
  let word (k : ℕ) := getInt sector (16 * (number.tmod 8).toNat + k)
  { ino with
    iMode := UInt32.ofNat (word 0 % 2 ^ 32).toNat
    iNlink := word 1
    iUid := int16 (word 2)
    iGid := int16 (word 2 / 2 ^ 16)
    iSize := word 3
    iAddr := fun k => if k < 10 then word (4 + k) else ino.iAddr k }

/-- What belongs to a file rather than to the entry of the table that its inode is in. -/
structure Attributes where
  size : ℤ
  addr : List ℤ
  mode : UInt32
  nlink : ℤ
  uid : ℤ
  gid : ℤ
  deriving DecidableEq

/-- The attributes that an inode holds. -/
def attributes (ino : Inode) : Attributes where
  size := ino.iSize
  addr := (List.range 10).map ino.iAddr
  mode := ino.iMode
  nlink := ino.iNlink
  uid := ino.iUid
  gid := ino.iGid

end Inode

namespace FileManager

open Inode

/-! ### The state of the call -/

/-- An entry of the table of open files. -/
structure FileEntry where
  fFlag : UInt32
  fCount : ℤ
  fInode : Slot
  fOffset : ℤ

/-- What a call that opens a file works on. -/
structure OpenCall where
  fs : FsState
  /-- The entry of the table of inodes: that of the file while `i_count` is not zero, and the
  free one that is used next when nobody has the file open. -/
  ino : Inode
  /-- Which entry it is. -/
  slot : Slot
  /-- The number of the inode of the file. -/
  number : ℤ
  u : User
  uOfiles : Fd → Option FileSlot
  mFile : FileSlot → FileEntry
  /-- `u_ar0[EAX]`. -/
  eax : ℤ

namespace OpenCall

variable (c : OpenCall)

/-- Set `u_error`. -/
def setError (error : ErrorCode) : OpenCall := { c with fs := { c.fs with uError := error } }

/-- The in-core inode of the file, as the next `IGet` finds or makes it. -/
def current : Inode :=
  if c.ino.iCount = 0 then
    icopy { c.ino with iFlag := ILOCK, iNumber := c.number, iCount := 1, iLastr := -1 }
      (c.fs.blk (inodeZoneStartSector + c.number.tdiv 8)) c.number
  else
    { c.ino with iFlag := c.ino.iFlag ||| ILOCK, iCount := c.ino.iCount + 1 }

/-- `InodeTable::IGet`, which ends `NameI`. -/
def iGet : Except Stop OpenCall :=
  if c.ino.iCount ≠ 0 ∧ c.ino.iFlag &&& ILOCK ≠ 0 then .error .sleeps
  else .ok { c with ino := c.current }

/-- Change an entry of the table of open files. -/
def setFile (f : FileSlot) (e : FileEntry) : OpenCall :=
  { c with mFile := Function.update c.mFile f e }

/-- `OpenFiles::SetF`. -/
def setF (fd : Fd) (f : Option FileSlot) : OpenCall :=
  { c with uOfiles := Function.update c.uOfiles fd f }

/-- The search that `Access` is told about: only the ids, the inode and the super block count. -/
def asSearch : Search := startSearch c.fs c.ino c.u c.u.uDbuf c.u.uDirp

/-- `FileManager::Access`, with the error it sets. -/
def checkAccess (mode : UInt32) : OpenCall :=
  match access c.asSearch mode with
  | some error => c.setError error
  | none => c

end OpenCall

def FREAD : UInt32 := 0x1
def FWRITE : UInt32 := 0x2
def IREAD : UInt32 := 0x100

/-! ### Open files -/

/-- `OpenFileTable::FAlloc`: the descriptor and the entry of the table. -/
def fAlloc (c : OpenCall) : Option (Fd × FileSlot) × OpenCall :=
  match (List.finRange 15).find? fun fd => c.uOfiles fd = none with
  | none => (none, { c.setError .EMFILE with eax := -1 })
  | some fd =>
    let c : OpenCall := { c with eax := (fd.val : ℕ) }
    match (List.finRange 100).find? fun f => (c.mFile f).fCount = 0 with
    | none => (none, c.setError .ENFILE)
    | some f =>
      let e := c.mFile f
      (some (fd, f), (c.setF fd (some f)).setFile f { e with fCount := e.fCount + 1, fOffset := 0 })

section

-- `openDevice` is the error that the `Open` of a device reports, `ENXIO` if there is no such one
variable (buffer : ℤ → Block) (time : ℤ) (openDevice : Inode → Option ErrorCode)

/-- `Inode::OpenI`. -/
def openI (ino : Inode) : Option ErrorCode :=
  if ino.iMode &&& IFMT = IFCHR ∨ ino.iMode &&& IFMT = IFBLK then openDevice ino else none

/-- `InodeTable::IPut` of the inode of the call. -/
def iPut (c : OpenCall) : Except Stop OpenCall := do
  let (ino, fs) ← iput buffer c.fs c.ino time
  return { c with ino := ino, fs := fs }

/-- The checks of `Open1`; writing a directory is refused whatever its mode is. -/
def checkOpen (c : OpenCall) (mode : UInt32) : OpenCall :=
  let c := if mode &&& FREAD ≠ 0 then c.checkAccess IREAD else c
  if mode &&& FWRITE ≠ 0 then
    let c := c.checkAccess IWRITE
    if c.ino.iMode &&& IFMT = IFDIR then c.setError .EISDIR else c
  else c

/-- The part of `Open1` that makes the open file. -/
def openFile (c : OpenCall) (mode : UInt32) : Except Stop OpenCall :=
  match fAlloc c with
  | (none, c) => iPut buffer time c
  | (some (fd, f), c) =>
    let e := c.mFile f
    let c := c.setFile f { e with fFlag := mode &&& (FREAD ||| FWRITE), fInode := c.slot }
    match openI openDevice c.ino with
    | none => .ok c
    | some error =>
      let c := c.setError error
      let e := c.mFile f
      let c := if c.eax ≠ -1 then (c.setF fd none).setFile f { e with fCount := e.fCount - 1 } else c
      iPut buffer time c

/-- `FileManager::Open1`. -/
def open1 (c : OpenCall) (mode : UInt32) (trf : ℕ) : Except Stop OpenCall := do
  let c := if trf ≠ 2 then checkOpen c mode else c
  if c.fs.uError ≠ .NOERROR then
    iPut buffer time c
  else
    let (ino, fs) ← if trf = 1 then itrunc buffer c.fs c.ino else .ok (c.ino, c.fs)
    openFile buffer time openDevice { c with ino := ino.prele, fs := fs } mode

/-- `FileManager::Creat` of a file that exists.  The mode is changed in the entry of the table,
also when `Open1` has given it back. -/
def creat (c : OpenCall) (mode : UInt32) : Except Stop OpenCall := do
  let c ← c.iGet
  let c ← open1 buffer time openDevice c FWRITE 1
  return { c with ino := { c.ino with iMode := c.ino.iMode ||| newACCMode mode } }

end

end FileManager

/-! ### Back to the disk -/

namespace Inode

variable {ino ino' : Inode} {s s' : FsState} {buffer : ℤ → Block} {time : ℤ}

theorem int16_bounds (x : ℤ) : -2 ^ 15 ≤ int16 x ∧ int16 x < 2 ^ 15 := by
  unfold int16
  omega

/-- Numbers that fit the fields of an inode on the disk. -/
structure Fits (ino : Inode) : Prop where
  nlink : -2 ^ 31 ≤ ino.iNlink ∧ ino.iNlink < 2 ^ 31
  size : -2 ^ 31 ≤ ino.iSize ∧ ino.iSize < 2 ^ 31
  addr : ∀ k < 10, -2 ^ 31 ≤ ino.iAddr k ∧ ino.iAddr k < 2 ^ 31
  uid : -2 ^ 15 ≤ ino.iUid ∧ ino.iUid < 2 ^ 15
  gid : -2 ^ 15 ≤ ino.iGid ∧ ino.iGid < 2 ^ 15

theorem icopy_word (ino : Inode) (b : Block) (n : ℕ) (time : ℤ) {k : ℕ} (hk : k < 16) :
    getInt (setInts b (16 * n) (ino.diskInode time) 16) (16 * n + k) =
      int32 (ino.diskInode time k) := getInt_setInts b (16 * n) _ 16 hk

/-- `ICopy` reads the mode that `IUpdate` wrote. -/
theorem iMode_icopy (x : Inode) (b : Block) (number : ℤ) :
    (icopy x (setInts b (16 * (number.tmod 8).toNat) (ino.diskInode time) 16) number).iMode =
      ino.iMode := by
  have hw := icopy_word ino b (number.tmod 8).toNat time (k := 0) (by omega)
  change UInt32.ofNat (getInt _ (16 * (number.tmod 8).toNat + 0) % 2 ^ 32).toNat = _
  have hlt := ino.iMode.toNat_lt
  have heq : (int32 (ino.diskInode time 0) % 2 ^ 32).toNat = ino.iMode.toNat := by
    change (int32 (ino.iMode.toNat : ℤ) % 2 ^ 32).toNat = _
    rw [int32_eq]
    omega
  rw [hw, heq, UInt32.ofNat_toNat]

/-- And the other attributes. -/
theorem attributes_icopy (h : ino.Fits) (x : Inode) (b : Block) (number : ℤ) :
    (icopy x (setInts b (16 * (number.tmod 8).toNat) (ino.diskInode time) 16) number).attributes =
      ino.attributes := by
  have hw {k : ℕ} (hk : k < 16) := icopy_word ino b (number.tmod 8).toNat time hk
  have hmode : UInt32.ofNat (int32 (ino.diskInode time 0) % 2 ^ 32).toNat = ino.iMode := by
    rw [← hw (k := 0) (by omega)]
    exact iMode_icopy x b number
  have hid : int32 (ino.diskInode time 2) =
      int32 (ino.iUid % 2 ^ 16 + 2 ^ 16 * (ino.iGid % 2 ^ 16)) := rfl
  have huid := h.uid
  have hgid := h.gid
  have hids : int16 (int32 (ino.diskInode time 2)) = ino.iUid ∧
      int16 (int32 (ino.diskInode time 2) / 2 ^ 16) = ino.iGid := by
    rw [hid, int32_eq]
    unfold int16
    omega
  have haddr : (List.range 10).map (fun k => if k < 10 then
      getInt (setInts b (16 * (number.tmod 8).toNat) (ino.diskInode time) 16)
        (16 * (number.tmod 8).toNat + (4 + k)) else x.iAddr k) = (List.range 10).map ino.iAddr := by
    apply List.map_congr_left
    intro k hk
    have hk : k < 10 := by simpa using hk
    rw [if_pos hk, hw (by omega)]
    have hword : ino.diskInode time (4 + k) = ino.iAddr k := by
      interval_cases k <;> rfl
    rw [hword, int32_of_bounds (h.addr k hk).1 (h.addr k hk).2]
  unfold attributes icopy
  dsimp only
  rw [haddr, hw (k := 0) (by omega), hw (k := 1) (by omega), hw (k := 2) (by omega),
    hw (k := 3) (by omega), hmode, hids.1, hids.2]
  congr 1
  · exact int32_of_bounds h.size.1 h.size.2
  · exact int32_of_bounds h.nlink.1 h.nlink.2

/-- An inode that came from the disk fits there. -/
theorem fits_icopy (x : Inode) (b : Block) (number : ℤ) : (icopy x b number).Fits := by
  refine ⟨getInt_bounds _ _, getInt_bounds _ _, ?_, int16_bounds _, int16_bounds _⟩
  intro k hk
  change -2 ^ 31 ≤ (if k < 10 then _ else _) ∧ (if k < 10 then _ else _) < 2 ^ 31
  rw [if_pos hk]
  exact getInt_bounds _ _

/-- The attributes do not depend on what the entry of the table held before. -/
theorem attributes_icopy_congr (x y : Inode) (b : Block) (number : ℤ) :
    (icopy x b number).attributes = (icopy y b number).attributes := by
  have haddr : (List.range 10).map (icopy x b number).iAddr =
      (List.range 10).map (icopy y b number).iAddr := by
    apply List.map_congr_left
    intro k hk
    have hk : k < 10 := by simpa using hk
    change (if k < 10 then _ else _) = (if k < 10 then _ else _)
    rw [if_pos hk, if_pos hk]
  unfold attributes
  rw [haddr]
  rfl

theorem iupdate_clean (h : ino.iFlag &&& (IUPD ||| IACC) = 0) :
    iupdate s ino time = .ok s := by
  unfold iupdate
  rw [if_pos h]
  rfl

/-- Others hold a reference too: the inode stays. -/
theorem iput_shared (hcount : ino.iCount ≠ 1) (h : iput buffer s ino time = .ok (ino', s')) :
    s' = s ∧ ∃ iFlag', ino' = { ino with iCount := ino.iCount - 1, iFlag := iFlag' } := by
  unfold iput release at h
  rw [if_neg hcount] at h
  cases h
  obtain ⟨iFlag', hprele⟩ := prele_eq { ino with iCount := ino.iCount - 1 }
  exact ⟨rfl, iFlag', hprele⟩

/-- Nobody else does, and the inode has a name: it goes back to the disk. -/
theorem iput_last (hcount : ino.iCount = 1) (hnlink : 0 < ino.iNlink)
    (h : iput buffer s ino time = .ok (ino', s')) :
    ino'.iCount = 0 ∧ iupdate s { ino with iFlag := ino.iFlag ||| ILOCK } time = .ok s' := by
  have hlink : ¬ ino.iNlink ≤ 0 := by omega
  unfold iput release Inode.discard at h
  dsimp only at h
  rw [if_pos hcount, if_neg hlink] at h
  obtain ⟨⟨ino₁, s₁⟩, h₁, h⟩ := Except.bind_eq_ok.mp h
  obtain ⟨⟨ino₂, s₂⟩, h₂, h₁⟩ := Except.bind_eq_ok.mp h₁
  obtain ⟨s₃, h₃, h₁⟩ := Except.bind_eq_ok.mp h₁
  cases h₂
  cases h₁
  cases h
  refine ⟨?_, h₃⟩
  obtain ⟨iFlag', hprele⟩ := prele_eq { ino with iFlag := ino.iFlag ||| ILOCK }
  obtain ⟨iFlag'', hprele'⟩ := prele_eq { prele { ino with iFlag := ino.iFlag ||| ILOCK } with
    iFlag := 0, iNumber := -1, iCount := (prele { ino with iFlag := ino.iFlag ||| ILOCK }).iCount - 1 }
  refine (congrArg Inode.iCount hprele').trans ?_
  change (prele { ino with iFlag := ino.iFlag ||| ILOCK }).iCount - 1 = 0
  rw [hprele]
  change ino.iCount - 1 = 0
  omega

/-- What `IUpdate` writes. -/
theorem iupdate_dirty (h : ino.iFlag &&& (IUPD ||| IACC) ≠ 0) (hronly : (getFS s.sb).sRonly = 0)
    (heq : iupdate s ino time = .ok s') :
    s'.blk (inodeZoneStartSector + ino.iNumber.tdiv 8) =
      setInts (s.blk (inodeZoneStartSector + ino.iNumber.tdiv 8))
        (16 * (ino.iNumber.tmod 8).toNat) (ino.diskInode time) 16 := by
  unfold iupdate at heq
  rw [if_neg h] at heq
  dsimp only at heq
  rw [if_neg (by simpa using hronly)] at heq
  split at heq
  · cases heq
  · cases heq
    exact Function.update_self _ _ _

end Inode

/-! ### Truncation, whatever the blocks are -/

namespace Inode

variable {ino ino' : Inode} {s s' : FsState} {buffer : ℤ → Block}

theorem free_fields {b : ℤ} (h : free buffer s b = .ok s') :
    s'.uError = s.uError ∧ s'.sb.sRonly = s.sb.sRonly := by
  have hronly : (getFS s.sb).sRonly = s.sb.sRonly := by
    unfold getFS
    split <;> rfl
  unfold free at h
  dsimp only at h
  split at h
  · cases h
  · split at h
    · cases h
      exact ⟨rfl, hronly⟩
    · obtain ⟨sb, hpush, hs⟩ := Except.bind_eq_ok.mp h
      cases hs
      refine ⟨rfl, ?_⟩
      unfold pushFree at hpush
      obtain ⟨sFree, -, hsb⟩ := Except.bind_eq_ok.mp hpush
      cases hsb
      refine Eq.trans ?_ hronly
      change (ite _ _ _ : SuperBlock).sRonly = _
      split <;> split <;> rfl

/-- What freeing any blocks leaves alone. -/
def Quiet (s s' : FsState) : Prop := s'.uError = s.uError ∧ s'.sb.sRonly = s.sb.sRonly

theorem Quiet.trans {s'' : FsState} (h : Quiet s s') (h' : Quiet s' s'') : Quiet s s'' :=
  ⟨h'.1.trans h.1, h'.2.trans h.2⟩

/-- What each `Free` keeps, the loop over a table of data blocks keeps. -/
theorem freeEntries_keeps {I : FsState → Prop}
    (hI : ∀ s b s', I s → free buffer s b = .ok s' → I s') {table : ℕ → ℤ} {n : ℕ} (hs : I s)
    (h : freeEntries buffer table n s = .ok s') : I s' := by
  induction n generalizing s with
  | zero =>
    cases h
    exact hs
  | succ n ih =>
    unfold freeEntries at h
    dsimp only at h
    split at h
    · obtain ⟨s₁, h₁, h₂⟩ := Except.bind_eq_ok.mp h
      exact ih (hI _ _ _ hs h₁) h₂
    · exact ih hs h

/-- And the loop over an index block. -/
theorem freeTables_keeps {I : FsState → Prop}
    (hI : ∀ s b s', I s → free buffer s b = .ok s' → I s') {double : Bool} {first : ℕ → ℤ} {n : ℕ}
    (hs : I s) (h : freeTables buffer double first n s = .ok s') : I s' := by
  induction n generalizing s with
  | zero =>
    cases h
    exact hs
  | succ n ih =>
    unfold freeTables at h
    dsimp only at h
    have hrest {s₁ : FsState} (hs₁ : I s₁) (h : (free buffer s₁ (first n) >>= fun s =>
        freeTables buffer double first n s) = .ok s') : I s' := by
      obtain ⟨s₂, h₁, h₂⟩ := Except.bind_eq_ok.mp h
      exact ih (hI _ _ _ hs₁ h₁) h₂
    split at h
    · split at h
      · obtain ⟨s₁, h₁, h₂⟩ := Except.bind_eq_ok.mp h
        exact hrest (freeEntries_keeps hI hs h₁) h₂
      · exact hrest hs h
    · exact ih hs h

theorem freeTables_quiet {double : Bool} {first : ℕ → ℤ} {n : ℕ}
    (h : freeTables buffer double first n s = .ok s') : Quiet s s' :=
  freeTables_keeps (I := Quiet s) (fun _ _ _ hs hfree => hs.trans (free_fields hfree)) ⟨rfl, rfl⟩ h

/-- Whatever blocks hang on the inode, its elements are cleared and nothing else is. -/
theorem freeAddrs_fields {n : ℕ} (hn : n ≤ 10) (h : freeAddrs buffer n s ino = .ok (ino', s')) :
    Quiet s s' ∧ ino' = { ino with iAddr := ino'.iAddr } ∧ (∀ k < n, ino'.iAddr k = 0) ∧
      (∀ k, n ≤ k → ino'.iAddr k = ino.iAddr k) ∧ ((∀ k < n, ino.iAddr k = 0) → s' = s) := by
  induction n generalizing s ino with
  | zero =>
    cases h
    exact ⟨⟨rfl, rfl⟩, rfl, fun k hk => absurd hk (Nat.not_lt_zero k), fun _ _ => rfl, fun _ => rfl⟩
  | succ n ih =>
    unfold freeAddrs at h
    dsimp only at h
    have hrest {s₁ : FsState} (hne : ino.iAddr n ≠ 0) (hquiet₁ : Quiet s s₁)
        (h : (free buffer s₁ (ino.iAddr n) >>= fun s => freeAddrs buffer n s
          { ino with iAddr := Function.update ino.iAddr n 0 }) = .ok (ino', s')) :
        Quiet s s' ∧ ino' = { ino with iAddr := ino'.iAddr } ∧ (∀ k < n + 1, ino'.iAddr k = 0) ∧
          (∀ k, n + 1 ≤ k → ino'.iAddr k = ino.iAddr k) ∧
          ((∀ k < n + 1, ino.iAddr k = 0) → s' = s) := by
      obtain ⟨s₂, h₁, h⟩ := Except.bind_eq_ok.mp h
      obtain ⟨hquiet, hino, hlt, hge, -⟩ := ih (by omega) h
      refine ⟨hquiet₁.trans (Quiet.trans (free_fields h₁) hquiet), hino, ?_, ?_, ?_⟩
      · intro k hk
        rcases Nat.lt_succ_iff_lt_or_eq.mp hk with hk | rfl
        · exact hlt k hk
        · exact (hge k (Nat.le_refl k)).trans (Function.update_self _ _ _)
      · intro k hk
        exact (hge k (by omega)).trans (Function.update_of_ne (by omega) _ _)
      · intro hzero
        exact absurd (hzero n (Nat.lt_succ_self n)) hne
    split at h
    · next hne =>
      split at h
      · obtain ⟨s₁, h₁, h⟩ := Except.bind_eq_ok.mp h
        exact hrest hne (freeTables_quiet h₁) h
      · exact hrest hne ⟨rfl, rfl⟩ h
    · next hzero =>
      have hzero : ino.iAddr n = 0 := not_not.mp hzero
      obtain ⟨hquiet, hino, hlt, hge, hsame⟩ := ih (by omega) h
      refine ⟨hquiet, hino, ?_, fun k hk => hge k (by omega), fun h0 => hsame fun k hk => h0 k (by omega)⟩
      intro k hk
      rcases Nat.lt_succ_iff_lt_or_eq.mp hk with hk | rfl
      · exact hlt k hk
      · exact (hge k (Nat.le_refl k)).trans hzero

/-- **`ITrunc`** of a file that is not a device. -/
theorem itrunc_fields (hdev : ino.isDevice = false) (h : itrunc buffer s ino = .ok (ino', s')) :
    Quiet s s' ∧ (∀ k < 10, ino'.iAddr k = 0) ∧ ((∀ k < 10, ino.iAddr k = 0) → s' = s) ∧
      ino' = { ino with
        iAddr := ino'.iAddr
        iSize := 0
        iFlag := ino.iFlag ||| IUPD
        iNlink := 1 } := by
  unfold itrunc at h
  rw [hdev] at h
  obtain ⟨⟨ino₁, s₁⟩, h₁, h⟩ := Except.bind_eq_ok.mp h
  obtain ⟨hquiet, hino, hlt, -, hsame⟩ := freeAddrs_fields (Nat.le_refl 10) h₁
  cases h
  refine ⟨hquiet, hlt, hsame, ?_⟩
  rw [hino, iMode_trunc]

theorem itrunc_device (hdev : ino.isDevice = true) : itrunc buffer s ino = .ok (ino, s) := by
  unfold itrunc
  rw [hdev]
  rfl

end Inode

/-! ### A call that fails -/

namespace FileManager

open Inode

variable {c c' : OpenCall} {buffer : ℤ → Block} {time : ℤ}
variable {openDevice : Inode → Option ErrorCode} {mode : UInt32}

/-- The inode before the call: other references are those of open files, the file is one that a
name leads to, and `NameI` has found no error. -/
structure Existing (c : OpenCall) : Prop where
  number_eq : c.ino.iCount ≠ 0 → c.ino.iNumber = c.number
  count_nonneg : 0 ≤ c.ino.iCount
  nlink_pos : 0 < c.current.iNlink
  noError : c.fs.uError = .NOERROR

/-- The call with the inode that `IGet` returns. -/
def got (c : OpenCall) : OpenCall := { c with ino := c.current }

/-- The checks of `Open1` refuse the call. -/
def Denied (c : OpenCall) : Prop :=
  access c.asSearch IWRITE ≠ none ∨ c.ino.iMode &&& IFMT = IFDIR

/-- The file is as it was: its attributes, and the contents of its blocks. -/
def Unchanged (c c' : OpenCall) : Prop :=
  c'.current.attributes = c.current.attributes ∧
    ∀ b ∈ fileBlocks c.fs.blk c.current.iAddr, c'.fs.blk b = c.fs.blk b

/-- The call cannot do harm: nobody else has the file open or it has the permission bits
already, and the call is refused before the file is truncated or there is nothing to lose. -/
def Spared (c : OpenCall) (mode : UInt32) : Prop :=
  (c.ino.iCount = 0 ∨ c.current.iMode ||| newACCMode mode = c.current.iMode) ∧
    (Denied (got c) ∨ c.current.isDevice = true ∨
      (c.current.iSize = 0 ∧ (∀ k < 10, c.current.iAddr k = 0) ∧ c.current.iNlink = 1))

theorem access_ne_noerror {s : Search} {m : UInt32} {e : ErrorCode} (h : access s m = some e) :
    e ≠ .NOERROR := by
  unfold access at h
  dsimp only at h
  rintro rfl
  split_ifs at h <;> cases h

/-- `Open1` checks that the file may be written. -/
theorem checkOpen_write (hc : c.fs.uError = .NOERROR) :
    ∃ e, checkOpen c FWRITE = c.setError e ∧ (e ≠ .NOERROR ↔ Denied c) := by
  have hself : c.setError .NOERROR = c := by
    unfold OpenCall.setError
    rw [← hc]
  have hread : FWRITE &&& FREAD = 0 := by decide
  have hwrite : FWRITE &&& FWRITE ≠ 0 := by decide
  unfold checkOpen Denied OpenCall.checkAccess
  rw [if_neg (not_not.mpr hread), if_pos hwrite]
  dsimp only
  cases hacc : access c.asSearch IWRITE with
  | some e =>
    have he := access_ne_noerror hacc
    by_cases hdir : c.ino.iMode &&& IFMT = IFDIR
    · refine ⟨.EISDIR, if_pos hdir, iff_of_true ?_ (.inr hdir)⟩
      decide
    · exact ⟨e, if_neg hdir, iff_of_true he (.inl (Option.some_ne_none e))⟩
  | none =>
    by_cases hdir : c.ino.iMode &&& IFMT = IFDIR
    · refine ⟨.EISDIR, if_pos hdir, iff_of_true ?_ (.inr hdir)⟩
      decide
    · refine ⟨.NOERROR, (if_neg hdir).trans hself.symm, iff_of_false (not_not.mpr rfl) ?_⟩
      rintro (h | h)
      · exact h rfl
      · exact hdir h

/-- Who may write finds the file system writable. -/
theorem sRonly_of_access {s : Search} (h : access s IWRITE = none) :
    (getFS s.fs.sb).sRonly = 0 := by
  unfold access at h
  by_contra hne
  rw [if_pos ⟨rfl, hne⟩] at h
  cases h

/-- A call that makes no open file gives the inode back, with an error. -/
theorem openFile_fails (hc : c.fs.uError = .NOERROR)
    (h : openFile buffer time openDevice c mode = .ok c') (herr : c'.fs.uError ≠ .NOERROR) :
    ∃ e c₁, c₁.ino = c.ino ∧ c₁.fs = { c.fs with uError := e } ∧ c₁.number = c.number ∧
      iPut buffer time c₁ = .ok c' := by
  unfold openFile fAlloc at h
  cases hfd : (List.finRange 15).find? fun fd => c.uOfiles fd = none with
  | none =>
    rw [hfd] at h
    exact ⟨.EMFILE, { c.setError .EMFILE with eax := -1 }, rfl, rfl, rfl, h⟩
  | some fd =>
    rw [hfd] at h
    dsimp only at h
    cases hf : (List.finRange 100).find? fun f => (c.mFile f).fCount = 0 with
    | none =>
      rw [hf] at h
      exact ⟨.ENFILE, { c.setError .ENFILE with eax := (fd.val : ℕ) }, rfl, rfl, rfl, h⟩
    | some f =>
      rw [hf] at h
      dsimp only at h
      split at h
      · cases h
        exact absurd hc herr
      · next error _ =>
        refine ⟨error, _, ?_, ?_, ?_, h⟩ <;> split <;> rfl

/-- Others have the file open: the inode stays. -/
theorem iPut_shared (hcount : 2 ≤ c.ino.iCount) (h : iPut buffer time c = .ok c') :
    c'.fs = c.fs ∧ c'.number = c.number ∧ c'.ino.iCount = c.ino.iCount - 1 ∧
      c'.ino.attributes = c.ino.attributes := by
  unfold iPut at h
  obtain ⟨⟨ino, fs⟩, hput, h⟩ := Except.bind_eq_ok.mp h
  obtain ⟨rfl, iFlag', rfl⟩ := iput_shared (by omega) hput
  cases h
  exact ⟨rfl, rfl, rfl, rfl⟩

/-- Nobody has: the inode goes back to the disk. -/
theorem iPut_last (hcount : c.ino.iCount = 1) (hnlink : 0 < c.ino.iNlink)
    (h : iPut buffer time c = .ok c') :
    c'.number = c.number ∧ c'.ino.iCount = 0 ∧
      iupdate c.fs { c.ino with iFlag := c.ino.iFlag ||| ILOCK } time = .ok c'.fs := by
  unfold iPut at h
  obtain ⟨⟨ino, fs⟩, hput, h⟩ := Except.bind_eq_ok.mp h
  obtain ⟨hzero, hupdate⟩ := iput_last hcount hnlink hput
  cases h
  exact ⟨rfl, hzero, hupdate⟩

/-- The two ways of the call: refused with the error `e`, or on with the inode truncated. -/
theorem creat_ways (h : Existing c) (hcreat : creat buffer time openDevice c mode = .ok c') :
    ∃ c₂, c' = { c₂ with ino := { c₂.ino with iMode := c₂.ino.iMode ||| newACCMode mode } } ∧
      ((∃ e, e ≠ .NOERROR ∧ Denied (got c) ∧ iPut buffer time ((got c).setError e) = .ok c₂) ∨
        ¬ Denied (got c) ∧ ∃ ino fs, itrunc buffer c.fs c.current = .ok (ino, fs) ∧
          openFile buffer time openDevice { got c with ino := ino.prele, fs := fs } FWRITE =
            .ok c₂) := by
  unfold creat at hcreat
  obtain ⟨c₀, hget, hrest⟩ := Except.bind_eq_ok.mp hcreat
  obtain ⟨c₂, hopen, hend⟩ := Except.bind_eq_ok.mp hrest
  have hc₀ : c₀ = got c := by
    unfold OpenCall.iGet at hget
    split at hget
    · cases hget
    · cases hget
      rfl
  subst hc₀
  cases hend
  obtain ⟨e, hcheck, he⟩ := checkOpen_write (c := got c) h.noError
  have htrf : (1 : ℕ) ≠ 2 := by decide
  unfold open1 at hopen
  rw [if_pos htrf, hcheck] at hopen
  change (if e ≠ .NOERROR then _ else _) = _ at hopen
  refine ⟨c₂, rfl, ?_⟩
  by_cases hdenied : e ≠ .NOERROR
  · rw [if_pos hdenied] at hopen
    exact .inl ⟨e, hdenied, he.mp hdenied, hopen⟩
  · rw [if_neg hdenied, if_pos rfl] at hopen
    obtain ⟨⟨ino, fs⟩, htrunc, hopen⟩ := Except.bind_eq_ok.mp hopen
    have hself : (got c).setError e = got c := by
      unfold OpenCall.setError
      rw [not_not.mp hdenied, ← h.noError]
      rfl
    rw [hself] at htrunc hopen
    exact .inr ⟨mt he.mpr hdenied, ino, fs, htrunc, hopen⟩

/-- Truncation sets no error. -/
theorem itrunc_noError (h : Existing c) {ino : Inode} {fs : FsState}
    (htrunc : itrunc buffer c.fs c.current = .ok (ino, fs)) : fs.uError = .NOERROR := by
  cases hdev : c.current.isDevice with
  | true =>
    rw [itrunc_device hdev] at htrunc
    cases htrunc
    exact h.noError
  | false => exact (itrunc_fields hdev htrunc).1.1.trans h.noError

/-- How a call that fails ends: an inode is given back, and the mode is changed. -/
theorem creat_cases (h : Existing c) (hcreat : creat buffer time openDevice c mode = .ok c')
    (herr : c'.fs.uError ≠ .NOERROR) :
    ∃ c₁ c₂, iPut buffer time c₁ = .ok c₂ ∧ c₁.number = c.number ∧
      c' = { c₂ with ino := { c₂.ino with iMode := c₂.ino.iMode ||| newACCMode mode } } ∧
      ((Denied (got c) ∧ c₁.ino = c.current ∧ c₁.fs.blk = c.fs.blk) ∨
        ¬ Denied (got c) ∧ ∃ ino fs,
          itrunc buffer c.fs c.current = .ok (ino, fs) ∧ c₁.ino = ino.prele ∧
            ∃ e, c₁.fs = { fs with uError := e }) := by
  obtain ⟨c₂, rfl, ⟨e, -, hdenied, hput⟩ | ⟨hnot, ino, fs, htrunc, hopen⟩⟩ := creat_ways h hcreat
  · exact ⟨_, c₂, hput, rfl, rfl, .inl ⟨hdenied, rfl, rfl⟩⟩
  · obtain ⟨e, c₁, hino, hfs, hnumber, hput⟩ := openFile_fails (itrunc_noError h htrunc) hopen herr
    exact ⟨c₁, c₂, hput, hnumber, rfl, .inr ⟨hnot, ino, fs, htrunc, hino, e, hfs⟩⟩

/-- What truncation leaves of the attributes. -/
def Attributes.truncated (a : Attributes) : Attributes :=
  { a with size := 0, addr := List.replicate 10 0, nlink := 1 }

theorem Attributes.truncated_eq_iff {ino : Inode} :
    Attributes.truncated ino.attributes = ino.attributes ↔
      ino.iSize = 0 ∧ (∀ k < 10, ino.iAddr k = 0) ∧ ino.iNlink = 1 := by
  have haddr : List.replicate 10 0 = (List.range 10).map ino.iAddr ↔ ∀ k < 10, ino.iAddr k = 0 := by
    rw [eq_comm, List.eq_replicate_iff]
    simp
  unfold Attributes.truncated attributes
  rw [Attributes.mk.injEq, haddr]
  constructor
  · rintro ⟨hsize, hzero, -, hnlink, -, -⟩
    exact ⟨hsize.symm, hzero, hnlink.symm⟩
  · rintro ⟨hsize, hzero, hnlink⟩
    exact ⟨hsize.symm, hzero, rfl, hnlink.symm, rfl, rfl⟩

theorem attributes_prele (ino : Inode) : ino.prele.attributes = ino.attributes := by
  obtain ⟨iFlag', h⟩ := prele_eq ino
  rw [h]
  rfl

theorem attributes_trunc {ino ino' : Inode} {s s' : FsState} (hdev : ino.isDevice = false)
    (h : itrunc buffer s ino = .ok (ino', s')) :
    ino'.attributes = Attributes.truncated ino.attributes := by
  obtain ⟨-, hzero, -, hino⟩ := itrunc_fields hdev h
  have haddr : (List.range 10).map ino'.iAddr = List.replicate 10 0 := by
    rw [List.eq_replicate_iff]
    simpa using hzero
  unfold attributes Attributes.truncated
  rw [haddr, hino]

theorem fileBlocks_nil {blk : ℤ → Block} {iAddr : ℕ → ℤ} (h : ∀ k < 10, iAddr k = 0) (b : ℤ) :
    b ∉ fileBlocks blk iAddr := by
  intro hb
  obtain ⟨hne, k, p, hp, rfl⟩ := mem_fileBlocks.mp hb
  rw [h k hp.root_lt, IndexTree.walk_zero] at hne
  exact hne rfl

/-- The attributes with further permission bits. -/
def Attributes.grant (a : Attributes) (m : UInt32) : Attributes := { a with mode := a.mode ||| m }

theorem Attributes.grant_eq_iff {a b : Attributes} {m : UInt32} (hmode : b.mode = a.mode) :
    Attributes.grant b m = a ↔ b = a ∧ a.mode ||| m = a.mode := by
  constructor
  · rintro rfl
    change b.mode = b.mode ||| m at hmode
    refine ⟨?_, ?_⟩
    · unfold Attributes.grant
      rw [← hmode]
    · change b.mode ||| m ||| m = b.mode ||| m
      rw [← hmode, ← hmode]
  · rintro ⟨rfl, h⟩
    unfold Attributes.grant
    rw [h]

/-- The file as others find it that have it open. -/
theorem attributes_shared (h : c.ino.iCount ≠ 0) : c.current.attributes = c.ino.attributes := by
  unfold OpenCall.current
  rw [if_neg h]
  rfl

/-- The file as it is on the disk. -/
theorem attributes_last (h : c.ino.iCount = 0) (x : Inode) : c.current.attributes =
    (icopy x (c.fs.blk (inodeZoneStartSector + c.number.tdiv 8)) c.number).attributes := by
  unfold OpenCall.current
  rw [if_pos h]
  exact attributes_icopy_congr _ _ _ _

theorem fits_current (h : c.ino.iCount = 0) : c.current.Fits := by
  unfold OpenCall.current
  rw [if_pos h]
  exact fits_icopy _ _ _

/-- The inode that `IGet` returns. -/
theorem current_fields (h : Existing c) : c.current.iNumber = c.number ∧
    c.current.iCount = c.ino.iCount + 1 ∧ (c.ino.iCount = 0 → c.current.iFlag = ILOCK) := by
  unfold OpenCall.current
  by_cases hcount : c.ino.iCount = 0
  · rw [if_pos hcount]
    refine ⟨rfl, ?_, fun _ => rfl⟩
    change 1 = c.ino.iCount + 1
    omega
  · rw [if_neg hcount]
    exact ⟨h.number_eq hcount, rfl, fun h0 => absurd h0 hcount⟩

/-- The file after a call that gave back the inode of `c₁`: as others find it, with the new
permission bits, or as it is on the disk, without them. -/
theorem attributes_after {c₁ c₂ : OpenCall} (h : Existing c) (hput : iPut buffer time c₁ = .ok c₂)
    (hnumber : c₁.number = c.number) (hcount : c₁.ino.iCount = c.ino.iCount + 1)
    (hc' : c' = { c₂ with ino := { c₂.ino with iMode := c₂.ino.iMode ||| newACCMode mode } }) :
    (c.ino.iCount ≠ 0 → c'.fs = c₁.fs ∧
      c'.current.attributes = Attributes.grant c₁.ino.attributes (newACCMode mode)) ∧
    (c.ino.iCount = 0 → 0 < c₁.ino.iNlink →
      iupdate c₁.fs { c₁.ino with iFlag := c₁.ino.iFlag ||| ILOCK } time = .ok c'.fs ∧
        ∀ x, c'.current.attributes =
          (icopy x (c'.fs.blk (inodeZoneStartSector + c.number.tdiv 8)) c.number).attributes) := by
  have hnonneg := h.count_nonneg
  refine ⟨fun hne => ?_, fun h0 hnlink => ?_⟩
  · obtain ⟨hfs, -, hcount₂, hattr⟩ := iPut_shared (by omega) hput
    have hne' : c'.ino.iCount ≠ 0 := by
      rw [hc']
      change c₂.ino.iCount ≠ 0
      omega
    refine ⟨by rw [hc']; exact hfs, ?_⟩
    rw [attributes_shared hne', ← hattr, hc']
    rfl
  · obtain ⟨hnumber₂, hcount₂, hupdate⟩ := iPut_last (by omega) hnlink hput
    have h0' : c'.ino.iCount = 0 := by
      rw [hc']
      exact hcount₂
    have hnumber' : c'.number = c.number := by
      rw [hc']
      exact hnumber₂.trans hnumber
    refine ⟨by rw [hc']; exact hupdate, fun x => ?_⟩
    rw [attributes_last h0' x, hnumber']

/-- The inode was given back as `IGet` had returned it: only the permission bits may differ. -/
theorem unchanged_kept {c₁ c₂ : OpenCall} (h : Existing c) (hput : iPut buffer time c₁ = .ok c₂)
    (hnumber : c₁.number = c.number)
    (hc' : c' = { c₂ with ino := { c₂.ino with iMode := c₂.ino.iMode ||| newACCMode mode } })
    (hino : c₁.ino = c.current ∨ c₁.ino = c.current.prele) (hblk : c₁.fs.blk = c.fs.blk) :
    Unchanged c c' ↔ c.ino.iCount = 0 ∨ c.current.iMode ||| newACCMode mode = c.current.iMode := by
  obtain ⟨-, hcount, hflag⟩ := current_fields h
  have hprele := prele_eq c.current
  obtain ⟨iFlag', hprele⟩ := hprele
  have hattr : c₁.ino.attributes = c.current.attributes := by
    rcases hino with hino | hino
    · rw [hino]
    · rw [hino, attributes_prele]
  have hcount₁ : c₁.ino.iCount = c.ino.iCount + 1 := by
    rcases hino with hino | hino
    · rw [hino, hcount]
    · rw [hino, hprele, ← hcount]
  have hnlink : 0 < c₁.ino.iNlink := by
    refine lt_of_lt_of_eq h.nlink_pos ?_
    exact (congrArg Attributes.nlink hattr).symm
  obtain ⟨hshared, hlast⟩ := attributes_after h hput hnumber hcount₁ hc'
  by_cases h0 : c.ino.iCount = 0
  · obtain ⟨hupdate, hafter⟩ := hlast h0 hnlink
    have hclean : ({ c₁.ino with iFlag := c₁.ino.iFlag ||| ILOCK } : Inode).iFlag &&&
        (IUPD ||| IACC) = 0 := by
      change (c₁.ino.iFlag ||| ILOCK) &&& (IUPD ||| IACC) = 0
      rcases hino with hino | hino
      · rw [hino, hflag h0]
        decide
      · have hflag' : c.current.prele.iFlag = 0 := by
          unfold prele
          dsimp only
          have hwant : ¬ (ILOCK &&& ~~~ILOCK) &&& IWANT ≠ 0 := by decide
          rw [hflag h0, if_neg hwant]
          rfl
        rw [hino, hflag']
        decide
    rw [iupdate_clean hclean] at hupdate
    have hblk' : c'.fs.blk = c.fs.blk := (congrArg FsState.blk (Except.ok.inj hupdate)).symm.trans hblk
    refine iff_of_true ⟨?_, fun b _ => by rw [hblk']⟩ (.inl h0)
    rw [hafter c.ino, attributes_last h0 c.ino, hblk']
  · obtain ⟨hfs, hafter⟩ := hshared h0
    have hblk' : c'.fs.blk = c.fs.blk := by rw [hfs, hblk]
    have hgrant := Attributes.grant_eq_iff (m := newACCMode mode) (congrArg Attributes.mode hattr)
    unfold Unchanged
    rw [hafter, hgrant]
    constructor
    · rintro ⟨⟨-, hmode⟩, -⟩
      exact .inr hmode
    · rintro (h0' | hmode)
      · exact absurd h0' h0
      · exact ⟨⟨hattr, hmode⟩, fun b _ => by rw [hblk']⟩

/-- The inode was given back after it had been truncated. -/
theorem unchanged_truncated {c₁ c₂ : OpenCall} {ino : Inode} {fs : FsState} {e : ErrorCode}
    (h : Existing c) (hput : iPut buffer time c₁ = .ok c₂) (hnumber : c₁.number = c.number)
    (hc' : c' = { c₂ with ino := { c₂.ino with iMode := c₂.ino.iMode ||| newACCMode mode } })
    (hdev : c.current.isDevice = false) (hronly : (getFS c.fs.sb).sRonly = 0)
    (htrunc : itrunc buffer c.fs c.current = .ok (ino, fs)) (hino : c₁.ino = ino.prele)
    (hfs : c₁.fs = { fs with uError := e }) :
    Unchanged c c' ↔ (c.ino.iCount = 0 ∨ c.current.iMode ||| newACCMode mode = c.current.iMode) ∧
      c.current.iSize = 0 ∧ (∀ k < 10, c.current.iAddr k = 0) ∧ c.current.iNlink = 1 := by
  obtain ⟨hnumber', hcount, hflag⟩ := current_fields h
  obtain ⟨hquiet, hzero, -, hcleared⟩ := itrunc_fields hdev htrunc
  obtain ⟨iFlag', hprele⟩ := prele_eq ino
  have hattr : c₁.ino.attributes = Attributes.truncated c.current.attributes := by
    rw [hino, attributes_prele, attributes_trunc hdev htrunc]
  have hcount₁ : c₁.ino.iCount = c.ino.iCount + 1 := by
    rw [hino, hprele, ← hcount, hcleared]
  have hnlink : 0 < c₁.ino.iNlink := by
    rw [hino, hprele, hcleared]
    exact Int.one_pos
  obtain ⟨hshared, hlast⟩ := attributes_after h hput hnumber hcount₁ hc'
  rw [← Attributes.truncated_eq_iff]
  -- an empty file has no blocks whose contents could change
  have hcontents : Attributes.truncated c.current.attributes = c.current.attributes →
      ∀ b ∈ fileBlocks c.fs.blk c.current.iAddr, c'.fs.blk b = c.fs.blk b := by
    intro htr b hb
    exact absurd hb (fileBlocks_nil (Attributes.truncated_eq_iff.mp htr).2.1 b)
  by_cases h0 : c.ino.iCount = 0
  · obtain ⟨hupdate, hafter⟩ := hlast h0 hnlink
    have hflag' : c₁.ino.iFlag = IUPD := by
      have hwant : ¬ ((ILOCK ||| IUPD) &&& ~~~ILOCK) &&& IWANT ≠ 0 := by decide
      rw [hino, hcleared, hflag h0]
      unfold prele
      dsimp only
      rw [if_neg hwant]
      rfl
    have hdirty : ({ c₁.ino with iFlag := c₁.ino.iFlag ||| ILOCK } : Inode).iFlag &&&
        (IUPD ||| IACC) ≠ 0 := by
      change (c₁.ino.iFlag ||| ILOCK) &&& (IUPD ||| IACC) ≠ 0
      rw [hflag']
      decide
    have hnumber₁ : c₁.ino.iNumber = c.number := by
      rw [hino, hprele, ← hnumber', hcleared]
    have hronly₁ : (getFS c₁.fs.sb).sRonly = 0 := by
      have hgetFS (sb : SuperBlock) : (getFS sb).sRonly = sb.sRonly := by
        unfold getFS
        split <;> rfl
      rw [hgetFS] at hronly ⊢
      rw [hfs]
      exact hquiet.2.trans hronly
    have hblk := iupdate_dirty hdirty hronly₁ hupdate
    have hfits : ({ c₁.ino with iFlag := c₁.ino.iFlag ||| ILOCK } : Inode).Fits := by
      have hfits := fits_current h0
      have hsize : c₁.ino.iSize = 0 := congrArg Attributes.size hattr
      have hone : c₁.ino.iNlink = 1 := congrArg Attributes.nlink hattr
      have huid : c₁.ino.iUid = c.current.iUid := congrArg Attributes.uid hattr
      have hgid : c₁.ino.iGid = c.current.iGid := congrArg Attributes.gid hattr
      have haddr : ∀ k < 10, c₁.ino.iAddr k = 0 := by
        rw [hino, hprele]
        exact hzero
      refine ⟨?_, ?_, fun k hk => ?_, ?_, ?_⟩
      · exact hone ▸ by decide
      · exact hsize ▸ by decide
      · exact haddr k hk ▸ by decide
      · exact huid ▸ hfits.uid
      · exact hgid ▸ hfits.gid
    have hattr' : c'.current.attributes = Attributes.truncated c.current.attributes := by
      change c'.fs.blk (inodeZoneStartSector + c₁.ino.iNumber.tdiv 8) = _ at hblk
      rw [hnumber₁] at hblk
      rw [hafter c.ino, hblk]
      refine (attributes_icopy hfits _ _ _).trans ?_
      exact hattr
    unfold Unchanged
    rw [hattr']
    constructor
    · rintro ⟨htr, -⟩
      exact ⟨.inl h0, htr⟩
    · rintro ⟨-, htr⟩
      exact ⟨htr, hcontents htr⟩
  · obtain ⟨-, hafter⟩ := hshared h0
    have hmode : c₁.ino.attributes.mode = c.current.attributes.mode := by rw [hattr]; rfl
    have hgrant := Attributes.grant_eq_iff (m := newACCMode mode) hmode
    unfold Unchanged
    rw [hafter, hgrant, hattr]
    constructor
    · rintro ⟨⟨htr, hm⟩, -⟩
      exact ⟨.inr hm, htr⟩
    · rintro ⟨h0' | hm, htr⟩
      · exact absurd h0' h0
      · exact ⟨⟨htr, hm⟩, hcontents htr⟩

/-- **A failed `Creat` of a file that exists leaves it as it was** if and only if the call is
spared: the mode is changed after the inode has been given back, and the file is truncated before
the descriptor is there. -/
theorem creat_fails_iff (h : Existing c) (hcreat : creat buffer time openDevice c mode = .ok c')
    (herr : c'.fs.uError ≠ .NOERROR) : Unchanged c c' ↔ Spared c mode := by
  obtain ⟨c₁, c₂, hput, hnumber, hc', hcase⟩ := creat_cases h hcreat herr
  unfold Spared
  rcases hcase with ⟨hdenied, hino, hblk⟩ | ⟨hnot, ino, fs, htrunc, hino, e, hfs⟩
  · rw [unchanged_kept h hput hnumber hc' (.inl hino) hblk]
    exact (and_iff_left (.inl hdenied)).symm
  · cases hdev : c.current.isDevice with
    | true =>
      rw [itrunc_device hdev] at htrunc
      cases htrunc
      rw [unchanged_kept h hput hnumber hc' (.inr hino) (by rw [hfs])]
      exact (and_iff_left (.inr (.inl rfl))).symm
    | false =>
      have hacc : access (got c).asSearch IWRITE = none := by
        by_contra hne
        exact hnot (.inl hne)
      rw [unchanged_truncated h hput hnumber hc' hdev (sRonly_of_access hacc) htrunc hino hfs]
      refine and_congr_right fun _ => ?_
      constructor
      · intro hempty
        exact .inr (.inr hempty)
      · rintro (hdenied | hdev' | hempty)
        · exact absurd hdenied hnot
        · cases hdev'
        · exact hempty

/-- A file of the super user that everybody may read and nobody may write, open in one process,
and the call of another user. -/
def heldFile : OpenCall where
  fs := ⟨⟨0, fun _ => 0, 0, fun _ => 0, 0, 0, 0, 0⟩, fun _ _ => 0, .NOERROR, 0⟩
  ino := ⟨0, 0x8124, 1, 1, 5, 0, 0, 0, fun _ => 0, -1⟩
  slot := 0
  number := 5
  u := { (default : User) with uUid := 1, uGid := 1 }
  uOfiles := fun _ => none
  mFile := fun _ => ⟨0, 0, 0, 0⟩
  eax := 0

theorem existing_heldFile : Existing heldFile :=
  ⟨fun _ => rfl, by decide, by decide, rfl⟩

/-- Write permission for everybody, which the file does not have. -/
theorem creat_heldFile : ∃ c', creat (fun _ _ => 0) 0 (fun _ => none) heldFile 0x1B6 = .ok c' ∧
    c'.fs.uError = .EACCES ∧ c'.ino.iCount = 1 ∧ c'.ino.iMode = 0x81B6 := by
  exact ⟨_, rfl, rfl, rfl, rfl⟩

theorem creat_fails_iff_heldFile : ∃ c',
    creat (fun _ _ => 0) 0 (fun _ => none) heldFile 0x1B6 = .ok c' ∧
      (Unchanged heldFile c' ↔ Spared heldFile 0x1B6) := by
  obtain ⟨c', hcreat, herr, -, -⟩ := creat_heldFile
  refine ⟨c', hcreat, creat_fails_iff existing_heldFile hcreat ?_⟩
  rw [herr]
  decide

/-- Who may not write the file gives everybody the permission to. -/
theorem not_unchanged : ¬ ∀ (buffer : ℤ → Block) (time : ℤ) (openDevice : Inode → Option ErrorCode)
    (c c' : OpenCall) (mode : UInt32), Existing c →
      creat buffer time openDevice c mode = .ok c' → c'.fs.uError ≠ .NOERROR → Unchanged c c' := by
  intro hall
  obtain ⟨c', hcreat, herr, hcount, hmode⟩ := creat_heldFile
  have hne : c'.fs.uError ≠ .NOERROR := by
    rw [herr]
    decide
  have hattr := (hall _ _ _ _ _ _ existing_heldFile hcreat hne).1
  have hcount' : c'.ino.iCount ≠ 0 := by
    rw [hcount]
    decide
  rw [attributes_shared hcount'] at hattr
  have hbits : c'.ino.iMode = 0x8124 := congrArg Attributes.mode hattr
  rw [hmode] at hbits
  exact absurd hbits (by decide)

end FileManager

end UnixV6pp
