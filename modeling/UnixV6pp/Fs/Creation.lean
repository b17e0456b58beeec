import UnixV6pp.Fs.FileData
import UnixV6pp.Fs.NameRefs

/-!
# Making a new file

When `NameI` has found no file, `Creat` and `MkNod` get a free inode, fill it, and write the record
to the directory that `NameI` left in `u_pdir`, with a reference and locked.  Only the end of
`WriteDir` gives this directory back, and nobody looks at `u_error` before the call ends.

* `InCore.iAlloc` — a free inode.
* `InCore.makNode`, `InCore.creat`, `InCore.mkNod` — the calls.
* `Clean` — what a call should leave that fails.
* `not_clean` — **a call that fails after the lookup leaves something behind**, always.
-/

namespace UnixV6pp

open Words FileSystem Inode FileManager Flags

/-- `Inode::Clean`. -/
def Inode.clean (ino : Inode) : Inode :=
  { ino with
    iMode := 0
    iNlink := 0
    iUid := -1
    iGid := -1
    iSize := 0
    iLastr := -1
    iAddr := fun k => if k < 10 then 0 else ino.iAddr k }

namespace InCore

/-! ### Finding a free inode -/

section IAlloc

-- `sIsize` is `s_isize` of the super block, which no call changes
variable (buffer : ℤ → Block) (time : ℤ) (sIsize : ℕ)

/-- Change the super block. -/
def setSb (c : InCore) (sb : SuperBlock) : InCore := { c with fs := { c.fs with sb := sb } }

/-- The inodes of a sector of the inode zone: those in `numbers` that are free and not in the table
go to `s_inode`, until it is full. -/
def noteInodes (c : InCore) (sector : Block) : List ℕ → SuperBlock → Except Stop SuperBlock
  | [], sb => .ok sb
  | number :: numbers, sb => do
    if getInt sector (16 * (number % 8)) ≠ 0 ∨ c.isLoaded number ≠ none then
      noteInodes c sector numbers sb
    else
      let sInode ← writeAt 100 sb.sInode sb.sNinode number
      let sb := { sb with sInode := sInode, sNinode := sb.sNinode + 1 }
      if sb.sNinode ≥ 100 then return sb else noteInodes c sector numbers sb

/-- The search of the inode zone, sector by sector, until `s_inode` is full. -/
def searchZone (c : InCore) : List ℕ → SuperBlock → Except Stop SuperBlock
  | [], sb => .ok sb
  | i :: is, sb => do
    let sb ← noteInodes c (c.fs.blk (inodeZoneStartSector + i))
      ((List.range 8).map (8 * i + ·)) sb
    if sb.sNinode ≥ 100 then return sb else searchZone c is sb

/-- The loop of `IAlloc` that takes numbers from `s_inode` until one is that of a free inode. -/
def takeInode : ℕ → InCore → Except Stop (Option Slot × InCore)
  | 0, _ => .error .running
  | turns + 1, c => do
    let sb := { c.fs.sb with sNinode := c.fs.sb.sNinode - 1 }
    let ino ← readAt 100 sb.sInode sb.sNinode
    let (r, c) ← (c.setSb sb).iGet ino
    match r with
    | none => return (none, c)
    | some i =>
      if (c.mInode i).iMode = 0 then
        return (some i, c.set i (c.mInode i).clean { c.fs with sb := c.fs.sb.setFmod })
      else
        let c ← c.iPut buffer time i
        takeInode turns c

/-- `FileSystem::IAlloc`. -/
def iAlloc (turns : ℕ) (c : InCore) : Except Stop (Option Slot × InCore) := do
  let sb := getFS c.fs.sb
  if sb.sIlock ≠ 0 then
    throw .sleeps
  if sb.sNinode ≤ 0 then
    let sb ← c.searchZone (List.range sIsize) sb
    -- the lock is taken and let go
    let c := c.setSb { sb with sIlock := 0 }
    if sb.sNinode ≤ 0 then
      return (none, c.setError .ENOSPC)
    else
      takeInode buffer time turns c
  else
    takeInode buffer time turns (c.setSb sb)

end IAlloc

/-! ### The calls -/

/-- What a call works on that makes a file. -/
structure Creation where
  core : InCore
  u : User
  uOfiles : Fd → Option FileSlot
  mFile : FileSlot → FileEntry
  /-- `u_ar0[EAX]`. -/
  eax : ℤ
  /-- The number of the inode that `IAlloc` found for the name; the code keeps no such number. -/
  made : Option ℤ

section Calls

-- `openDevice` is the error that the `Open` of a device reports
variable (buffer : ℤ → Block) (time : ℤ) (openDevice : Inode → Option ErrorCode) (sIsize : ℕ)
  (fuel turns : ℕ) (rootDirInode uCdir : Slot)

/-- `FileManager::WriteDir`, of the inode in the entry `i`, to the directory `uPdir`. -/
def writeDir (s : Creation) (uPdir i : Slot) : Except Stop Creation := do
  let u ← makeEntry s.u (s.core.number i)
  let t ← writeEntry buffer s.core.fs (s.core.mInode uPdir) u
  let core ← (s.core.set uPdir t.ino t.fs).iPut buffer time uPdir
  return { s with core := core, u := { u with mOffset := t.io.mOffset, mCount := t.io.mCount } }

/-- `FileManager::MakNode`. -/
def makNode (s : Creation) (uPdir : Slot) (mode : UInt32) :
    Except Stop (Option Slot × Creation) := do
  let (r, core) ← s.core.iAlloc buffer time sIsize turns
  match r with
  | none => return (none, { s with core := core, made := none })
  | some i =>
    let ino := { core.mInode i with
      iFlag := (core.mInode i).iFlag ||| (IACC ||| IUPD)
      iMode := mode ||| IALLOC
      iNlink := 1
      iUid := s.u.uUid
      iGid := s.u.uGid }
    let s ← writeDir buffer time
      { s with core := core.set i ino core.fs, made := some (core.number i) } uPdir i
    return (some i, s)

/-- `FileManager::Open1` of the inode in the entry `i`. -/
def openSlot (s : Creation) (i : Slot) (mode : UInt32) (trf : ℕ) : Except Stop Creation := do
  let c ← open1 buffer time openDevice
    { fs := s.core.fs
      ino := s.core.mInode i
      slot := i
      number := s.core.number i
      u := s.u
      uOfiles := s.uOfiles
      mFile := s.mFile
      eax := s.eax } mode trf
  return { s with
    core := s.core.set i c.ino c.fs
    uOfiles := c.uOfiles
    mFile := c.mFile
    eax := c.eax }

/-- `FileManager::Creat`. -/
def creat (mode : UInt32) (s : Creation) : Except Stop Creation := do
  let r ← nameI buffer time .CREATE fuel s.core rootDirInode uCdir s.u
  let s := { s with core := r.core, u := r.u }
  match r.pInode, r.uPdir with
  | none, none =>
    -- without `u_pdir` there is an error
    return s
  | none, some uPdir =>
    if r.core.fs.uError ≠ .NOERROR then
      return s
    let (i, s) ← makNode buffer time sIsize turns s uPdir (newACCMode mode &&& ~~~ISVTX)
    match i with
    | none => return s
    | some i => openSlot buffer time openDevice s i FWRITE 2
  | some i, _ => do
    let s ← openSlot buffer time openDevice s i FWRITE 1
    let ino := s.core.mInode i
    return { s with
      core := s.core.set i { ino with iMode := ino.iMode ||| newACCMode mode } s.core.fs }

/-- `FileManager::MkNod`. -/
def mkNod (mode : UInt32) (dev : ℤ) (s : Creation) : Except Stop Creation := do
  if s.u.uUid ≠ 0 then
    return { s with core := s.core.setError .EPERM }
  let r ← nameI buffer time .CREATE fuel s.core rootDirInode uCdir s.u
  let s := { s with core := r.core, u := r.u }
  match r.pInode, r.uPdir with
  | none, none => return s
  | none, some uPdir =>
    if r.core.fs.uError ≠ .NOERROR then
      return s
    let (i, s) ← makNode buffer time sIsize turns s uPdir mode
    match i with
    | none => return s
    | some i =>
      let ino := s.core.mInode i
      let ino := if ino.iMode &&& (IFBLK ||| IFCHR) ≠ 0 then
          { ino with iAddr := Function.update ino.iAddr 0 dev } else ino
      let core ← (s.core.set i ino s.core.fs).iPut buffer time i
      return { s with core := core }
  | some i, _ => do
    let core ← (r.core.setError .EEXIST).iPut buffer time i
    return { s with core := core }

/-- The two calls. -/
inductive Call
  | creat (mode : UInt32)
  | mkNod (mode : UInt32) (dev : ℤ)

/-- The call gets to the lookup: `MkNod` is for the super user. -/
def Call.allowed : Call → Creation → Prop
  | .creat _, _ => True
  | .mkNod _ _, s => s.u.uUid = 0

/-- Run a call. -/
def Call.run : Call → Creation → Except Stop Creation
  | .creat mode => InCore.creat buffer time openDevice sIsize fuel turns rootDirInode uCdir mode
  | .mkNod mode dev => InCore.mkNod buffer time sIsize fuel turns rootDirInode uCdir mode dev

end Calls

/-! ### What a failed call should leave -/

/-- The inode with a number: the entry of the table that holds it, or what the disk holds. -/
def inodeOf (c : InCore) (number : ℤ) : Inode :=
  match c.isLoaded number with
  | some i => c.mInode i
  | none => icopy ⟨0, 0, 0, 0, number, 0, 0, 0, fun _ => 0, -1⟩
      (c.fs.blk (inodeZoneStartSector + number.tdiv 8)) number

/-- The byte of a file at an offset. -/
def byteOf (c : InCore) (number : ℤ) (o : ℕ) : UInt8 :=
  View.byte (⟨c.fs.blk, fun _ => (c.inodeOf number).iAddr⟩ : View Unit) () o

/-- **A failed call is clean**: the directory `uPdir`, in which the name was looked up from `c` to
`found`, has the references it had before and is not locked, it holds what it held, no inode is
left for the name, and there is an error. -/
structure Clean (c found : InCore) (uPdir : Slot) (s : Creation) : Prop where
  count_eq : s.core.count uPdir = c.count uPdir
  unlocked : s.core.locked uPdir = false
  size_eq : (s.core.inodeOf (found.number uPdir)).iSize =
    (found.inodeOf (found.number uPdir)).iSize
  byte_eq : ∀ o : ℕ, o < (found.inodeOf (found.number uPdir)).iSize →
    s.core.byteOf (found.number uPdir) o = found.byteOf (found.number uPdir) o
  free : ∀ number, s.made = some number → (s.core.inodeOf number).iMode = 0
  reported : s.core.fs.uError ≠ .NOERROR

/-! ### The references of the other inodes -/

section Frame

variable {c c' : InCore} {i j : Slot} {buffer : ℤ → Block} {time n : ℤ} {r : Option Slot}

/-- `IGet` changes the entry it returns, and no super block. -/
theorem iGet_frame (h : c.iGet n = .ok (r, c')) :
    c'.fs.sb = c.fs.sb ∧ ∀ j, r ≠ some j → c'.mInode j = c.mInode j := by
  unfold iGet at h
  have hother : ∀ {i j : Slot} {ino : Inode} {fs : FsState}, some i ≠ some j →
      (c.set i ino fs).mInode j = c.mInode j := by
    intro i j ino fs hij
    exact mInode_set_of_ne fun hji => hij (congrArg some hji.symm)
  split at h
  · dsimp only at h
    split at h
    · cases h
    · cases h
      exact ⟨rfl, fun j hj => hother hj⟩
  · split at h
    · cases h
      exact ⟨rfl, fun _ _ => rfl⟩
    · split at h
      · cases h
      · cases h
        exact ⟨rfl, fun j hj => hother hj⟩

/-- `IPut` changes the entry it is called with. -/
theorem iPut_frame (h : c.iPut buffer time i = .ok c') (hj : j ≠ i) : c'.mInode j = c.mInode j := by
  unfold iPut at h
  obtain ⟨⟨ino, fs⟩, -, h⟩ := Except.bind_eq_ok.mp h
  cases h
  exact mInode_set_of_ne hj

/-- An entry changes, but not its references and its number. -/
theorem Consistent.set_same (hc : c.Consistent) {ino : Inode} {fs : FsState}
    (hcount : ino.iCount = c.count i) (hnumber : ino.iNumber = c.number i) :
    (c.set i ino fs).Consistent := by
  refine hc.set ?_ fun hne j hji hj heq => ?_
  · rw [hcount]
    exact hc.count_nonneg i
  · rw [hnumber] at heq
    exact hji (hc.distinct j i hj (hcount.symm.trans_ne hne) heq)

theorem Consistent.iPut (hc : c.Consistent) (hcount : 1 ≤ c.count i)
    (h : c.iPut buffer time i = .ok c') : c'.Consistent := by
  unfold InCore.iPut at h
  obtain ⟨⟨ino, fs⟩, hput, h⟩ := Except.bind_eq_ok.mp h
  cases h
  obtain ⟨-, hcount', -, hnumber⟩ := iput_fields hput
  change ino.iCount = c.count i - 1 at hcount'
  refine hc.set (by omega) fun hne j hji hj heq => ?_
  have hone : (c.mInode i).iCount ≠ 1 := by
    change c.count i ≠ 1
    omega
  rw [hnumber hone] at heq
  exact hji (hc.distinct j i hj (by omega) heq)

end Frame

end InCore

/-! ### The file system stays writable -/

namespace Inode

variable {ino ino' : Inode} {s s' : FsState} {buffer : ℤ → Block} {time : ℤ}

theorem ifree_sRonly {n : ℤ} (h : ifree s n = .ok s') : s'.sb.sRonly = s.sb.sRonly := by
  unfold ifree at h
  dsimp only at h
  split at h
  · cases h
    exact sRonly_getFS _
  · split at h
    · cases h
      exact sRonly_getFS _
    · obtain ⟨sInode, -, h⟩ := Except.bind_eq_ok.mp h
      cases h
      exact sRonly_getFS _

theorem iupdate_sRonly (h : iupdate s ino time = .ok s') : s'.sb.sRonly = s.sb.sRonly := by
  unfold iupdate at h
  split at h
  · cases h
    rfl
  · dsimp only at h
    split at h
    · cases h
      exact sRonly_getFS _
    · split at h
      · cases h
      · cases h
        exact sRonly_getFS _

theorem iput_sRonly (h : iput buffer s ino time = .ok (ino', s')) : s'.sb.sRonly = s.sb.sRonly := by
  unfold iput release at h
  obtain ⟨⟨ino₁, s₁⟩, hrelease, h⟩ := Except.bind_eq_ok.mp h
  cases h
  split at hrelease
  · obtain ⟨⟨ino₂, s₂⟩, hdiscard, hrelease⟩ := Except.bind_eq_ok.mp hrelease
    obtain ⟨s₃, hupdate, hrelease⟩ := Except.bind_eq_ok.mp hrelease
    cases hrelease
    refine (iupdate_sRonly hupdate).trans ?_
    unfold discard at hdiscard
    split at hdiscard
    · obtain ⟨⟨ino₃, s₃⟩, htrunc, hdiscard⟩ := Except.bind_eq_ok.mp hdiscard
      obtain ⟨s₄, hifree, hdiscard⟩ := Except.bind_eq_ok.mp hdiscard
      cases hdiscard
      refine (ifree_sRonly hifree).trans ?_
      cases hdev : ({ ino with iFlag := ino.iFlag ||| ILOCK } : Inode).isDevice with
      | true =>
        rw [itrunc_device hdev] at htrunc
        cases htrunc
        rfl
      | false => exact (itrunc_fields hdev htrunc).1.2
    · cases hdiscard
      rfl
  · cases hrelease
    rfl

/-- What a transfer does to the references, the number and the super block. -/
structure Steady (t t' : Transfer) : Prop where
  count_eq : t'.ino.iCount = t.ino.iCount
  number_eq : t'.ino.iNumber = t.ino.iNumber
  sRonly_eq : t'.fs.sb.sRonly = t.fs.sb.sRonly

theorem Steady.trans {t t' t'' : Transfer} (h : Steady t t') (h' : Steady t' t'') : Steady t t'' :=
  ⟨h'.count_eq.trans h.count_eq, h'.number_eq.trans h.number_eq, h'.sRonly_eq.trans h.sRonly_eq⟩

theorem writeBlk_steady {t t' : Transfer} {bn offset nbytes : ℤ}
    (h : writeBlk buffer t bn offset nbytes = .ok t') : Steady t t' := by
  unfold writeBlk at h
  obtain ⟨data, -, h⟩ := Except.bind_eq_ok.mp h
  cases h
  refine ⟨rfl, rfl, ?_⟩
  dsimp only
  split
  · rfl
  · split <;> rfl

theorem writeLoop_steady {fuel : ℕ} {t t' : Transfer} (h : writeLoop buffer fuel t = .ok t') :
    Steady t t' := by
  induction fuel generalizing t with
  | zero =>
    cases h
    exact ⟨rfl, rfl, rfl⟩
  | succ fuel ih =>
    unfold writeLoop at h
    split at h
    · cases h
      exact ⟨rfl, rfl, rfl⟩
    · dsimp only at h
      split at h
      · cases h
      · obtain ⟨⟨bn, ino, fs⟩, hbmap, h⟩ := Except.bind_eq_ok.mp h
        have hkin := bmap_kin hbmap
        have hguard := congrArg Guard.sRonly (bmap_guard hbmap)
        have hsteady : Steady t { t with ino := ino, fs := fs } :=
          ⟨hkin.count_eq, hkin.number_eq, hguard⟩
        dsimp only at h
        split at h
        · cases h
          exact hsteady
        · obtain ⟨t₁, hblk, h⟩ := Except.bind_eq_ok.mp h
          exact (hsteady.trans (writeBlk_steady hblk)).trans (ih h)

theorem writeI_steady {t t' : Transfer} (h : writeI buffer t = .ok t') : Steady t t' := by
  unfold writeI at h
  dsimp only at h
  split at h
  · cases h
  · split at h
    · cases h
      exact ⟨rfl, rfl, rfl⟩
    · have hloop := writeLoop_steady h
      exact ⟨hloop.count_eq, hloop.number_eq, hloop.sRonly_eq⟩

end Inode

namespace InCore

variable {buffer : ℤ → Block} {time : ℤ} {openDevice : Inode → Option ErrorCode} {sIsize turns : ℕ}
  {c c' c'' : InCore} {p i : Slot} {r : Option Slot}

/-! ### The directory in hand -/

/-- The directory in the entry `p` is in the hands of the caller. -/
structure Held (c : InCore) (p : Slot) : Prop where
  consistent : c.Consistent
  count_ne : c.count p ≠ 0
  locked : c.locked p = true
  writable : c.fs.sb.sRonly = 0

/-- The entry `p` is as it was, and in the same hands. -/
structure Keeps (c c' : InCore) (p : Slot) : Prop where
  mInode_eq : c'.mInode p = c.mInode p
  held : c'.Held p

theorem Keeps.trans (h : Keeps c c' p) (h' : Keeps c' c'' p) : Keeps c c'' p :=
  ⟨h'.mInode_eq.trans h.mInode_eq, h'.held⟩

/-- An entry is only kept when the others are. -/
theorem Held.keeps (h : c.Held p) (hc : c'.Consistent) (hinode : c'.mInode p = c.mInode p)
    (hronly : c'.fs.sb.sRonly = c.fs.sb.sRonly) : Keeps c c' p := by
  refine ⟨hinode, hc, ?_, ?_, hronly.trans h.writable⟩
  · have hcount : c'.count p = c.count p := congrArg iCount hinode
    rw [hcount]
    exact h.count_ne
  · unfold InCore.locked
    rw [hinode]
    exact h.locked

/-- The super block changes, but stays writable. -/
theorem Held.setSb (h : c.Held p) (sb : SuperBlock) (hsb : sb.sRonly = c.fs.sb.sRonly) :
    Keeps c (c.setSb sb) p :=
  h.keeps ⟨h.consistent.count_nonneg, h.consistent.distinct⟩ rfl hsb

/-- `IGet` never returns an inode that is locked. -/
theorem Held.iGet (h : c.Held p) {n : ℤ} (heq : c.iGet n = .ok (r, c')) :
    Keeps c c' p ∧ ∀ i, r = some i → i ≠ p ∧ 1 ≤ c'.count i := by
  obtain ⟨hbalance, hc', -, hunlocked⟩ := (Balance.refl c).iGet h.consistent heq
  obtain ⟨hsb, hother⟩ := iGet_frame heq
  have hne : ∀ i, r = some i → i ≠ p := by
    intro i hi hip
    have hlock := (hunlocked i hi).1
    rw [hip, h.locked] at hlock
    cases hlock h.count_ne
  refine ⟨h.keeps hc' (hother p fun hp => hne p hp rfl) (by rw [hsb]), fun i hi => ⟨hne i hi, ?_⟩⟩
  have hcount := hbalance.count_eq i
  have hnonneg := h.consistent.count_nonneg i
  rw [if_pos hi] at hcount
  omega

theorem iPut_sRonly (h : c.iPut buffer time i = .ok c') : c'.fs.sb.sRonly = c.fs.sb.sRonly := by
  unfold iPut at h
  obtain ⟨⟨ino, fs⟩, hput, h⟩ := Except.bind_eq_ok.mp h
  cases h
  exact iput_sRonly hput

theorem Held.iPut (h : c.Held p) (hip : i ≠ p) (hcount : 1 ≤ c.count i)
    (heq : c.iPut buffer time i = .ok c') : Keeps c c' p :=
  h.keeps (h.consistent.iPut hcount heq) (iPut_frame heq (Ne.symm hip)) (iPut_sRonly heq)

/-- The numbers that are tried: the last one is that of a free inode, or the table is full. -/
theorem Held.takeInode (h : c.Held p) (heq : takeInode buffer time turns c = .ok (r, c')) :
    Keeps c c' p ∧ ∀ i, r = some i → i ≠ p ∧ 1 ≤ c'.count i := by
  induction turns generalizing c with
  | zero => cases heq
  | succ turns ih =>
    unfold InCore.takeInode at heq
    dsimp only at heq
    obtain ⟨ino, -, heq⟩ := Except.bind_eq_ok.mp heq
    obtain ⟨⟨found, c₁⟩, hget, heq⟩ := Except.bind_eq_ok.mp heq
    have hsb := h.setSb { c.fs.sb with sNinode := c.fs.sb.sNinode - 1 } rfl
    obtain ⟨hkeeps, hfound⟩ := hsb.held.iGet hget
    have hkeeps := hsb.trans hkeeps
    cases found with
    | none =>
      cases heq
      exact ⟨hkeeps, by simp⟩
    | some i =>
      obtain ⟨hip, hcount⟩ := hfound i rfl
      dsimp only at heq
      split at heq
      · cases heq
        refine ⟨hkeeps.trans (hkeeps.held.keeps (hkeeps.held.consistent.set_same rfl rfl)
          (mInode_set_of_ne (Ne.symm hip)) rfl), fun j hj => ?_⟩
        obtain rfl := Option.some.inj hj
        refine ⟨hip, ?_⟩
        rw [count_set_self]
        exact hcount
      · obtain ⟨c₂, hput, heq⟩ := Except.bind_eq_ok.mp heq
        have hput' := hkeeps.held.iPut hip hcount hput
        obtain ⟨hlater, hend⟩ := ih hput'.held heq
        exact ⟨(hkeeps.trans hput').trans hlater, hend⟩

theorem noteInodes_sRonly {sector : Block} {numbers : List ℕ} {sb sb' : SuperBlock}
    (h : c.noteInodes sector numbers sb = .ok sb') : sb'.sRonly = sb.sRonly := by
  induction numbers generalizing sb with
  | nil =>
    cases h
    rfl
  | cons number numbers ih =>
    unfold noteInodes at h
    split at h
    · exact ih h
    · obtain ⟨sInode, -, h⟩ := Except.bind_eq_ok.mp h
      dsimp only at h
      split at h
      · cases h
        rfl
      · have hrest := ih h
        exact hrest

theorem searchZone_sRonly {sectors : List ℕ} {sb sb' : SuperBlock}
    (h : c.searchZone sectors sb = .ok sb') : sb'.sRonly = sb.sRonly := by
  induction sectors generalizing sb with
  | nil =>
    cases h
    rfl
  | cons i sectors ih =>
    unfold searchZone at h
    obtain ⟨sb₁, hnote, h⟩ := Except.bind_eq_ok.mp h
    have hsb := noteInodes_sRonly hnote
    split at h
    · cases h
      exact hsb
    · exact (ih h).trans hsb

/-- **`IAlloc`** leaves the directory in the same hands. -/
theorem Held.iAlloc (h : c.Held p) (heq : c.iAlloc buffer time sIsize turns = .ok (r, c')) :
    Keeps c c' p ∧ ∀ i, r = some i → i ≠ p ∧ 1 ≤ c'.count i := by
  unfold InCore.iAlloc at heq
  dsimp only at heq
  split at heq
  · cases heq
  · split at heq
    · obtain ⟨sb, hsearch, heq⟩ := Except.bind_eq_ok.mp heq
      have hsb : ({ sb with sIlock := 0 } : SuperBlock).sRonly = c.fs.sb.sRonly :=
        (searchZone_sRonly hsearch).trans (sRonly_getFS _)
      have hkeeps := h.setSb _ hsb
      split at heq
      · cases heq
        have hheld := hkeeps.held
        exact ⟨hkeeps.trans (hheld.keeps ⟨hheld.consistent.count_nonneg, hheld.consistent.distinct⟩
          rfl rfl), by simp⟩
      · obtain ⟨hlater, hend⟩ := hkeeps.held.takeInode heq
        exact ⟨hkeeps.trans hlater, hend⟩
    · have hkeeps := h.setSb _ (sRonly_getFS c.fs.sb)
      obtain ⟨hlater, hend⟩ := hkeeps.held.takeInode heq
      exact ⟨hkeeps.trans hlater, hend⟩

/-! ### The inode that is left -/

/-- The entry `i` holds an inode with a mode and a name that goes back to the disk. -/
structure Named (c : InCore) (i : Slot) : Prop where
  consistent : c.Consistent
  count_pos : 1 ≤ c.count i
  mode_ne : (c.mInode i).iMode ≠ 0
  nlink_pos : 0 < (c.mInode i).iNlink
  dirty : flag (c.mInode i).iFlag IUPD = true
  writable : c.fs.sb.sRonly = 0

/-- The entry changes, but not what makes it named. -/
theorem Named.set (h : c.Named i) {ino : Inode} {fs : FsState}
    (hcount : ino.iCount = c.count i) (hnumber : ino.iNumber = c.number i)
    (hmode : ino.iMode = (c.mInode i).iMode) (hnlink : ino.iNlink = (c.mInode i).iNlink)
    (hdirty : flag ino.iFlag IUPD = flag (c.mInode i).iFlag IUPD)
    (hronly : fs.sb.sRonly = c.fs.sb.sRonly) : (c.set i ino fs).Named i := by
  refine ⟨h.consistent.set_same hcount hnumber, ?_, ?_, ?_, ?_, hronly.trans h.writable⟩
  · rw [count_set_self, hcount]
    exact h.count_pos
  · rw [mInode_set_self, hmode]
    exact h.mode_ne
  · rw [mInode_set_self, hnlink]
    exact h.nlink_pos
  · rw [mInode_set_self, hdirty]
    exact h.dirty

/-- **An inode with a name** is still allocated when it has been given back. -/
theorem Named.iPut (h : c.Named i) (heq : c.iPut buffer time i = .ok c') :
    (c'.inodeOf (c.number i)).iMode ≠ 0 := by
  have hc' := h.consistent.iPut h.count_pos heq
  have hother : ∀ j, j ≠ i → c'.mInode j = c.mInode j := fun j hj => iPut_frame heq hj
  unfold InCore.iPut at heq
  obtain ⟨⟨ino, fs⟩, hput, heq⟩ := Except.bind_eq_ok.mp heq
  cases heq
  unfold inodeOf
  by_cases hlast : c.count i = 1
  · -- nobody else refers to it: the disk is looked at
    obtain ⟨hzero, hupdate⟩ := iput_last hlast h.nlink_pos hput
    have hload : (c.set i ino fs).isLoaded (c.number i) = none := by
      cases hload : (c.set i ino fs).isLoaded (c.number i) with
      | none => rfl
      | some j =>
        obtain ⟨hnumber, hcount⟩ := isLoaded_some hload
        have hji : j ≠ i := by
          rintro rfl
          rw [count_set_self] at hcount
          exact hcount hzero
        rw [number_set_of_ne hji] at hnumber
        rw [count_set_of_ne hji] at hcount
        exact absurd (h.consistent.distinct j i hcount (by omega) hnumber) hji
    have hdirty : ({ c.mInode i with iFlag := (c.mInode i).iFlag ||| ILOCK } : Inode).iFlag &&&
        (IUPD ||| IACC) ≠ 0 := by
      have hflag : flag ((c.mInode i).iFlag ||| ILOCK) IUPD = true := flag_or_left h.dirty
      intro hclean
      have hnone : flag (((c.mInode i).iFlag ||| ILOCK) &&& (IUPD ||| IACC)) IUPD = false := by
        change (((c.mInode i).iFlag ||| ILOCK) &&& (IUPD ||| IACC)) = 0 at hclean
        rw [hclean]
        rfl
      rw [flag_and_of_eq (by decide), hflag] at hnone
      cases hnone
    have hronly : (getFS c.fs.sb).sRonly = 0 := (sRonly_getFS _).trans h.writable
    have hblk := iupdate_dirty hdirty hronly hupdate
    rw [hload]
    dsimp only
    change (icopy _ (fs.blk (inodeZoneStartSector + (c.mInode i).iNumber.tdiv 8)) _).iMode ≠ 0
    rw [hblk]
    exact (iMode_icopy _ _ _).trans_ne h.mode_ne
  · -- others refer to it: it stays in the table
    obtain ⟨-, iFlag', rfl⟩ := iput_shared hlast hput
    have hcount : (c.set i { c.mInode i with iCount := (c.mInode i).iCount - 1, iFlag := iFlag' }
        fs).count i ≠ 0 := by
      have hpos := h.count_pos
      rw [count_set_self]
      change c.count i - 1 ≠ 0
      omega
    have hload : (c.set i { c.mInode i with iCount := (c.mInode i).iCount - 1, iFlag := iFlag' }
        fs).isLoaded (c.number i) = some i := isLoaded_eq hc' hcount number_set_self
    rw [hload]
    dsimp only
    rw [mInode_set_self]
    exact h.mode_ne

/-- What `WriteDir` leaves of the inode. -/
theorem Named.writeDir {s s' : Creation} (h : s.core.Named i) (hip : i ≠ p)
    (hcount : s.core.count p ≠ 0) (heq : writeDir buffer time s p i = .ok s') :
    s'.core.Named i ∧ s'.core.number i = s.core.number i ∧ s'.made = s.made := by
  unfold InCore.writeDir at heq
  obtain ⟨u, -, heq⟩ := Except.bind_eq_ok.mp heq
  obtain ⟨t, hwrite, heq⟩ := Except.bind_eq_ok.mp heq
  obtain ⟨core, hput, heq⟩ := Except.bind_eq_ok.mp heq
  cases heq
  unfold writeEntry at hwrite
  have hsteady := writeI_steady hwrite
  have hc : (s.core.set p t.ino t.fs).Consistent :=
    h.consistent.set_same hsteady.count_eq hsteady.number_eq
  have hpos : 1 ≤ (s.core.set p t.ino t.fs).count p := by
    have hnonneg := h.consistent.count_nonneg p
    rw [count_set_self, hsteady.count_eq]
    change 1 ≤ s.core.count p
    omega
  have hinode : core.mInode i = s.core.mInode i :=
    (iPut_frame hput hip).trans (mInode_set_of_ne hip)
  refine ⟨⟨hc.iPut hpos hput, ?_, ?_, ?_, ?_, ?_⟩, congrArg iNumber hinode, rfl⟩
  · exact le_of_le_of_eq h.count_pos (congrArg iCount hinode).symm
  · rw [hinode]
    exact h.mode_ne
  · rw [hinode]
    exact h.nlink_pos
  · rw [hinode]
    exact h.dirty
  · exact ((iPut_sRonly hput).trans hsteady.sRonly_eq).trans h.writable

/-- **`MakNode`**: without an inode the directory stays as it is, and locked; with one, the inode
has a name. -/
theorem Held.makNode {s s' : Creation} {mode : UInt32} (h : s.core.Held p)
    (heq : makNode buffer time sIsize turns s p mode = .ok (r, s')) :
    (r = none ∧ s'.core.locked p = true) ∨
      ∃ i, r = some i ∧ s'.core.Named i ∧ s'.made = some (s'.core.number i) := by
  unfold InCore.makNode at heq
  obtain ⟨⟨found, core⟩, halloc, heq⟩ := Except.bind_eq_ok.mp heq
  obtain ⟨hkeeps, hfound⟩ := h.iAlloc halloc
  cases found with
  | none =>
    cases heq
    exact .inl ⟨rfl, hkeeps.held.locked⟩
  | some i =>
    obtain ⟨hip, hcount⟩ := hfound i rfl
    obtain ⟨s₁, hwrite, heq⟩ := Except.bind_eq_ok.mp heq
    cases heq
    have hmode : mode ||| IALLOC ≠ 0 := by
      intro hzero
      have halloc := (UInt32.or_eq_zero_iff.mp hzero).2
      revert halloc
      decide
    have hfilled : (core.set i { core.mInode i with
        iFlag := (core.mInode i).iFlag ||| (IACC ||| IUPD)
        iMode := mode ||| IALLOC
        iNlink := 1
        iUid := s.u.uUid
        iGid := s.u.uGid } core.fs).Named i := by
      refine ⟨hkeeps.held.consistent.set_same rfl rfl, ?_, ?_, ?_, ?_, hkeeps.held.writable⟩
      · rw [count_set_self]
        exact hcount
      · rw [mInode_set_self]
        exact hmode
      · rw [mInode_set_self]
        exact Int.one_pos
      · rw [mInode_set_self]
        exact flag_or_right (by decide)
    have hdir : core.count p ≠ 0 := hkeeps.held.count_ne
    rw [← count_set_of_ne (Ne.symm hip)] at hdir
    obtain ⟨hnamed, hnumber, hmade⟩ := hfilled.writeDir hip hdir hwrite
    refine .inr ⟨i, rfl, hnamed, hmade.trans (congrArg some ?_)⟩
    rw [hnumber]
    symm
    exact number_set_self

/-- `Open1` of a new file, which is neither checked nor truncated. -/
theorem open1_new (c : OpenCall) (mode : UInt32) : open1 buffer time openDevice c mode 2 =
    if c.fs.uError ≠ .NOERROR then FileManager.iPut buffer time c
    else openFile buffer time openDevice { c with ino := c.ino.prele } mode := rfl

/-- A new file that cannot be opened keeps its inode. -/
theorem Named.openSlot {s s' : Creation} (h : s.core.Named i)
    (heq : openSlot buffer time openDevice s i FWRITE 2 = .ok s')
    (herr : s'.core.fs.uError ≠ .NOERROR) :
    (s'.core.inodeOf (s.core.number i)).iMode ≠ 0 ∧ s'.made = s.made := by
  unfold InCore.openSlot at heq
  obtain ⟨c, hopen, heq⟩ := Except.bind_eq_ok.mp heq
  cases heq
  refine ⟨?_, rfl⟩
  -- whichever way it fails, the inode is given back as it is, up to its lock
  have hput : ∃ ino fs iFlag', ino = { s.core.mInode i with iFlag := iFlag' } ∧
      flag iFlag' IUPD = true ∧ fs.sb = s.core.fs.sb ∧
      iput buffer fs ino time = .ok (c.ino, c.fs) := by
    rw [open1_new] at hopen
    split at hopen
    · unfold FileManager.iPut at hopen
      obtain ⟨⟨ino, fs⟩, hput, hopen⟩ := Except.bind_eq_ok.mp hopen
      cases hopen
      exact ⟨_, _, _, rfl, h.dirty, rfl, hput⟩
    · next hok =>
      obtain ⟨e, c₁, hino, hfs, -, hput⟩ := openFile_fails (by exact not_not.mp hok) hopen herr
      unfold FileManager.iPut at hput
      obtain ⟨⟨ino, fs⟩, hgive, hend⟩ := Except.bind_eq_ok.mp hput
      cases hend
      obtain ⟨iFlag', hprele⟩ := prele_eq (s.core.mInode i)
      have hdirty : flag (s.core.mInode i).prele.iFlag IUPD = true := by
        rw [← h.dirty]
        unfold prele
        dsimp only
        split
        · rw [flag_and_of_eq (by decide), flag_and_of_eq (by decide)]
        · rw [flag_and_of_eq (by decide)]
      rw [hprele] at hdirty
      exact ⟨c₁.ino, c₁.fs, iFlag', hino.trans hprele, hdirty, by rw [hfs], hgive⟩
  obtain ⟨ino, fs, iFlag', rfl, hdirty, hsb, hput⟩ := hput
  have hnamed : (s.core.set i { s.core.mInode i with iFlag := iFlag' } fs).Named i :=
    h.set rfl rfl rfl rfl (hdirty.trans h.dirty.symm) (by rw [hsb])
  have hput' : (s.core.set i { s.core.mInode i with iFlag := iFlag' } fs).iPut buffer time i =
      .ok (s.core.set i c.ino c.fs) := by
    unfold InCore.iPut
    rw [mInode_set_self]
    change (iput buffer fs _ time >>= _) = _
    rw [hput, Except.ok_bind]
    dsimp only
    unfold InCore.set
    rw [Function.update_idem]
    rfl
  have hend := hnamed.iPut hput'
  rw [number_set_self] at hend
  exact hend

/-! ### The calls -/

variable {fuel : ℕ} {rootDirInode uCdir : Slot} {s s' : Creation} {found : NameResult}

/-- The directory that `NameI` leaves in `u_pdir`. -/
theorem nameI_held {mode : DirectorySearchMode} {u : User} (h₀ : c.Consistent)
    (hroot : c.count rootDirInode ≠ 0) (hcdir : c.count uCdir ≠ 0)
    (heq : nameI buffer time mode fuel c rootDirInode uCdir u = .ok found)
    (hp : found.uPdir = some p) : found.pInode = none ∧ found.core.Held p := by
  obtain ⟨hbalance, hover⟩ := nameI_balance h₀ hroot hcdir heq
  obtain ⟨hnone, -, hc, hronly⟩ := hover (by rw [hp]; rfl)
  rw [hnone, hp, Option.none_or] at hbalance
  have hcount : found.core.count p ≠ 0 := by
    have hnonneg := h₀.count_nonneg p
    have heq := hbalance.count_eq p
    rw [if_pos rfl] at heq
    omega
  have hlocked := hbalance.locked_eq p hcount
  rw [if_pos rfl] at hlocked
  exact ⟨hnone, hc, hcount, hlocked, hronly⟩

/-- How a call goes on after the lookup. -/
theorem Call.run_held {call : Call} (hallowed : call.allowed s)
    (hlookup : nameI buffer time .CREATE fuel s.core rootDirInode uCdir s.u = .ok found)
    (hnone : found.pInode = none) (hp : found.uPdir = some p)
    (hok : found.core.fs.uError = .NOERROR) (hheld : found.core.Held p)
    (hrun : call.run buffer time openDevice sIsize fuel turns rootDirInode uCdir s = .ok s')
    (herr : s'.core.fs.uError ≠ .NOERROR) :
    s'.core.locked p = true ∨
      ∃ number, s'.made = some number ∧ (s'.core.inodeOf number).iMode ≠ 0 := by
  have hheld' : ({ s with core := found.core, u := found.u } : Creation).core.Held p := hheld
  cases call with
  | creat mode =>
    change InCore.creat buffer time openDevice sIsize fuel turns rootDirInode uCdir mode s =
      .ok s' at hrun
    unfold InCore.creat at hrun
    rw [hlookup, Except.ok_bind] at hrun
    dsimp only at hrun
    rw [hnone, hp] at hrun
    dsimp only at hrun
    rw [if_neg (not_not.mpr hok)] at hrun
    obtain ⟨⟨r, s₁⟩, hmake, hrun⟩ := Except.bind_eq_ok.mp hrun
    rcases hheld'.makNode hmake with ⟨rfl, hlocked⟩ | ⟨i, rfl, hnamed, hmade⟩
    · cases hrun
      exact .inl hlocked
    · obtain ⟨hmode, hsame⟩ := hnamed.openSlot hrun herr
      exact .inr ⟨_, hsame.trans hmade, hmode⟩
  | mkNod mode dev =>
    change InCore.mkNod buffer time sIsize fuel turns rootDirInode uCdir mode dev s = _ at hrun
    have hsuper : s.u.uUid = 0 := hallowed
    unfold InCore.mkNod at hrun
    rw [if_neg (not_not.mpr hsuper), hlookup, Except.ok_bind] at hrun
    dsimp only at hrun
    rw [hnone, hp] at hrun
    dsimp only at hrun
    rw [if_neg (not_not.mpr hok)] at hrun
    obtain ⟨⟨r, s₁⟩, hmake, hrun⟩ := Except.bind_eq_ok.mp hrun
    rcases hheld'.makNode hmake with ⟨rfl, hlocked⟩ | ⟨i, rfl, hnamed, hmade⟩
    · cases hrun
      exact .inl hlocked
    · obtain ⟨core, hput, hrun⟩ := Except.bind_eq_ok.mp hrun
      cases hrun
      refine .inr ⟨_, hmade, ?_⟩
      have hdevice : (s₁.core.set i (if (s₁.core.mInode i).iMode &&& (IFBLK ||| IFCHR) ≠ 0 then
          { s₁.core.mInode i with iAddr := Function.update (s₁.core.mInode i).iAddr 0 dev }
          else s₁.core.mInode i) s₁.core.fs).Named i := by
        split
        · exact hnamed.set rfl rfl rfl rfl rfl rfl
        · exact hnamed.set rfl rfl rfl rfl rfl rfl
      have hend := hdevice.iPut hput
      rw [number_set_self] at hend
      split at hend
      · exact hend
      · exact hend

/-- **No call that fails after the lookup is clean**: without a free inode, or without a place for
it in the table, the directory stays locked with a reference too many; when the record cannot be
written, or the file not be opened, the inode stays allocated. -/
theorem not_clean (call : Call) (h₀ : s.core.Consistent) (hroot : s.core.count rootDirInode ≠ 0)
    (hcdir : s.core.count uCdir ≠ 0) (hallowed : call.allowed s)
    (hlookup : nameI buffer time .CREATE fuel s.core rootDirInode uCdir s.u = .ok found)
    (hp : found.uPdir = some p) (hok : found.core.fs.uError = .NOERROR)
    (hrun : call.run buffer time openDevice sIsize fuel turns rootDirInode uCdir s = .ok s')
    (herr : s'.core.fs.uError ≠ .NOERROR) : ¬ Clean s.core found.core p s' := by
  intro hclean
  obtain ⟨hnone, hheld⟩ := nameI_held h₀ hroot hcdir hlookup hp
  rcases Call.run_held hallowed hlookup hnone hp hok hheld hrun herr with
    hlocked | ⟨n, hmade, hmode⟩
  · rw [hclean.unlocked] at hlocked
    cases hlocked
  · exact hmode (hclean.free n hmade)

/-! ### A device without a free inode -/

/-- The super user makes a file in the root directory, which is empty; the inodes of the only sector
of the inode zone are all in use. -/
def inodesUsed : Creation where
  core :=
    { fs := ⟨⟨1, fun _ => 0, 0, fun _ => 0, 0, 0, 0, 0⟩,
        fun b _ => if b = inodeZoneStartSector then 1 else 0, .NOERROR, 0⟩
      mInode := fun i => if i = 0 then ⟨0, 0x4140, 1, 1, 0, 0, 0, 0, fun _ => 0, -1⟩
        else ⟨0, 0, 0, 0, 0, 0, 0, 0, fun _ => 0, -1⟩ }
  u := { (default : User) with uDirp := [47, 120, 0, 0] }
  uOfiles := fun _ => none
  mFile := fun _ => ⟨0, 0, 0, 0⟩
  eax := 0
  made := none

theorem consistent_inodesUsed : inodesUsed.core.Consistent := by
  refine .of_root fun i => ?_
  change (if i = 0 then _ else _ : Inode).iCount = _
  split <;> rfl

/-- The lookup finds no file, and the call no inode. -/
theorem creat_inodesUsed : ∃ found s',
    nameI (fun _ _ => 0) 0 .CREATE 2 inodesUsed.core 0 0 inodesUsed.u = .ok found ∧
    found.uPdir = some 0 ∧ found.core.fs.uError = .NOERROR ∧
    (Call.creat 0x1B6).run (fun _ _ => 0) 0 (fun _ => none) 1 2 1 0 0 inodesUsed = .ok s' ∧
    s'.core.fs.uError = .ENOSPC ∧ s'.core.locked 0 = true := by
  have hend : (nameI (fun _ _ => 0) 0 .CREATE 2 inodesUsed.core 0 0 inodesUsed.u >>= fun found =>
      (Call.creat 0x1B6).run (fun _ _ => 0) 0 (fun _ => none) 1 2 1 0 0 inodesUsed >>= fun s' =>
        .ok (decide (found.uPdir = some 0 ∧ found.core.fs.uError = .NOERROR ∧
          s'.core.fs.uError = .ENOSPC ∧ s'.core.locked 0 = true))) = .ok true := by
    decide +kernel
  obtain ⟨found, hlookup, hend⟩ := Except.bind_eq_ok.mp hend
  obtain ⟨s', hrun, hend⟩ := Except.bind_eq_ok.mp hend
  obtain ⟨hp, hok, herr, hlocked⟩ := of_decide_eq_true (Except.ok.inj hend)
  exact ⟨found, s', hlookup, hp, hok, hrun, herr, hlocked⟩

theorem not_clean_inodesUsed : ∃ found s',
    nameI (fun _ _ => 0) 0 .CREATE 2 inodesUsed.core 0 0 inodesUsed.u = .ok found ∧
    (Call.creat 0x1B6).run (fun _ _ => 0) 0 (fun _ => none) 1 2 1 0 0 inodesUsed = .ok s' ∧
    ¬ Clean inodesUsed.core found.core 0 s' := by
  obtain ⟨found, s', hlookup, hp, hok, hrun, herr, -⟩ := creat_inodesUsed
  have hcount : inodesUsed.core.count 0 ≠ 0 := by decide
  refine ⟨found, s', hlookup, hrun, ?_⟩
  exact not_clean (.creat 0x1B6) consistent_inodesUsed hcount hcount trivial hlookup hp hok hrun
    (by rw [herr]; decide)

/-- **Not every failed call is clean.** -/
theorem exists_not_clean : ¬ ∀ (buffer : ℤ → Block) (time : ℤ)
    (openDevice : Inode → Option ErrorCode) (sIsize fuel turns : ℕ)
    (rootDirInode uCdir p : Slot) (call : Call) (s s' : Creation) (found : NameResult),
    s.core.Consistent → s.core.count rootDirInode ≠ 0 →
    s.core.count uCdir ≠ 0 → call.allowed s →
    nameI buffer time .CREATE fuel s.core rootDirInode uCdir s.u = .ok found →
    found.uPdir = some p → found.core.fs.uError = .NOERROR →
    call.run buffer time openDevice sIsize fuel turns rootDirInode uCdir s = .ok s' →
    s'.core.fs.uError ≠ .NOERROR → Clean s.core found.core p s' := by
  intro hall
  obtain ⟨found, s', hlookup, hp, hok, hrun, herr, hlocked⟩ := creat_inodesUsed
  have hcount : inodesUsed.core.count 0 ≠ 0 := by decide
  have hclean := hall _ _ _ _ _ _ _ _ _ (.creat 0x1B6) _ _ _ consistent_inodesUsed hcount hcount
    trivial hlookup hp hok hrun (by rw [herr]; decide)
  rw [hclean.unlocked] at hlocked
  cases hlocked

end InCore
end UnixV6pp
