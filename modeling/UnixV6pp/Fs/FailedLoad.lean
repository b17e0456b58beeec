import UnixV6pp.Fs.InCore

/-!
# An inode that cannot be read

`IGet` has taken a free entry of the table for an inode, and the read of its sector fails.
The entry goes to `IPut` with what it still holds of the inode that it was last used for.
If that inode had no names left, `IPut` frees the blocks that it had, caches the number of
the new inode as a free one, and writes over the new inode on the disk.

* `InCore.iGetFailed` — the call.
* `InCore.Unharmed` — what should be the same afterwards.
* `InCore.unharmed_iff` — **when it is.**
-/

namespace UnixV6pp

open Words FileSystem Inode Flags

namespace Inode

/-- `IUpdate`, if `Bread` returns these contents for the sector of the inode. -/
def iupdateFrom (sector : Block) (s : FsState) (ino : Inode) (time : ℤ) : Except Stop FsState :=
  if ino.iFlag &&& (IUPD ||| IACC) = 0 then .ok s
  else
    let s := { s with sb := getFS s.sb }
    if s.sb.sRonly ≠ 0 then .ok s
    else if ino.iNumber.tmod 8 < 0 then .error .outside
    else .ok (BufferManager.bwrite s ⟨inodeZoneStartSector + ino.iNumber.tdiv 8,
      setInts sector (16 * (ino.iNumber.tmod 8).toNat) (ino.diskInode time) 16⟩)

/-- Usually it returns what is on the disk. -/
theorem iupdate_eq (s : FsState) (ino : Inode) (time : ℤ) :
    iupdate s ino time =
      iupdateFrom (s.blk (inodeZoneStartSector + ino.iNumber.tdiv 8)) s ino time := by
  unfold iupdate iupdateFrom
  rfl

end Inode

namespace InCore

variable {c c' : InCore} {i j : Slot} {number time : ℤ} {buffer : ℤ → Block} {sector : Block}

/-- The entry that `IGet` has prepared for an inode. -/
def prepared (c : InCore) (i : Slot) (number : ℤ) : Inode :=
  { c.mInode i with
    iNumber := number
    iFlag := ILOCK
    iCount := (c.mInode i).iCount + 1
    iLastr := -1 }

/-- `InodeTable::IPut` of the only reference to an inode whose sector could not be read; `sector` is
what `Bread` returns for it when it is called again. -/
def iPutFailed (buffer : ℤ → Block) (sector : Block) (s : FsState) (ino : Inode) (time : ℤ) :
    Except Stop (Inode × FsState) := do
  let (ino, s) ← discard buffer s { ino with iFlag := ino.iFlag ||| ILOCK }
  let s ← iupdateFrom sector s ino time
  let ino := { ino.prele with iFlag := 0, iNumber := -1 }
  return (prele { ino with iCount := ino.iCount - 1 }, s)

/-- What `GetError` does in the `Bread` that fails. -/
def readError (s : FsState) : FsState := { s with uError := ErrorCode.EIO }

/-- `InodeTable::IGet` of an inode that is not in the table, if `Bread` sets `B_ERROR`. -/
def iGetFailed (buffer : ℤ → Block) (sector : Block) (c : InCore) (number time : ℤ) :
    Except Stop (Option Slot × InCore) :=
  match c.getFreeInode with
  | none => .ok (none, c.setError .ENFILE)
  | some i => do
    let (ino, fs) ← iPutFailed buffer sector (readError c.fs) (c.prepared i number) time
    return (none, c.set i ino fs)

/-- `NULL` is returned with an error, and the disk, both lists of the super block and the other
entries are as they were; the entry is free. -/
structure Unharmed (c : InCore) (i : Slot) (c' : InCore) : Prop where
  error : c'.fs.uError = ErrorCode.EIO
  blk : c'.fs.blk = c.fs.blk
  sNfree : c'.fs.sb.sNfree = c.fs.sb.sNfree
  sFree : c'.fs.sb.sFree = c.fs.sb.sFree
  sNinode : c'.fs.sb.sNinode = c.fs.sb.sNinode
  sInode : c'.fs.sb.sInode = c.fs.sb.sInode
  others : ∀ j ≠ i, c'.mInode j = c.mInode j
  free : (c'.mInode i).iCount = 0 ∧ (c'.mInode i).iFlag = 0 ∧ (c'.mInode i).iNumber = -1

/-- Whatever the buffers hold, the failing call leaves everything unharmed. -/
def Survives (c : InCore) (i : Slot) (number time : ℤ) : Prop :=
  ∀ buffer sector, ∃ c', c.iGetFailed buffer sector number time = .ok (none, c') ∧ Unharmed c i c'

/-- `IFree` does nothing: the cache of free inodes is locked or full. -/
def Idle (sb : SuperBlock) : Prop :=
  sb.sNfree ≤ 100 ∧ sb.sNinode ≤ 100 ∧ (sb.sIlock ≠ 0 ∨ sb.sNinode = 100)

/-- The condition on what the entry holds. -/
def Harmless (sb : SuperBlock) (ino : Inode) : Prop :=
  0 < ino.iNlink ∨
    Idle sb ∧ (ino.isDevice = true ∨ (∀ k < 10, ino.iAddr k = 0) ∧ sb.sRonly ≠ 0)

/-! ### The entry is free again -/

/-- What the call does with a free entry. -/
theorem iGetFailed_eq (h : c.getFreeInode = some i) : c.iGetFailed buffer sector number time =
    (iPutFailed buffer sector (readError c.fs) (c.prepared i number) time >>=
      fun r => .ok (none, c.set i r.1 r.2)) := by
  unfold iGetFailed
  rw [h]
  rfl

/-- `Prele` of an inode without flags. -/
theorem prele_of_zero {ino : Inode} (h : ino.iFlag = 0) : ino.prele = ino := by
  have hand : ∀ m : UInt32, ino.iFlag &&& m = 0 := fun m => by rw [h, UInt32.zero_and]
  unfold prele
  dsimp only
  rw [hand, if_neg (by decide), ← h]

theorem iPutFailed_eq_ok {s s' : FsState} {ino ino' : Inode}
    (h : iPutFailed buffer sector s ino time = .ok (ino', s')) :
    ∃ ino₁ s₁, discard buffer s { ino with iFlag := ino.iFlag ||| ILOCK } = .ok (ino₁, s₁) ∧
      iupdateFrom sector s₁ ino₁ time = .ok s' ∧ ino'.iCount = ino₁.iCount - 1 ∧ ino'.iFlag = 0 ∧
      ino'.iNumber = -1 := by
  obtain ⟨⟨ino₁, s₁⟩, h₁, h⟩ := Except.bind_eq_ok.mp h
  obtain ⟨s₂, h₂, h⟩ := Except.bind_eq_ok.mp h
  cases h
  refine ⟨ino₁, s₁, h₁, h₂, ?_⟩
  rw [prele_of_zero rfl]
  refine ⟨?_, rfl, rfl⟩
  change ino₁.prele.iCount - 1 = _
  obtain ⟨iFlag', hprele⟩ := prele_eq ino₁
  rw [hprele]

theorem iPutFailed_ok {s s₁ s' : FsState} {ino ino₁ : Inode}
    (h : discard buffer s { ino with iFlag := ino.iFlag ||| ILOCK } = .ok (ino₁, s₁))
    (h' : iupdateFrom sector s₁ ino₁ time = .ok s') :
    ∃ ino', iPutFailed buffer sector s ino time = .ok (ino', s') :=
  ⟨_, Except.bind_eq_ok.mpr ⟨_, h, Except.bind_eq_ok.mpr ⟨_, h', rfl⟩⟩⟩

/-- `ITrunc` and `IPut` keep the count. -/
theorem iCount_discard {s s₁ : FsState} {ino ino₁ : Inode}
    (h : discard buffer s ino = .ok (ino₁, s₁)) : ino₁.iCount = ino.iCount := by
  unfold Inode.discard at h
  split at h
  · obtain ⟨⟨ino₂, s₂⟩, h₂, h⟩ := Except.bind_eq_ok.mp h
    obtain ⟨s₃, -, h⟩ := Except.bind_eq_ok.mp h
    cases h
    change ino₂.iCount = _
    cases hdev : ino.isDevice with
    | true =>
      unfold itrunc at h₂
      rw [hdev, if_pos rfl] at h₂
      cases h₂
      rfl
    | false =>
      obtain ⟨-, -, -, hino⟩ := itrunc_fields hdev h₂
      rw [hino]
  · cases h
    rfl

/-- `IPut` locks an inode that `IGet` has locked. -/
theorem prepared_lock :
    { c.prepared i number with iFlag := (c.prepared i number).iFlag ||| ILOCK } =
      c.prepared i number := by
  have hor : ILOCK ||| ILOCK = ILOCK := by decide
  unfold prepared
  dsimp only
  rw [hor]

/-- It is enough to know what becomes of the file system. -/
theorem unharmed_of_fs {s₁ s' : FsState} {ino₁ : Inode} (h : c.getFreeInode = some i)
    (hdiscard : discard buffer (readError c.fs) (c.prepared i number) = .ok (ino₁, s₁))
    (hupdate : iupdateFrom sector s₁ ino₁ time = .ok s') (herror : s'.uError = ErrorCode.EIO)
    (hblk : s'.blk = c.fs.blk) (hsb : s'.sb = c.fs.sb) :
    ∃ c', c.iGetFailed buffer sector number time = .ok (none, c') ∧ Unharmed c i c' := by
  rw [← prepared_lock] at hdiscard
  obtain ⟨ino', hput⟩ := iPutFailed_ok hdiscard hupdate
  obtain ⟨ino₂, s₂, h₂, -, hcount, hflag, hnumber⟩ := iPutFailed_eq_ok hput
  refine ⟨c.set i ino' s', by rw [iGetFailed_eq h, hput]; rfl, ?_⟩
  have hfree : ino'.iCount = 0 := by
    rw [hcount, iCount_discard h₂]
    change c.count i + 1 - 1 = 0
    rw [getFreeInode_some h]
    rfl
  refine ⟨herror, hblk, congrArg _ hsb, congrArg _ hsb, congrArg _ hsb, congrArg _ hsb,
    fun j hj => mInode_set_of_ne hj, ?_⟩
  rw [mInode_set_self]
  exact ⟨hfree, hflag, hnumber⟩

/-! ### The condition is enough -/

theorem discard_unlinked {s s₁ s₂ : FsState} {ino ino₁ : Inode} (hlink : ino.iNlink ≤ 0)
    (htrunc : itrunc buffer s ino = .ok (ino₁, s₁)) (hfree : ifree s₁ ino₁.iNumber = .ok s₂) :
    discard buffer s ino = .ok ({ ino₁ with iMode := 0 }, s₂) := by
  unfold Inode.discard
  rw [if_pos hlink]
  exact Except.bind_eq_ok.mpr ⟨_, htrunc, Except.bind_eq_ok.mpr ⟨_, hfree, rfl⟩⟩

theorem getFS_of_idle {sb : SuperBlock} (h : Idle sb) : getFS sb = sb := if_neg (by
  obtain ⟨hfree, hinode, -⟩ := h
  omega)

theorem ifree_idle {s : FsState} (h : Idle s.sb) (n : ℤ) : ifree s n = .ok s := by
  unfold ifree
  dsimp only
  rw [getFS_of_idle h]
  by_cases hlock : s.sb.sIlock ≠ 0
  · rw [if_pos hlock]
    rfl
  · have hfull : s.sb.sNinode = 100 := h.2.2.resolve_left hlock
    rw [if_neg hlock, if_pos (by omega)]
    rfl

theorem iupdateFrom_clean {s : FsState} {ino : Inode} (h : ino.iFlag = ILOCK) :
    iupdateFrom sector s ino time = .ok s := if_pos (by rw [h]; decide)

theorem iupdateFrom_ronly {s : FsState} (hidle : Idle s.sb) (hronly : s.sb.sRonly ≠ 0)
    (ino : Inode) : iupdateFrom sector s ino time = .ok s := by
  unfold iupdateFrom
  dsimp only
  rw [getFS_of_idle hidle, if_pos hronly]
  split <;> rfl

/-- `ITrunc` without any blocks. -/
theorem freeAddrs_zero {n : ℕ} {s : FsState} {ino : Inode} (h : ∀ k < n, ino.iAddr k = 0) :
    freeAddrs buffer n s ino = .ok (ino, s) := by
  induction n with
  | zero => rfl
  | succ n ih =>
    unfold freeAddrs
    rw [if_neg (not_not.mpr (h n (Nat.lt_succ_self n)))]
    exact ih fun k hk => h k (by omega)

theorem itrunc_zero {s : FsState} {ino : Inode} (hdev : ino.isDevice = false)
    (h : ∀ k < 10, ino.iAddr k = 0) : ∃ ino', itrunc buffer s ino = .ok (ino', s) := by
  unfold itrunc
  rw [hdev, if_neg Bool.false_ne_true, freeAddrs_zero h]
  exact ⟨_, rfl⟩

theorem survives_of_harmless (h : c.getFreeInode = some i) (hsafe : Harmless c.fs.sb (c.mInode i)) :
    Survives c i number time := by
  intro buffer sector
  by_cases hlink : (c.mInode i).iNlink ≤ 0
  · rcases hsafe with hpos | ⟨hidle, hkind⟩
    · omega
    · have hidle' : Idle (readError c.fs).sb := hidle
      have hlink' : (c.prepared i number).iNlink ≤ 0 := hlink
      cases hdev : (c.mInode i).isDevice with
      | true =>
        have htrunc : itrunc buffer (readError c.fs) (c.prepared i number) =
            .ok (c.prepared i number, (readError c.fs)) := by
          have hdev' : (c.prepared i number).isDevice = true := hdev
          unfold itrunc
          rw [if_pos hdev']
          rfl
        have hdiscard := discard_unlinked hlink' htrunc (ifree_idle hidle' _)
        exact unharmed_of_fs h hdiscard (iupdateFrom_clean rfl) rfl rfl rfl
      | false =>
        obtain ⟨hzero, hronly⟩ := hkind.resolve_left (by rw [hdev]; exact Bool.false_ne_true)
        have hdev' : (c.prepared i number).isDevice = false := hdev
        obtain ⟨ino', htrunc⟩ : ∃ ino', itrunc buffer (readError c.fs) (c.prepared i number) =
            .ok (ino', readError c.fs) := itrunc_zero hdev' hzero
        have hdiscard := discard_unlinked hlink' htrunc (ifree_idle hidle' _)
        exact unharmed_of_fs h hdiscard (iupdateFrom_ronly hidle' hronly _) rfl rfl rfl
  · have hdiscard : discard buffer (readError c.fs) (c.prepared i number) =
        .ok (c.prepared i number, (readError c.fs)) := if_neg hlink
    exact unharmed_of_fs h hdiscard (iupdateFrom_clean rfl) rfl rfl rfl

/-! ### The condition is needed -/

/-- The super block is in range, and with it either a block has been overwritten or the list of free
blocks has become longer, or it was not in range before. -/
structure Moved (s₀ s : FsState) : Prop where
  sNfree : s.sb.sNfree ≤ 100
  sNinode : s.sb.sNinode ≤ 100
  moved : (∃ b, s.blk b 511 ≠ s₀.blk b 511) ∨ s.blk = s₀.blk ∧
    (s₀.sb.sNfree < s.sb.sNfree ∨ 100 < s₀.sb.sNfree ∨ 100 < s₀.sb.sNinode)

theorem Moved.not_same {s₀ s : FsState} (h : Moved s₀ s) (hblk : s.blk = s₀.blk)
    (hfree : s.sb.sNfree = s₀.sb.sNfree) (hinode : s.sb.sNinode = s₀.sb.sNinode) : False := by
  obtain ⟨hle, hle', ⟨b, hb⟩ | ⟨-, hcount⟩⟩ := h
  · exact hb (by rw [hblk])
  · omega

theorem getFS_bounds (sb : SuperBlock) : (getFS sb).sNfree ≤ 100 ∧ (getFS sb).sNinode ≤ 100 := by
  unfold getFS
  split
  · exact ⟨Int.zero_le_ofNat 100, Int.zero_le_ofNat 100⟩
  · omega

theorem getFS_of_bounds {sb : SuperBlock} (h : sb.sNfree ≤ 100) (h' : sb.sNinode ≤ 100) :
    getFS sb = sb := if_neg (by omega)

/-- What `Free` does to the list: it becomes longer, or it is written into the block. -/
theorem free_cases {s s' : FsState} {b : ℤ} (h : free buffer s b = .ok s') :
    s'.sb.sNfree ≤ 100 ∧ s'.sb.sNinode = (getFS s.sb).sNinode ∧
      (s'.blk = s.blk ∧ (getFS s.sb).sNfree < s'.sb.sNfree ∨
        ∃ sb, s'.blk = Function.update s.blk b (storeGroup sb (buffer b))) := by
  unfold free at h
  dsimp only at h
  split at h
  · cases h
  · have hbad : ¬badBlock (getFS s.sb).setFmod b = true := Bool.false_ne_true
    rw [if_neg hbad] at h
    obtain ⟨sb, hpush, hs⟩ := Except.bind_eq_ok.mp h
    cases hs
    have hfirst : (getFS s.sb).sNfree ≤ (if (getFS s.sb).setFmod.sNfree ≤ 0 then
        firstFree (getFS s.sb).setFmod else (getFS s.sb).setFmod).sNfree ∧
        (if (getFS s.sb).setFmod.sNfree ≤ 0 then
          firstFree (getFS s.sb).setFmod else (getFS s.sb).setFmod).sNinode =
            (getFS s.sb).sNinode := by
      split
      · next hle => exact ⟨Int.le_trans hle Int.one_pos.le, rfl⟩
      · exact ⟨Int.le_refl _, rfl⟩
    generalize (if (getFS s.sb).setFmod.sNfree ≤ 0 then firstFree (getFS s.sb).setFmod
      else (getFS s.sb).setFmod) = sb₁ at hpush hfirst ⊢
    obtain ⟨hle, hinode⟩ := hfirst
    unfold pushFree at hpush
    obtain ⟨sFree, hwrite, hsb⟩ := Except.bind_eq_ok.mp hpush
    cases hsb
    have hrange := (writeAt_eq_ok hwrite).1
    by_cases hfull : sb₁.sNfree ≥ 100
    · rw [if_pos hfull] at hrange ⊢
      exact ⟨Int.add_one_le_of_lt hrange.2, hinode, .inr ⟨sb₁, if_pos hfull⟩⟩
    · rw [if_neg hfull] at hrange ⊢
      exact ⟨Int.add_one_le_of_lt hrange.2, hinode, .inl ⟨if_neg hfull, Int.lt_add_one_of_le hle⟩⟩

/-- The group does not reach to the end of the block. -/
theorem storeGroup_last (sb : SuperBlock) (b : Block) : storeGroup sb b 511 = b 511 := by
  unfold storeGroup
  rw [setInts_of_outside _ _ _ (by omega), setInt_of_outside _ _ (by omega)]

/-- The first block that is freed can be seen, and the following ones do not hide it. -/
theorem moved_of_free {s₀ s s' : FsState} {b : ℤ} (hbuffer : ∀ b, buffer b 511 ≠ s₀.blk b 511)
    (h : (s.blk = s₀.blk ∧ s.sb = s₀.sb) ∨ Moved s₀ s) (hfree : free buffer s b = .ok s') :
    Moved s₀ s' := by
  obtain ⟨hle, hinode, hcases⟩ := free_cases hfree
  have hbounds := getFS_bounds s.sb
  refine ⟨hle, by omega, ?_⟩
  rcases hcases with ⟨hblk, hlonger⟩ | ⟨sb, hblk⟩
  · rcases h with ⟨hsame, hsb⟩ | ⟨hn, hi, ⟨c, hc⟩ | ⟨hsame, hcount⟩⟩
    · refine .inr ⟨hblk.trans hsame, ?_⟩
      by_cases hrange : s₀.sb.sNfree ≤ 100 ∧ s₀.sb.sNinode ≤ 100
      · rw [hsb, getFS_of_bounds hrange.1 hrange.2] at hlonger
        exact .inl hlonger
      · omega
    · exact .inl ⟨c, by rw [hblk]; exact hc⟩
    · rw [getFS_of_bounds hn hi] at hlonger
      exact .inr ⟨hblk.trans hsame, by omega⟩
  · refine .inl ⟨b, ?_⟩
    rw [hblk, Function.update_self, storeGroup_last]
    exact hbuffer b

/-- What each `Free` keeps, the loop over `i_addr` keeps. -/
theorem freeAddrs_keeps {I : FsState → Prop} (hI : ∀ s b s', I s → free buffer s b = .ok s' → I s')
    {n : ℕ} {s s' : FsState} {ino ino' : Inode} (hs : I s)
    (h : freeAddrs buffer n s ino = .ok (ino', s')) : I s' := by
  induction n generalizing s ino with
  | zero =>
    cases h
    exact hs
  | succ n ih =>
    unfold freeAddrs at h
    dsimp only at h
    split at h
    · split at h
      · obtain ⟨s₁, h₁, h⟩ := Except.bind_eq_ok.mp h
        obtain ⟨s₂, h₂, h⟩ := Except.bind_eq_ok.mp h
        exact ih (hI _ _ _ (freeTables_keeps hI hs h₁) h₂) h
      · rw [Except.ok_bind] at h
        obtain ⟨s₂, h₂, h⟩ := Except.bind_eq_ok.mp h
        exact ih (hI _ _ _ hs h₂) h
    · exact ih hs h

/-- A loop that comes to a block reaches what one `Free` reaches. -/
theorem freeAddrs_reaches {I J : FsState → Prop}
    (hIJ : ∀ s b s', I s → free buffer s b = .ok s' → J s') (hJI : ∀ s, J s → I s) {n k : ℕ}
    {s s' : FsState} {ino ino' : Inode} (hs : I s) (hk : k < n) (hne : ino.iAddr k ≠ 0)
    (h : freeAddrs buffer n s ino = .ok (ino', s')) : J s' := by
  have hI : ∀ s b s', I s → free buffer s b = .ok s' → I s' :=
    fun _ _ _ hs hf => hJI _ (hIJ _ _ _ hs hf)
  have hJ : ∀ s b s', J s → free buffer s b = .ok s' → J s' :=
    fun _ _ _ hs hf => hIJ _ _ _ (hJI _ hs) hf
  induction n generalizing s ino with
  | zero => omega
  | succ n ih =>
    unfold freeAddrs at h
    dsimp only at h
    split at h
    · split at h
      · obtain ⟨s₁, h₁, h⟩ := Except.bind_eq_ok.mp h
        obtain ⟨s₂, h₂, h⟩ := Except.bind_eq_ok.mp h
        exact freeAddrs_keeps hJ (hIJ _ _ _ (freeTables_keeps hI hs h₁) h₂) h
      · rw [Except.ok_bind] at h
        obtain ⟨s₂, h₂, h⟩ := Except.bind_eq_ok.mp h
        exact freeAddrs_keeps hJ (hIJ _ _ _ hs h₂) h
    · next hzero =>
      have hkn : k ≠ n := fun hkn => hzero (hkn ▸ hne)
      exact ih hs (by omega) hne h

/-- Whatever block the inode has, `ITrunc` leaves something to be seen. -/
theorem moved_of_itrunc {s₀ s s' : FsState} {ino ino' : Inode} {k : ℕ}
    (hbuffer : ∀ b, buffer b 511 ≠ s₀.blk b 511) (hdev : ino.isDevice = false)
    (hblk : s.blk = s₀.blk) (hsb : s.sb = s₀.sb) (hk : k < 10) (hne : ino.iAddr k ≠ 0)
    (h : itrunc buffer s ino = .ok (ino', s')) : Moved s₀ s' := by
  unfold itrunc at h
  rw [if_neg (by rw [hdev]; exact Bool.false_ne_true)] at h
  obtain ⟨⟨ino₁, s₁⟩, hloop, hret⟩ := Except.bind_eq_ok.mp h
  cases hret
  exact freeAddrs_reaches (fun _ _ _ hs hfree => moved_of_free hbuffer hs hfree) (fun _ => .inr)
    (.inl ⟨hblk, hsb⟩) hk hne hloop

/-- What `IFree` does to the super block. -/
theorem ifree_cases {s s' : FsState} {n : ℤ} (h : ifree s n = .ok s') :
    s'.blk = s.blk ∧ s'.sb.sNfree = (getFS s.sb).sNfree ∧ s'.sb.sRonly = s.sb.sRonly ∧
      s'.sb.sNinode ≤ 100 ∧
      (s'.sb.sNinode = (getFS s.sb).sNinode ∧
          ((getFS s.sb).sIlock ≠ 0 ∨ 100 ≤ (getFS s.sb).sNinode) ∨
        s'.sb.sNinode = (getFS s.sb).sNinode + 1) := by
  have hronly : (getFS s.sb).sRonly = s.sb.sRonly := by
    unfold getFS
    split <;> rfl
  have hbounds := getFS_bounds s.sb
  unfold ifree at h
  dsimp only at h
  split at h
  · next hlock =>
    cases h
    exact ⟨rfl, rfl, hronly, hbounds.2, .inl ⟨rfl, .inl hlock⟩⟩
  · split at h
    · next hfull =>
      cases h
      exact ⟨rfl, rfl, hronly, hbounds.2, .inl ⟨rfl, .inr hfull⟩⟩
    · next hroom =>
      obtain ⟨sInode, -, h⟩ := Except.bind_eq_ok.mp h
      cases h
      exact ⟨rfl, rfl, hronly, Int.add_one_le_of_lt (Int.not_le.mp hroom), .inr rfl⟩

/-- If `IFree` can not be seen, it has done nothing. -/
theorem idle_of_ifree {s s' : FsState} {n : ℤ} (h : ifree s n = .ok s')
    (hfree : s'.sb.sNfree = s.sb.sNfree) (hinode : s'.sb.sNinode = s.sb.sNinode) : Idle s.sb := by
  obtain ⟨-, hn, -, hle, hcases⟩ := ifree_cases h
  have hbounds := getFS_bounds s.sb
  have hrange : s.sb.sNfree ≤ 100 ∧ s.sb.sNinode ≤ 100 := by omega
  rw [getFS_of_bounds hrange.1 hrange.2] at hcases
  rcases hcases with ⟨-, hlock | hfull⟩ | hmore
  · exact ⟨hrange.1, hrange.2, .inl hlock⟩
  · exact ⟨hrange.1, hrange.2, .inr (by omega)⟩
  · omega

/-- What `IUpdate` writes over another inode's record can be seen. -/
theorem iupdateFrom_cases {s s' : FsState} {ino : Inode}
    (h : iupdateFrom sector s ino time = .ok s') :
    s' = s ∧ ino.iFlag &&& (IUPD ||| IACC) = 0 ∨
      s' = { s with sb := getFS s.sb } ∧ (getFS s.sb).sRonly ≠ 0 ∨
      ∃ o < 512, s'.blk (inodeZoneStartSector + ino.iNumber.tdiv 8) o = sector o := by
  unfold iupdateFrom at h
  split at h
  · next hclean =>
    cases h
    exact .inl ⟨rfl, hclean⟩
  · dsimp only at h
    split at h
    · next hronly =>
      cases h
      exact .inr (.inl ⟨rfl, hronly⟩)
    · split at h
      · cases h
      · cases h
        right
        right
        have hself : ∀ o, (BufferManager.bwrite { s with sb := getFS s.sb }
            ⟨inodeZoneStartSector + ino.iNumber.tdiv 8,
              setInts sector (16 * (ino.iNumber.tmod 8).toNat) (ino.diskInode time) 16⟩).blk
                (inodeZoneStartSector + ino.iNumber.tdiv 8) o =
            setInts sector (16 * (ino.iNumber.tmod 8).toNat) (ino.diskInode time) 16 o :=
          fun o => congrFun (Function.update_self _ _ _) o
        by_cases hslot : (ino.iNumber.tmod 8).toNat = 0
        · refine ⟨64, by omega, ?_⟩
          rw [hself, setInts_of_outside _ _ _ (by omega)]
        · refine ⟨0, by omega, ?_⟩
          rw [hself, setInts_of_outside _ _ _ (by omega)]

/-- If the disk is as before, nothing has been written. -/
theorem iupdateFrom_unseen {s s' : FsState} {ino : Inode}
    (h : iupdateFrom sector s ino time = .ok s')
    (hsector : ∀ o, sector o ≠ s'.blk (inodeZoneStartSector + ino.iNumber.tdiv 8) o) :
    s' = s ∧ ino.iFlag &&& (IUPD ||| IACC) = 0 ∨
      s' = { s with sb := getFS s.sb } ∧ (getFS s.sb).sRonly ≠ 0 := by
  rcases iupdateFrom_cases h with hclean | hronly | ⟨o, -, ho⟩
  · exact .inl hclean
  · exact .inr hronly
  · exact absurd ho.symm (hsector o)

/-- Blocks that have been freed stay visible until the end of `IPut`. -/
theorem Moved.not_unharmed {s₀ s₁ s₂ s' : FsState} {n : ℤ} (h : Moved s₀ s₁)
    (hfree : ifree s₁ n = .ok s₂) (hupdate : s' = s₂ ∨ s' = { s₂ with sb := getFS s₂.sb })
    (hblk : s'.blk = s₀.blk) (hnfree : s'.sb.sNfree = s₀.sb.sNfree)
    (hninode : s'.sb.sNinode = s₀.sb.sNinode) : False := by
  obtain ⟨hblk₂, hnfree₂, -, hninode₂, -⟩ := ifree_cases hfree
  rw [getFS_of_bounds h.sNfree h.sNinode] at hnfree₂
  have hle := h.sNfree
  have hmoved : Moved s₀ s₂ := by
    refine ⟨by omega, hninode₂, ?_⟩
    rw [hblk₂, hnfree₂]
    exact h.moved
  have hsame : s' = s₂ := by
    rcases hupdate with hs | hs
    · exact hs
    · rw [hs, getFS_of_bounds hmoved.sNfree hninode₂]
  rw [hsame] at hblk hnfree hninode
  exact hmoved.not_same hblk hnfree hninode

/-- What `IPut` does with an inode without names. -/
theorem discard_eq_ok {s s₂ : FsState} {ino ino₂ : Inode} (hlink : ino.iNlink ≤ 0)
    (h : discard buffer s ino = .ok (ino₂, s₂)) : ∃ ino₁ s₁, itrunc buffer s ino = .ok (ino₁, s₁) ∧
      ifree s₁ ino₁.iNumber = .ok s₂ ∧ ino₂ = { ino₁ with iMode := 0 } := by
  unfold Inode.discard at h
  rw [if_pos hlink] at h
  obtain ⟨⟨ino₁, s₁⟩, htrunc, h⟩ := Except.bind_eq_ok.mp h
  obtain ⟨s₂', hfree, h⟩ := Except.bind_eq_ok.mp h
  cases h
  exact ⟨ino₁, s₁, htrunc, hfree, rfl⟩

/-- A call that can not be seen has found an entry that does no harm. The buffers are taken to
differ from the disk in every byte. -/
theorem harmless_of_survives (h : c.getFreeInode = some i) (hs : Survives c i number time) :
    Harmless c.fs.sb (c.mInode i) := by
  by_cases hlink : 0 < (c.mInode i).iNlink
  · exact .inl hlink
  right
  have hne : ∀ v : UInt8, v + 1 ≠ v := fun v => by simp
  obtain ⟨c', hcall, hun⟩ := hs (fun b o => c.fs.blk b o + 1)
    (fun o => c.fs.blk (inodeZoneStartSector + number.tdiv 8) o + 1)
  rw [iGetFailed_eq h] at hcall
  obtain ⟨⟨ino', s'⟩, hput, hret⟩ := Except.bind_eq_ok.mp hcall
  cases hret
  obtain ⟨ino₂, s₂, hdiscard, hupdate, -⟩ := iPutFailed_eq_ok hput
  rw [prepared_lock] at hdiscard
  have hlink' : (c.prepared i number).iNlink ≤ 0 := Int.not_lt.mp hlink
  obtain ⟨ino₁, s₁, htrunc, hfree, rfl⟩ := discard_eq_ok hlink' hdiscard
  have hblk : s'.blk = c.fs.blk := hun.blk
  have hnfree : s'.sb.sNfree = c.fs.sb.sNfree := hun.sNfree
  have hninode : s'.sb.sNinode = c.fs.sb.sNinode := hun.sNinode
  cases hdev : (c.mInode i).isDevice with
  | true =>
    have hdev' : (c.prepared i number).isDevice = true := hdev
    unfold itrunc at htrunc
    rw [if_pos hdev'] at htrunc
    cases htrunc
    have hs' : s' = s₂ := by
      rw [iupdateFrom_clean rfl] at hupdate
      cases hupdate
      rfl
    rw [hs'] at hnfree hninode
    have hidle := idle_of_ifree (s := readError c.fs) hfree hnfree hninode
    exact ⟨hidle, .inl rfl⟩
  | false =>
    have hdev' : (c.prepared i number).isDevice = false := hdev
    obtain ⟨-, -, hquiet, hino⟩ := itrunc_fields hdev' htrunc
    have hnumber : ino₁.iNumber = number := by
      rw [hino]
      rfl
    have hcases := iupdateFrom_unseen hupdate (by
      intro o
      rw [hblk]
      change _ ≠ c.fs.blk (inodeZoneStartSector + ino₁.iNumber.tdiv 8) o
      rw [hnumber]
      exact hne (c.fs.blk (inodeZoneStartSector + number.tdiv 8) o))
    by_cases hzero : ∀ k < 10, (c.mInode i).iAddr k = 0
    · have hs₁ : s₁ = readError c.fs := hquiet hzero
      rw [hs₁] at hfree
      have hflag : ino₁.iFlag = ILOCK ||| IUPD := by
        rw [hino]
        rfl
      rcases hcases with ⟨-, hclean⟩ | ⟨hs', hronly⟩
      · change ino₁.iFlag &&& (IUPD ||| IACC) = 0 at hclean
        rw [hflag] at hclean
        exact absurd hclean (by decide)
      · obtain ⟨hblk₂, hnfree₂, hronly₂, hninode₂, -⟩ := ifree_cases hfree
        have hbounds := getFS_bounds (readError c.fs).sb
        rw [hs'] at hnfree hninode
        rw [getFS_of_bounds (hnfree₂ ▸ hbounds.1) hninode₂] at hnfree hninode hronly
        have hidle := idle_of_ifree (s := readError c.fs) hfree hnfree hninode
        exact ⟨hidle, .inr ⟨hzero, fun hr => hronly (hronly₂.trans hr)⟩⟩
    · exfalso
      obtain ⟨k, hk⟩ := not_forall.mp hzero
      obtain ⟨hk, hk'⟩ := Classical.not_imp.mp hk
      have haddr : (c.prepared i number).iAddr k ≠ 0 := hk'
      have hmoved : Moved c.fs s₁ := moved_of_itrunc (s := readError c.fs)
        (fun b => hne (c.fs.blk b 511)) hdev' rfl rfl hk haddr htrunc
      refine hmoved.not_unharmed hfree ?_ hblk hnfree hninode
      rcases hcases with ⟨hs', -⟩ | ⟨hs', -⟩
      · exact .inl hs'
      · exact .inr hs'

/-- **An inode that cannot be read does no harm exactly if the entry for it has been left by an
inode with names, or has nothing that `IPut` can free, cache or write.** -/
theorem unharmed_iff (h : c.getFreeInode = some i) :
    Survives c i number time ↔ Harmless c.fs.sb (c.mInode i) :=
  ⟨harmless_of_survives h, survives_of_harmless h⟩

/-- A table that no inode is in; the inodes that were had `nlink` names at the end. -/
def unusedTable (nlink : ℤ) : InCore where
  fs := ⟨⟨1, fun _ => 0, 0, fun _ => 0, 0, 0, 0, 0⟩, fun _ _ => 0, .NOERROR, 0⟩
  mInode := fun _ => ⟨0, 0, 0, nlink, -1, -1, -1, 0, fun _ => 0, -1⟩

theorem getFreeInode_unusedTable (nlink : ℤ) : (unusedTable nlink).getFreeInode = some 0 := rfl

/-- An entry that is left by an inode with one name. -/
theorem unharmed_one_name : Survives (unusedTable 1) 0 5 0 :=
  (unharmed_iff (getFreeInode_unusedTable 1)).mpr (.inl Int.one_pos)

/-- **The very first entry does harm**: the constructor of `Inode` gives it no names. -/
theorem exists_harmed : ¬ ∀ (c : InCore) (i : Slot) (number time : ℤ), c.getFreeInode = some i →
    Survives c i number time := by
  intro hall
  have hfree := getFreeInode_unusedTable 0
  rcases harmless_of_survives hfree (hall _ _ 5 0 hfree) with hlink | ⟨hidle, -⟩
  · exact Int.lt_irrefl 0 hlink
  · obtain ⟨-, -, hlock | hfull⟩ := hidle
    · exact hlock rfl
    · exact absurd hfull (by decide)

end InCore
end UnixV6pp
