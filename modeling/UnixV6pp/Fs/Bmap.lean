import UnixV6pp.Fs.BlockMap

/-!
# What `Bmap` does

`Bmap` goes down the path of a logical block and fills every empty element on its
way with a new block.  The index block it has reached is in a buffer in its hands,
so the trees are looked at *through* that buffer.

## Main definitions

* `Held` — the state between two parts of `Bmap`.
* `Mapped` — what `Bmap` leaves when no `Alloc` fails.

## Main results

* `firstTable_spec`, `secondTable_spec`, `lastTable_spec` — the parts of `Bmap`.
* `bmap_eq` — the three ways down.
* `bmap_spec` — **`Bmap` returns**, and without a failing `Alloc` it maps the block.
-/

namespace UnixV6pp
namespace Inode

open Words FileSystem IndexTree BufferManager

variable {ι : Type*} [DecidableEq ι]

/-! ### The three ways down -/

/-- `Bmap` down one index block. -/
def bmapLarge (s : FsState) (ino : Inode) (k j : ℕ) : Except Stop (ℤ × Inode × FsState) := do
  match ← firstTable s ino k with
  | (none, ino, s) => return (0, ino, s)
  | (some first, ino, s) =>
    let (phyBlkno, s) ← lastTable s first j
    return (phyBlkno, ino, s)

/-- `Bmap` down two index blocks. -/
def bmapHuge (s : FsState) (ino : Inode) (k j₂ j : ℕ) : Except Stop (ℤ × Inode × FsState) := do
  match ← firstTable s ino k with
  | (none, ino, s) => return (0, ino, s)
  | (some first, ino, s) =>
    match ← secondTable s first j₂ with
    | (none, s) => return (0, ino, s)
    | (some table, s) =>
      let (phyBlkno, s) ← lastTable s table j
      return (phyBlkno, ino, s)

/-- The three ways down. -/
theorem bmap_eq (s : FsState) (ino : Inode) {lbn : ℕ} (hlbn : lbn < 33030) :
    (∃ k, lbnPath lbn = (k, []) ∧ k < 6 ∧ bmap s ino lbn = bmapDirect s ino k) ∨
    (∃ k j, lbnPath lbn = (k, [j]) ∧ IsPath k [j] ∧ bmap s ino lbn = bmapLarge s ino k j) ∨
    ∃ k j₂ j, lbnPath lbn = (k, [j, j₂]) ∧ IsPath k [j, j₂] ∧
      bmap s ino lbn = bmapHuge s ino k j₂ j := by
  have hpath := (isPath_lbnPath hlbn).1
  by_cases h6 : lbn < 6
  · refine .inl ⟨lbn, if_pos h6, h6, ?_⟩
    unfold bmap
    rw [if_neg (by unfold hugeFileBlock; omega), if_pos (by omega)]
  by_cases h262 : lbn < 262
  · have hlbnPath : lbnPath lbn = ((lbn - 6) / 128 + 6, [(lbn - 6) % 128]) := by
      rw [lbnPath, if_neg h6, if_pos h262]
    have hindex : ((lbn : ℤ) - smallFileBlock) / 128 + 6 = ((lbn - 6) / 128 + 6 : ℕ) := by
      unfold smallFileBlock; omega
    have hlast : ((lbn : ℤ) - smallFileBlock) % 128 = ((lbn - 6) % 128 : ℕ) := by
      unfold smallFileBlock; omega
    rw [hlbnPath] at hpath
    refine .inr (.inl ⟨_, _, hlbnPath, hpath, ?_⟩)
    unfold bmap
    rw [if_neg (by unfold hugeFileBlock; omega), if_neg (by omega)]
    simp only [if_pos (show (lbn : ℤ) < largeFileBlock by unfold largeFileBlock; omega), hindex,
      hlast, if_neg (show ¬ (((lbn - 6) / 128 + 6 : ℕ) : ℤ) ≥ 8 by omega), Except.ok_bind]
    rfl
  · have hlbnPath : lbnPath lbn =
        ((lbn - 262) / (128 * 128) + 8, [(lbn - 262) % 128, (lbn - 262) / 128 % 128]) := by
      rw [lbnPath, if_neg h6, if_neg h262]
    have hindex : ((lbn : ℤ) - largeFileBlock) / (128 * 128) + 8 =
        ((lbn - 262) / (128 * 128) + 8 : ℕ) := by
      unfold largeFileBlock; omega
    have hsecond : ((lbn : ℤ) - largeFileBlock) / 128 % 128 = ((lbn - 262) / 128 % 128 : ℕ) := by
      unfold largeFileBlock; omega
    have hlast : ((lbn : ℤ) - largeFileBlock) % 128 = ((lbn - 262) % 128 : ℕ) := by
      unfold largeFileBlock; omega
    rw [hlbnPath] at hpath
    refine .inr (.inr ⟨_, _, _, hlbnPath, hpath, ?_⟩)
    unfold bmap
    rw [if_neg (by unfold hugeFileBlock; omega), if_neg (by omega)]
    simp only [if_neg (show ¬ (lbn : ℤ) < largeFileBlock by unfold largeFileBlock; omega), hindex,
      hsecond, hlast, if_pos (show (((lbn - 262) / (128 * 128) + 8 : ℕ) : ℤ) ≥ 8 by omega)]
    unfold bmapHuge
    refine bind_congr fun r => ?_
    rcases r with ⟨_ | first, ino₁, s₁⟩
    · rfl
    · dsimp only
      refine bind_congr fun r => ?_
      rcases r with ⟨_ | table, s₂⟩
      · rfl
      · rfl

/-! ### Through a buffer -/

/-- The view of the disk with a buffer in front of it. -/
def View.through (s : FsState) (addr : ι → ℕ → ℤ) (buf : Buf) : View ι :=
  ⟨Function.update s.blk buf.bBlkno buf.bAddr, addr⟩

omit [DecidableEq ι] in
theorem View.through_of_clean {s : FsState} {addr : ι → ℕ → ℤ} {buf : Buf}
    (h : buf.bAddr = s.blk buf.bBlkno) : View.through s addr buf = ⟨s.blk, addr⟩ := by
  rw [View.through, h, Function.update_eq_self]

/-- `Alloc` hands out the head of the free list or finds it empty. -/
theorem allocBuf_spec {s : FsState} {L : List ℤ} (h : FreeList s L) (h0 : s.sb.sNfree ≠ 0) :
    (∃ s', allocBuf s = .ok (none, s') ∧ s'.uError = .ENOSPC) ∨
    ∃ b L' s', L = b :: L' ∧ allocBuf s = .ok (some ⟨b, fun _ => 0⟩, s') ∧
      s'.uError = s.uError ∧ s'.blk = s.blk ∧ FreeList s' L' ∧ s'.sb.sNfree ≠ 0 := by
  cases L with
  | nil =>
    obtain ⟨s', halloc, herr, -⟩ := h.alloc_nil h0
    refine .inl ⟨s', ?_, herr⟩
    rw [allocBuf, halloc]
    rfl
  | cons b L =>
    obtain ⟨s', halloc, herr, -, hblk, hfs, hne⟩ := h.alloc_cons
    refine .inr ⟨b, L, s', rfl, ?_, herr, hblk, hfs, hne⟩
    rw [allocBuf, halloc]
    rfl

/-- An index block is held in a buffer: the block at the end of `p`.  The buffer
either agrees with the disk or has just been cleared. -/
structure Held (s : FsState) (addr : ι → ℕ → ℤ) (L : List ℤ) (t : ι × ℕ) (p : List ℕ)
    (buf : Buf) : Prop where
  freeList : FreeList s L
  nfree_ne : s.sb.sNfree ≠ 0
  apart : Apart (View.through s addr buf) L
  at_eq : (View.through s addr buf).at t p = buf.bBlkno
  ne_zero : buf.bBlkno ≠ 0
  clean : buf.bAddr = s.blk buf.bBlkno ∨ ∀ j, getInt buf.bAddr j = 0

/-- The numbers in the inodes after one of them was set. -/
theorem update_addr_apply (addr : ι → ℕ → ℤ) {f : ℕ → ℤ} {i : ι} (hf : f = addr i) (k : ℕ) (b : ℤ)
    (u : ι × ℕ) : Function.update addr i (Function.update f k b) u.1 u.2 =
      if u = (i, k) then b else addr u.1 u.2 := by
  subst hf
  obtain ⟨u, l⟩ := u
  by_cases hu : u = i
  · subst hu
    simp [Function.update_apply]
  · simp [hu]

/-- What `Bmap` leaves of the inode apart from its numbers. -/
def SameFile (ino ino' : Inode) : Prop :=
  ∃ iFlag', ino' = { ino with iAddr := ino'.iAddr, iFlag := iFlag' }

/-- The block at the end of `P` below `i_addr[k]` of the inode `i` is mapped to `r`. -/
structure Mapped (s : FsState) (addr : ι → ℕ → ℤ) (ino : Inode) (i : ι) (k : ℕ) (P : List ℕ)
    (r : ℤ) (ino' : Inode) (s' : FsState) : Prop where
  same : SameFile ino ino'
  uError_eq : s'.uError = s.uError
  ne_zero : r ≠ 0
  sound : ∃ L', Sound s' (Function.update addr i ino'.iAddr) L'
  at_eq : (⟨s'.blk, Function.update addr i ino'.iAddr⟩ : View ι).at (i, k) P = r
  extends_ : Extends (i, k) P ⟨s.blk, addr⟩ ⟨s'.blk, Function.update addr i ino'.iAddr⟩

variable {s : FsState} {ino : Inode} {addr : ι → ℕ → ℤ} {L : List ℤ} {i : ι} {k : ℕ} {P : List ℕ}

/-- **A block named in the inode.** -/
theorem bmapDirect_spec (h : Sound s addr L) (haddr : ino.iAddr = addr i) (hk : k < 6) :
    ∃ r ino' s', bmapDirect s ino k = .ok (r, ino', s') ∧
      (r = 0 ∧ s'.uError = .ENOSPC ∨ Mapped s addr ino i k [] r ino' s') := by
  have hread : readAt 10 ino.iAddr k = .ok (addr i k) := by
    rw [haddr, readAt_ofNat _ (show k < 10 by omega)]
  have hP : IsPath k [] := ⟨by omega, Nat.zero_le _, by simp⟩
  unfold bmapDirect
  rw [hread, Except.ok_bind]
  by_cases h0 : addr i k = 0
  · rw [if_pos h0]
    rcases allocBuf_spec h.freeList h.nfree_ne with
      ⟨s', halloc, herr⟩ | ⟨b, L', s', rfl, halloc, herr, hblk, hfs, hne⟩
    · rw [halloc]
      exact ⟨_, _, _, rfl, .inl ⟨h0, herr⟩⟩
    · have hb := h.freeList.data b (by simp)
      have hbL := (List.nodup_cons.mp h.freeList.nodup).1
      obtain ⟨hap, hext, hat⟩ := h.apart.graftRoot ⟨(bdwrite s' ⟨b, fun _ => 0⟩).blk,
          Function.update addr i (Function.update ino.iAddr k b)⟩ hbL hb h0 hP
        (by rw [bdwrite, hblk]) (update_addr_apply addr haddr k b)
      rw [halloc]
      refine ⟨_, _, _, rfl, .inr ⟨⟨_, rfl⟩, herr, hb.ne_zero, ⟨L', ⟨?_, hne, hap⟩⟩, hat, hext⟩⟩
      exact hfs.of_eq rfl fun c hc => Function.update_of_ne (ne_of_mem_of_not_mem hc hbL) _ _
  · rw [if_neg h0]
    have hsame : Function.update addr i ino.iAddr = addr := by rw [haddr, Function.update_eq_self]
    refine ⟨_, _, _, rfl, .inr ⟨⟨ino.iFlag, rfl⟩, rfl, h0, ⟨L, ?_⟩, ?_, ?_⟩⟩
    · exact ⟨h.freeList.of_eq rfl fun _ _ => rfl, h.nfree_ne, hsame.symm ▸ h.apart⟩
    · change (⟨s.blk, Function.update addr i ino.iAddr⟩ : View ι).at (i, k) [] = _
      rw [hsame]
      rfl
    · change Extends _ _ _ ⟨s.blk, Function.update addr i ino.iAddr⟩
      rw [hsame]
      exact Extends.refl _ _ _

/-- **The index block below the inode.** -/
theorem firstTable_spec (h : Sound s addr L) (haddr : ino.iAddr = addr i) (hk : k < 10)
    (hP : IsPath k P) :
    (∃ ino' s', firstTable s ino k = .ok (none, ino', s') ∧ s'.uError = .ENOSPC) ∨
    ∃ buf ino' L' s', firstTable s ino k = .ok (some buf, ino', s') ∧ SameFile ino ino' ∧
      s'.uError = s.uError ∧ Held s' (Function.update addr i ino'.iAddr) L' (i, k) [] buf ∧
      Extends (i, k) P ⟨s.blk, addr⟩
        (View.through s' (Function.update addr i ino'.iAddr) buf) := by
  have hread : readAt 10 ino.iAddr k = .ok (addr i k) := by rw [haddr, readAt_ofNat _ hk]
  unfold firstTable
  rw [hread, Except.ok_bind]
  by_cases h0 : addr i k = 0
  · rw [if_pos h0]
    rcases allocBuf_spec h.freeList h.nfree_ne with
      ⟨s', halloc, herr⟩ | ⟨b, L', s', rfl, halloc, herr, hblk, hfs, hne⟩
    · rw [halloc]
      exact .inl ⟨_, _, rfl, herr⟩
    · -- the new index block is in the buffer and not on the disk yet
      have hb := h.freeList.data b (by simp)
      have hbL := (List.nodup_cons.mp h.freeList.nodup).1
      obtain ⟨hap, hext, hat⟩ := h.apart.graftRoot (View.through s'
          (Function.update addr i (Function.update ino.iAddr k b)) ⟨b, fun _ => 0⟩) hbL hb h0 hP
        (by rw [View.through, hblk]) (update_addr_apply addr haddr k b)
      rw [halloc]
      exact .inr ⟨_, _, L', s', rfl, ⟨_, rfl⟩, herr,
        ⟨hfs, hne, hap, hat, hb.ne_zero, .inr fun j => getInt_zero j⟩, hext⟩
  · rw [if_neg h0]
    have hsame : Function.update addr i ino.iAddr = addr := by rw [haddr, Function.update_eq_self]
    have hclean : View.through s addr (bread s (addr i k)) = ⟨s.blk, addr⟩ :=
      View.through_of_clean rfl
    refine .inr ⟨_, ino, L, s, rfl, ⟨ino.iFlag, rfl⟩, rfl, ?_, ?_⟩
    · rw [hsame]
      refine ⟨h.freeList, h.nfree_ne, ?_, ?_, h0, .inl rfl⟩
      · rw [hclean]; exact h.apart
      · rw [hclean]; rfl
    · rw [hsame, hclean]
      exact Extends.refl _ _ _

variable {t : ι × ℕ} {p : List ℕ} {buf : Buf} {j : ℕ}

omit [DecidableEq ι] in
/-- The contents of a held buffer are those of its block. -/
theorem View.entry_through :
    getInt ((View.through s addr buf : View ι).blk buf.bBlkno) j = getInt buf.bAddr j := by
  simp only [View.through, Function.update_self]

omit [DecidableEq ι] in
/-- A buffer in which an entry is set agrees with the disk. -/
theorem Held.clean_of_ne (h : Held s addr L t p buf) (hj : getInt buf.bAddr j ≠ 0) :
    buf.bAddr = s.blk buf.bBlkno := by
  rcases h.clean with hc | hz
  · exact hc
  · exact absurd (hz j) hj

omit [DecidableEq ι] in
/-- The head of the free list is none of the blocks at hand. -/
theorem Held.head (h : Held s addr L t p buf) (hp : IsPath t.2 p) {b : ℤ} {L' : List ℤ}
    (hL : L = b :: L') : DataBlock b ∧ b ∉ L' ∧ buf.bBlkno ≠ b ∧ buf.bBlkno ∉ L' := by
  subst hL
  have hnot := h.apart.unlisted t p hp
  rw [h.at_eq, List.mem_cons, not_or] at hnot
  exact ⟨h.freeList.data b (by simp), (List.nodup_cons.mp h.freeList.nodup).1, hnot.1, hnot.2⟩

/-- **From the second level to the first.** -/
theorem secondTable_spec (h : Held s addr L t p buf) (hp : IsPath t.2 (j :: p))
    (hP : IsPath t.2 P) (hpP : j :: p <:+ P) :
    (∃ s', secondTable s buf j = .ok (none, s') ∧ s'.uError = .ENOSPC) ∨
    ∃ buf' L' s', secondTable s buf j = .ok (some buf', s') ∧ s'.uError = s.uError ∧
      Held s' addr L' t (j :: p) buf' ∧
      Extends t P (View.through s addr buf) (View.through s' addr buf') := by
  have hj : j < 128 := hp.index_lt j (by simp)
  have hne := h.at_eq.trans_ne h.ne_zero
  unfold secondTable
  rw [readAt_ofNat _ hj, Except.ok_bind]
  by_cases h0 : getInt buf.bAddr j = 0
  · rw [if_pos h0]
    rcases allocBuf_spec h.freeList h.nfree_ne with
      ⟨s', halloc, herr⟩ | ⟨b, L', s', rfl, halloc, herr, hblk, hfs, hne'⟩
    · refine .inl ⟨s', ?_, herr⟩
      rw [halloc]
      rfl
    · obtain ⟨hb, hbL, hbuf, hbuf'⟩ := h.head hp.tail rfl
      have hx : ∀ x, (View.through (bdwrite s' { buf with bAddr := setInt buf.bAddr j b }) addr
          ⟨b, fun _ => 0⟩ : View ι).blk x =
            if x = buf.bBlkno then setInt ((View.through s addr buf : View ι).blk x) j b
            else if x = b then fun _ => 0 else (View.through s addr buf : View ι).blk x := by
        intro x
        simp only [View.through, bdwrite, hblk]
        by_cases hx : x = buf.bBlkno
        · subst hx
          rw [if_pos rfl, Function.update_of_ne hbuf, Function.update_self, Function.update_self]
        · rw [if_neg hx]
          by_cases hxb : x = b
          · subst hxb
            rw [if_pos rfl, Function.update_self]
          · rw [if_neg hxb, Function.update_of_ne hxb, Function.update_of_ne hx,
              Function.update_of_ne hx]
      obtain ⟨hap, hext, hat⟩ := h.apart.graftEntry _ hbL hb hp h.at_eq h.ne_zero
        (View.entry_through.trans h0) hP hpP hx rfl
      refine .inr ⟨⟨b, fun _ => 0⟩, L', bdwrite s' { buf with bAddr := setInt buf.bAddr j b }, ?_,
        herr, ⟨hfs.of_eq rfl ?_, hne', hap, hat, hb.ne_zero, .inr fun j => getInt_zero j⟩, hext⟩
      · rw [halloc]
        rfl
      · intro c hc
        exact Function.update_of_ne (ne_of_mem_of_not_mem hc hbuf') _ _
  · -- the buffer goes back unchanged and the next index block is read
    rw [if_neg h0]
    have hthis : View.through s addr buf = ⟨s.blk, addr⟩ :=
      View.through_of_clean (h.clean_of_ne h0)
    have hnext : View.through s addr (bread s (getInt buf.bAddr j)) = ⟨s.blk, addr⟩ :=
      View.through_of_clean rfl
    have hat : (View.through s addr buf : View ι).at t (j :: p) = getInt buf.bAddr j := by
      rw [View.at_cons hne, h.at_eq, View.entry_through]
    refine .inr ⟨bread s (getInt buf.bAddr j), L, s, rfl, rfl,
      ⟨h.freeList, h.nfree_ne, ?_, ?_, h0, .inl rfl⟩, ?_⟩
    · rw [hnext, ← hthis]; exact h.apart
    · rw [hnext, ← hthis]; exact hat
    · rw [hnext, ← hthis]; exact Extends.refl _ _ _

/-- **The data block.** -/
theorem lastTable_spec (h : Held s addr L t p buf) (hp : IsPath t.2 (j :: p)) :
    ∃ r s', lastTable s buf j = .ok (r, s') ∧ (r = 0 ∧ s'.uError = .ENOSPC ∨
      s'.uError = s.uError ∧ r ≠ 0 ∧ (∃ L', Sound s' addr L') ∧
      (⟨s'.blk, addr⟩ : View ι).at t (j :: p) = r ∧
      Extends t (j :: p) (View.through s addr buf) ⟨s'.blk, addr⟩) := by
  have hj : j < 128 := hp.index_lt j (by simp)
  have hne := h.at_eq.trans_ne h.ne_zero
  unfold lastTable
  rw [readAt_ofNat _ hj, Except.ok_bind]
  by_cases h0 : getInt buf.bAddr j = 0
  · rw [if_pos h0]
    rcases allocBuf_spec h.freeList h.nfree_ne with
      ⟨s', halloc, herr⟩ | ⟨b, L', s', rfl, halloc, herr, hblk, hfs, hne'⟩
    · rw [halloc]
      exact ⟨_, _, rfl, .inl ⟨h0, herr⟩⟩
    · obtain ⟨hb, hbL, hbuf, hbuf'⟩ := h.head hp.tail rfl
      have hx : ∀ x, (bdwrite (bdwrite s' ⟨b, fun _ => 0⟩)
          { buf with bAddr := setInt buf.bAddr j b }).blk x =
            if x = buf.bBlkno then setInt ((View.through s addr buf : View ι).blk x) j b
            else if x = b then fun _ => 0 else (View.through s addr buf : View ι).blk x := by
        intro x
        simp only [View.through, bdwrite, hblk]
        by_cases hx : x = buf.bBlkno
        · subst hx
          rw [if_pos rfl, Function.update_self, Function.update_self]
        · rw [if_neg hx, Function.update_of_ne hx, Function.update_of_ne hx]
          by_cases hxb : x = b
          · subst hxb
            rw [if_pos rfl, Function.update_self]
          · rw [if_neg hxb, Function.update_of_ne hxb]
      obtain ⟨hap, hext, hat⟩ := h.apart.graftEntry ⟨_, addr⟩ hbL hb hp h.at_eq
        h.ne_zero (View.entry_through.trans h0) hp (List.suffix_refl _) hx rfl
      rw [halloc]
      refine ⟨b, _, rfl, .inr ⟨herr, hb.ne_zero, ⟨L', hfs.of_eq rfl fun c hc => ?_, hne', hap⟩,
        hat, hext⟩⟩
      simp only [bdwrite]
      rw [Function.update_of_ne (ne_of_mem_of_not_mem hc hbuf'),
        Function.update_of_ne (ne_of_mem_of_not_mem hc hbL)]
  · rw [if_neg h0]
    have hthis : View.through s addr buf = ⟨s.blk, addr⟩ :=
      View.through_of_clean (h.clean_of_ne h0)
    have hat : (View.through s addr buf : View ι).at t (j :: p) = getInt buf.bAddr j := by
      rw [View.at_cons hne, h.at_eq, View.entry_through]
    have hap := h.apart
    rw [hthis] at hat hap
    refine ⟨_, _, rfl, .inr ⟨rfl, h0,
      ⟨L, h.freeList.of_eq rfl fun _ _ => rfl, h.nfree_ne, hap⟩, hat, ?_⟩⟩
    rw [hthis]
    exact Extends.refl _ _ _

/-- **One index block.** -/
theorem bmapLarge_spec (h : Sound s addr L) (haddr : ino.iAddr = addr i) {k j : ℕ}
    (hP : IsPath k [j]) :
    ∃ r ino' s', bmapLarge s ino k j = .ok (r, ino', s') ∧ (r = 0 ∧ s'.uError = .ENOSPC ∨
      Mapped s addr ino i k [j] r ino' s') := by
  unfold bmapLarge
  rcases firstTable_spec h haddr hP.root_lt hP with
    ⟨ino', s', hfirst, herr⟩ | ⟨buf, ino', L', s', hfirst, hsame, herr, hheld, hext⟩
  · rw [hfirst]
    exact ⟨_, _, _, rfl, .inl ⟨rfl, herr⟩⟩
  · obtain ⟨r, s'', hlast, hcase⟩ := lastTable_spec hheld hP
    rw [hfirst]
    simp only [Except.ok_bind, hlast]
    refine ⟨_, _, _, rfl, hcase.imp_right ?_⟩
    rintro ⟨herr', hr, hsound, hat, hext'⟩
    exact ⟨hsame, herr'.trans herr, hr, hsound, hat, hext.trans hP hext'⟩

/-- **Two index blocks.** -/
theorem bmapHuge_spec (h : Sound s addr L) (haddr : ino.iAddr = addr i) {k j₂ j : ℕ}
    (hP : IsPath k [j, j₂]) :
    ∃ r ino' s', bmapHuge s ino k j₂ j = .ok (r, ino', s') ∧ (r = 0 ∧ s'.uError = .ENOSPC ∨
      Mapped s addr ino i k [j, j₂] r ino' s') := by
  unfold bmapHuge
  rcases firstTable_spec h haddr hP.root_lt hP with
    ⟨ino', s', hfirst, herr⟩ | ⟨buf, ino', L', s', hfirst, hsame, herr, hheld, hext⟩
  · rw [hfirst]
    exact ⟨_, _, _, rfl, .inl ⟨rfl, herr⟩⟩
  · rw [hfirst, Except.ok_bind]
    dsimp only
    rcases secondTable_spec hheld hP.tail hP (List.suffix_cons _ _) with
      ⟨s₂, hsecond, herr₂⟩ | ⟨buf₂, L₂, s₂, hsecond, herr₂, hheld₂, hext₂⟩
    · rw [hsecond]
      exact ⟨_, _, _, rfl, .inl ⟨rfl, herr₂⟩⟩
    · obtain ⟨r, s₃, hlast, hcase⟩ := lastTable_spec hheld₂ hP
      rw [hsecond]
      simp only [Except.ok_bind, hlast]
      refine ⟨_, _, _, rfl, hcase.imp_right ?_⟩
      rintro ⟨herr₃, hr, hsound, hat, hext₃⟩
      exact ⟨hsame, herr₃.trans (herr₂.trans herr), hr, hsound, hat,
        (hext.trans hP hext₂).trans hP hext₃⟩

/-- **`Bmap` returns**, and without a failing `Alloc` it maps the block. -/
theorem bmap_spec (h : Sound s addr L) (haddr : ino.iAddr = addr i) {lbn : ℕ} (hlbn : lbn < 33030) :
    ∃ r ino' s', bmap s ino lbn = .ok (r, ino', s') ∧ (r = 0 ∧ s'.uError = .ENOSPC ∨
      Mapped s addr ino i (lbnPath lbn).1 (lbnPath lbn).2 r ino' s') := by
  rcases bmap_eq s ino hlbn with ⟨k, hpath, hk, hbmap⟩ | ⟨k, j, hpath, hP, hbmap⟩ |
    ⟨k, j₂, j, hpath, hP, hbmap⟩
  · rw [hpath, hbmap]
    exact bmapDirect_spec h haddr hk
  · rw [hpath, hbmap]
    exact bmapLarge_spec h haddr hP
  · rw [hpath, hbmap]
    exact bmapHuge_spec h haddr hP

end Inode
end UnixV6pp
