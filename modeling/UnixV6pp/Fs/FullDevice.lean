import UnixV6pp.Fs.Ownership

/-!
# `Bmap` on a full device

`Bmap` takes one block after the other, and an `Alloc` that finds none may come when others have
been taken already.  All the free blocks are on the path then, and the last of them is an index
block whose cleared buffer is released and not written.  What is read of it later is what the device
has held there all the time.

* `View.missing` — the blocks a path needs.
* `bmap_ways` — **what `Bmap` does**, with enough blocks and without.
* `refused_iff` — when a failing call leaves the trees as they should be.
* `fullDevice_run` — **every run** of calls and of blocks given back.
-/

namespace UnixV6pp
namespace FileSystem

open Words

variable {s : FsState} {L L' : List ℤ} {b : ℤ}

/-- A stack lists one chain only. -/
theorem Chain.unique {blk : ℤ → Block} {n : ℕ} {sFree : ℕ → ℤ} (h : Chain blk n sFree L)
    (h' : Chain blk n sFree L') : L = L' := by
  induction h generalizing L' with
  | last h0 =>
    cases h' with
    | last => rfl
    | link h0' => exact absurd h0 h0'
    | pop h1 => omega
  | link h0 hn hc ih =>
    cases h' with
    | last h0' => exact absurd h0' h0
    | link _ hn' hc' =>
      have hlen := Int.ofNat.inj (hn.symm.trans hn')
      subst hlen
      rw [ih hc']
    | pop h1 => omega
  | pop h1 h2 h0 hc ih =>
    cases h' with
    | last => omega
    | link => omega
    | pop _ _ _ hc' => rw [ih hc']

theorem FreeList.unique (h : FreeList s L) (h' : FreeList s L') : L = L' := by
  rcases h.chain with ⟨h0, rfl⟩ | ⟨n, hn, hc⟩
  · rcases h'.chain with ⟨-, rfl⟩ | ⟨n, hn, hc⟩
    · rfl
    · have hbounds := hc.bounds
      omega
  · rcases h'.chain with ⟨h0, -⟩ | ⟨n', hn', hc'⟩
    · have hbounds := hc.bounds
      omega
    · have hlen := Int.ofNat.inj (hn.symm.trans hn')
      subst hlen
      exact hc.unique hc'

/-- What an `Alloc` that finds no block leaves. -/
structure Refuses (s s' : FsState) : Prop where
  uError_eq : s'.uError = .ENOSPC
  spent : s'.sb.sNfree = 0
  blk_eq : s'.blk = s.blk
  freeList : FreeList s' []

theorem allocBuf_cons (h : FreeList s (b :: L)) :
    ∃ s', allocBuf s = .ok (some ⟨b, fun _ => 0⟩, s') ∧ s'.uError = s.uError ∧ s'.blk = s.blk ∧
      FreeList s' L ∧ s'.sb.sNfree ≠ 0 := by
  obtain ⟨s', halloc, herr, -, hblk, hfs, hne⟩ := h.alloc_cons
  refine ⟨s', ?_, herr, hblk, hfs, hne⟩
  rw [allocBuf, halloc]
  rfl

theorem allocBuf_nil (h : FreeList s []) (h0 : s.sb.sNfree ≠ 0) :
    ∃ s', allocBuf s = .ok (none, s') ∧ Refuses s s' := by
  obtain ⟨s', halloc, herr, hspent, hblk, hfs⟩ := h.alloc_nil h0
  refine ⟨s', ?_, herr, hspent, hblk, hfs⟩
  rw [allocBuf, halloc]
  rfl

/-- The second `Alloc` in a row that finds no block reads in front of `s_free`. -/
theorem allocBuf_spent (h : FreeList s L) (h0 : s.sb.sNfree = 0) :
    allocBuf s = .error .outside := by
  unfold allocBuf
  rw [h.alloc_empty h0]
  rfl

end FileSystem

namespace Inode

open Words FileSystem IndexTree BufferManager

variable {ι : Type*}

/-! ### The blocks a path needs -/

/-- How many blocks of a path are missing. -/
def View.missing (v : View ι) (t : ι × ℕ) (P : List ℕ) : ℕ :=
  (P.tails.filter fun p => v.at t p = 0).length

/-- How many blocks `Bmap` has to take. -/
def View.needed (v : View ι) (i : ι) (lbn : ℕ) : ℕ := v.missing (i, (lbnPath lbn).1) (lbnPath lbn).2

variable {v : View ι} {t : ι × ℕ} {p P : List ℕ} {j : ℕ}

theorem View.missing_cons :
    v.missing t (j :: p) = v.missing t p + if v.at t (j :: p) = 0 then 1 else 0 := by
  unfold View.missing
  rw [List.tails_cons, List.filter_cons]
  by_cases h : v.at t (j :: p) = 0
  · simp [h]
  · simp [h]

theorem View.missing_nil : v.missing t [] = if v.at t [] = 0 then 1 else 0 := by
  unfold View.missing
  by_cases h : v.at t [] = 0
  · simp [h]
  · simp [h]

/-- A block that is there has the ones above it. -/
theorem View.missing_eq_zero : v.missing t P = 0 ↔ v.at t P ≠ 0 := by
  induction P with
  | nil =>
    rw [View.missing_nil]
    split <;> simp_all
  | cons j p ih =>
    rw [View.missing_cons]
    constructor
    · intro h h0
      rw [if_pos h0] at h
      omega
    · intro h
      rw [if_neg h, ih.mpr (View.at_tail_ne h)]

/-- Below a missing block everything is missing. -/
theorem View.at_cons_zero (h : v.at t p = 0) : v.at t (j :: p) = 0 := walk_cons_of_eq h

theorem View.missing_le_of_suffix (h : p <:+ P) : v.missing t p ≤ v.missing t P := by
  induction P with
  | nil => rw [List.suffix_nil.mp h]
  | cons j P ih =>
    rcases List.suffix_cons_iff.mp h with rfl | h
    · exact Nat.le_refl _
    · rw [View.missing_cons]
      have hle := ih h
      omega

/-! ### The parts of `Bmap` -/

variable [DecidableEq ι] {s s₁ : FsState} {ino ino₁ : Inode} {addr : ι → ℕ → ℤ}
  {L L₁ taken : List ℤ} {i : ι} {k : ℕ} {buf : Buf}

/-- What a call that runs out of blocks leaves: the trees as they should be on a disk `blk'`, which
has the last of the blocks taken cleared. -/
structure Stuck (s : FsState) (addr : ι → ℕ → ℤ) (L : List ℤ) (ino : Inode) (i : ι) (k : ℕ)
    (P : List ℕ) (ino' : Inode) (s' : FsState) : Prop where
  same : SameFile ino ino'
  uError_eq : s'.uError = .ENOSPC
  spent : s'.sb.sNfree = 0
  freeList : FreeList s' []
  trees : ∃ blk' : ℤ → Block, Apart ⟨blk', Function.update addr i ino'.iAddr⟩ [] ∧
    Extends (i, k) P ⟨s.blk, addr⟩ ⟨blk', Function.update addr i ino'.iAddr⟩ ∧
    (∀ x, L.getLast? ≠ some x → s'.blk x = blk' x) ∧
    ∀ b, L.getLast? = some b → blk' b = (fun _ => 0) ∧ s'.blk b = s.blk b

/-- `Bmap` has come down to the end of `p`, and the blocks `taken` were missing. -/
structure Stage (s : FsState) (addr : ι → ℕ → ℤ) (L : List ℤ) (ino : Inode) (i : ι) (k : ℕ)
    (P p : List ℕ) (ino₁ : Inode) (s₁ : FsState) (taken L₁ : List ℤ) (buf : Buf) : Prop where
  held : Held s₁ (Function.update addr i ino₁.iAddr) L₁ (i, k) p buf
  same : SameFile ino ino₁
  ext : Extends (i, k) P ⟨s.blk, addr⟩ (View.through s₁ (Function.update addr i ino₁.iAddr) buf)
  split : L = taken ++ L₁
  length_eq : taken.length = (⟨s.blk, addr⟩ : View ι).missing (i, k) p
  entry_eq : ∀ j, (⟨s.blk, addr⟩ : View ι).at (i, k) (j :: p) = getInt buf.bAddr j
  free_eq : ∀ b ∈ L₁, s₁.blk b = s.blk b
  /-- The buffer agrees with the disk, or it is that of the last block taken and is not written. -/
  kind : (taken = [] ∧ s₁.blk = s.blk ∧ buf.bAddr = s₁.blk buf.bBlkno) ∨
    (taken.getLast? = some buf.bBlkno ∧ buf.bAddr = (fun _ => 0) ∧
      s₁.blk buf.bBlkno = s.blk buf.bBlkno)

/-- No block is left for the next entry. -/
theorem Stage.stuck (h : Stage s addr L ino i k P p ino₁ s₁ taken [] buf) {s₂ : FsState}
    (hrefuses : Refuses s₁ s₂) : Stuck s addr L ino i k P ino₁ s₂ := by
  have hL : L = taken := by rw [h.split, List.append_nil]
  refine ⟨h.same, hrefuses.uError_eq, hrefuses.spent, hrefuses.freeList,
    (View.through s₁ (Function.update addr i ino₁.iAddr) buf).blk, h.held.apart, h.ext, ?_, ?_⟩
  · intro x hx
    rw [hrefuses.blk_eq]
    change s₁.blk x = Function.update s₁.blk buf.bBlkno buf.bAddr x
    by_cases hxb : x = buf.bBlkno
    · subst hxb
      rw [Function.update_self]
      rcases h.kind with ⟨-, -, hclean⟩ | ⟨hlast, -⟩
      · exact hclean.symm
      · exact absurd (hL ▸ hlast) hx
    · rw [Function.update_of_ne hxb]
  · intro b hb
    rcases h.kind with ⟨hnil, -, -⟩ | ⟨hlast, hclear, hstale⟩
    · rw [hL, hnil] at hb
      cases hb
    · rw [hL, hlast] at hb
      obtain rfl := Option.some.inj hb
      rw [hrefuses.blk_eq]
      refine ⟨?_, hstale⟩
      change Function.update s₁.blk buf.bBlkno buf.bAddr buf.bBlkno = _
      rw [Function.update_self, hclear]

/-- **The index block below the inode.** -/
theorem firstTable_ways (h : Sound s addr L) (haddr : ino.iAddr = addr i) (hP : IsPath k P) :
    (∃ ino₁ s₁, firstTable s ino k = .ok (none, ino₁, s₁) ∧
      L.length < (⟨s.blk, addr⟩ : View ι).missing (i, k) [] ∧ Stuck s addr L ino i k P ino₁ s₁) ∨
    ∃ ino₁ s₁ taken L₁ buf, firstTable s ino k = .ok (some buf, ino₁, s₁) ∧
      Stage s addr L ino i k P [] ino₁ s₁ taken L₁ buf := by
  have hread : readAt 10 ino.iAddr k = .ok (addr i k) := by rw [haddr, readAt_ofNat _ hP.root_lt]
  have hspec := firstTable_spec h haddr hP.root_lt hP
  have hsame : Function.update addr i ino.iAddr = addr := by rw [haddr, Function.update_eq_self]
  by_cases h0 : addr i k = 0
  · have hat : (⟨s.blk, addr⟩ : View ι).at (i, k) [] = 0 := h0
    rw [View.missing_nil, if_pos hat]
    cases L with
    | nil =>
      obtain ⟨s', halloc, hrefuses⟩ := allocBuf_nil h.freeList h.nfree_ne
      refine .inl ⟨{ ino with iFlag := ino.iFlag ||| IUPD }, s', ?_, Nat.zero_lt_one, ⟨_, rfl⟩,
        hrefuses.uError_eq, hrefuses.spent, hrefuses.freeList, s.blk, ?_, ?_, ?_, ?_⟩
      · unfold firstTable
        rw [hread, Except.ok_bind, if_pos h0, halloc]
        rfl
      · change Apart ⟨s.blk, Function.update addr i ino.iAddr⟩ []
        rw [hsame]
        exact h.apart
      · change Extends _ _ _ ⟨s.blk, Function.update addr i ino.iAddr⟩
        rw [hsame]
        exact Extends.refl _ _ _
      · intro x _
        rw [hrefuses.blk_eq]
      · intro b hb
        cases hb
    | cons b L =>
      obtain ⟨s', halloc, -, hblk, hfs, -⟩ := allocBuf_cons h.freeList
      have hfirst : firstTable s ino k = .ok (some ⟨b, fun _ => 0⟩,
          { ino with
            iFlag := ino.iFlag ||| IUPD
            iAddr := Function.update ino.iAddr k b }, s') := by
        unfold firstTable
        rw [hread, Except.ok_bind, if_pos h0, halloc]
        rfl
      rcases hspec with ⟨_, _, hnone, -⟩ | ⟨buf, ino₁, L₁, s₁, hsome, hsame₁, -, hheld, hext⟩
      · cases hfirst.symm.trans hnone
      · cases hfirst.symm.trans hsome
        obtain rfl := hheld.freeList.unique hfs
        refine .inr ⟨_, s', [b], L₁, _, hfirst, hheld, hsame₁, hext, rfl, ?_, ?_,
          fun c _ => by rw [hblk], .inr ⟨rfl, rfl, ?_⟩⟩
        · rw [View.missing_nil, if_pos hat]
          rfl
        · intro j
          rw [View.at_cons_zero hat]
          exact (getInt_zero j).symm
        · rw [hblk]
  · have hat : (⟨s.blk, addr⟩ : View ι).at (i, k) [] ≠ 0 := h0
    have hfirst : firstTable s ino k = .ok (some (bread s (addr i k)), ino, s) := by
      unfold firstTable
      rw [hread, Except.ok_bind, if_neg h0]
      rfl
    rcases hspec with ⟨_, _, hnone, -⟩ | ⟨buf, ino₁, L₁, s₁, hsome, hsame₁, -, hheld, hext⟩
    · cases hfirst.symm.trans hnone
    · cases hfirst.symm.trans hsome
      obtain rfl := hheld.freeList.unique h.freeList
      refine .inr ⟨ino, s, [], L₁, _, hfirst, hheld, hsame₁, hext, rfl, ?_, ?_, fun _ _ => rfl,
        .inl ⟨rfl, rfl, rfl⟩⟩
      · rw [View.missing_nil, if_neg hat]
        rfl
      · intro j
        rw [View.at_cons hat]
        rfl

/-- **From the second level to the first.** -/
theorem Stage.secondTable (h : Stage s addr L ino i k P p ino₁ s₁ taken L₁ buf)
    (hp : IsPath k (j :: p)) (hP : IsPath k P) (hpP : j :: p <:+ P) :
    (∃ s₂, Inode.secondTable s₁ buf j = .ok (none, s₂) ∧
      L.length < (⟨s.blk, addr⟩ : View ι).missing (i, k) (j :: p) ∧
      Stuck s addr L ino i k P ino₁ s₂) ∨
    ∃ s₂ taken₂ L₂ buf₂, Inode.secondTable s₁ buf j = .ok (some buf₂, s₂) ∧
      Stage s addr L ino i k P (j :: p) ino₁ s₂ taken₂ L₂ buf₂ := by
  have hread := readAt_ofNat (getInt buf.bAddr) (hp.index_lt j (by simp))
  have hspec := secondTable_spec h.held (t := (i, k)) hp hP hpP
  have hentry := h.entry_eq j
  have hmissing := View.missing_cons (v := ⟨s.blk, addr⟩) (t := (i, k)) (p := p) (j := j)
  by_cases h0 : getInt buf.bAddr j = 0
  · rw [if_pos (hentry.trans h0), ← h.length_eq] at hmissing
    cases L₁ with
    | nil =>
      obtain ⟨s₂, halloc, hrefuses⟩ := allocBuf_nil h.held.freeList h.held.nfree_ne
      refine .inl ⟨s₂, ?_, ?_, h.stuck hrefuses⟩
      · unfold Inode.secondTable
        rw [hread, Except.ok_bind, if_pos h0, halloc]
        rfl
      · rw [hmissing, h.split, List.append_nil]
        exact Nat.lt_succ_self _
    | cons b L₁ =>
      obtain ⟨s₂, halloc, -, hblk, hfs, -⟩ := allocBuf_cons h.held.freeList
      obtain ⟨hb, hbL, hbuf, hbuf'⟩ := h.held.head hp.tail rfl
      have hsecond : Inode.secondTable s₁ buf j = .ok (some ⟨b, fun _ => 0⟩,
          bdwrite s₂ { buf with bAddr := setInt buf.bAddr j b }) := by
        unfold Inode.secondTable
        rw [hread, Except.ok_bind, if_pos h0, halloc]
        rfl
      rcases hspec with ⟨_, hnone, -⟩ | ⟨buf₂, L₂, s₃, hsome, -, hheld, hext⟩
      · cases hsecond.symm.trans hnone
      · cases hsecond.symm.trans hsome
        have hL₂ : L₂ = L₁ := by
          refine hheld.freeList.unique (hfs.of_eq rfl fun c hc => ?_)
          exact Function.update_of_ne (ne_of_mem_of_not_mem hc hbuf') _ _
        subst hL₂
        -- the blocks that are still free are none of those written
        have hwritten : ∀ c, buf.bBlkno ≠ c →
            (bdwrite s₂ { buf with bAddr := setInt buf.bAddr j b }).blk c = s₁.blk c := by
          intro c hc
          rw [← hblk]
          exact Function.update_of_ne (Ne.symm hc) _ _
        refine .inr ⟨_, taken ++ [b], L₂, _, hsecond, hheld, h.same, h.ext.trans hP hext,
          ?_, ?_, ?_, ?_, .inr ⟨List.getLast?_append_cons _ _ _, rfl, ?_⟩⟩
        · rw [h.split, List.append_assoc]
          rfl
        · rw [hmissing, List.length_append]
          rfl
        · intro j'
          rw [View.at_cons_zero (hentry.trans h0)]
          exact (getInt_zero j').symm
        · intro c hc
          rw [hwritten c (Ne.symm (ne_of_mem_of_not_mem hc hbuf')), h.free_eq c (by simp [hc])]
        · exact (hwritten b hbuf).trans (h.free_eq b (by simp))
  · have hat : (⟨s.blk, addr⟩ : View ι).at (i, k) (j :: p) ≠ 0 := by
      rw [hentry]
      exact h0
    rw [if_neg hat, ← h.length_eq, Nat.add_zero] at hmissing
    obtain ⟨hnil, hblk, hclean⟩ := h.kind.resolve_right fun hfresh => by
      refine h0 ?_
      rw [hfresh.2.1, getInt_zero]
    have hsecond : Inode.secondTable s₁ buf j = .ok (some (bread s₁ (getInt buf.bAddr j)), s₁) := by
      unfold Inode.secondTable
      rw [hread, Except.ok_bind, if_neg h0]
      rfl
    rcases hspec with ⟨_, hnone, -⟩ | ⟨buf₂, L₂, s₃, hsome, -, hheld, hext⟩
    · cases hsecond.symm.trans hnone
    · cases hsecond.symm.trans hsome
      obtain rfl := hheld.freeList.unique h.held.freeList
      refine .inr ⟨s₁, taken, L₂, _, hsecond, hheld, h.same, h.ext.trans hP hext, h.split,
        hmissing.symm, ?_, h.free_eq, .inl ⟨hnil, hblk, rfl⟩⟩
      intro j'
      rw [View.at_cons hat, hentry]
      change _ = getInt (s₁.blk _) j'
      rw [hblk]

/-- **The data block.** -/
theorem Stage.lastTable (h : Stage s addr L ino i k (j :: p) p ino₁ s₁ taken L₁ buf)
    (hp : IsPath k (j :: p)) :
    ∃ r s₂, Inode.lastTable s₁ buf j = .ok (r, s₂) ∧
      (r ≠ 0 ∧ (⟨s.blk, addr⟩ : View ι).missing (i, k) (j :: p) ≤ L.length ∨
      r = 0 ∧ L.length < (⟨s.blk, addr⟩ : View ι).missing (i, k) (j :: p) ∧
        Stuck s addr L ino i k (j :: p) ino₁ s₂) := by
  have hread := readAt_ofNat (getInt buf.bAddr) (hp.index_lt j (by simp))
  have hentry := h.entry_eq j
  have hmissing := View.missing_cons (v := ⟨s.blk, addr⟩) (t := (i, k)) (p := p) (j := j)
  have hlength : L.length = taken.length + L₁.length := by rw [h.split, List.length_append]
  rw [hentry, ← h.length_eq] at hmissing
  unfold Inode.lastTable
  rw [hread, Except.ok_bind, hmissing]
  by_cases h0 : getInt buf.bAddr j = 0
  · rw [if_pos h0, if_pos h0]
    cases L₁ with
    | nil =>
      obtain ⟨s₂, halloc, hrefuses⟩ := allocBuf_nil h.held.freeList h.held.nfree_ne
      rw [halloc]
      refine ⟨_, _, rfl, .inr ⟨h0, ?_,
        h.stuck ⟨hrefuses.uError_eq, hrefuses.spent, hrefuses.blk_eq, ?_⟩⟩⟩
      · rw [hlength]
        exact Nat.lt_succ_self _
      · exact hrefuses.freeList.of_eq rfl fun _ _ => rfl
    | cons b L₁ =>
      obtain ⟨s₂, halloc, -⟩ := allocBuf_cons h.held.freeList
      rw [halloc]
      refine ⟨b, _, rfl, .inl ⟨(h.held.freeList.data b (by simp)).ne_zero, ?_⟩⟩
      rw [hlength, List.length_cons]
      omega
  · rw [if_neg h0, if_neg h0]
    exact ⟨_, _, rfl, .inl ⟨h0, by rw [hlength]; omega⟩⟩

/-! ### The whole call -/

/-- **A block named in the inode.** -/
theorem bmapDirect_ways (h : Sound s addr L) (haddr : ino.iAddr = addr i) (hk : k < 6) :
    ∃ r ino' s', bmapDirect s ino k = .ok (r, ino', s') ∧
      (r ≠ 0 ∧ (⟨s.blk, addr⟩ : View ι).missing (i, k) [] ≤ L.length ∨
      r = 0 ∧ L.length < (⟨s.blk, addr⟩ : View ι).missing (i, k) [] ∧
        Stuck s addr L ino i k [] ino' s') := by
  have hread : readAt 10 ino.iAddr k = .ok (addr i k) := by
    rw [haddr, readAt_ofNat _ (show k < 10 by omega)]
  have hsame : Function.update addr i ino.iAddr = addr := by rw [haddr, Function.update_eq_self]
  unfold bmapDirect
  rw [hread, Except.ok_bind, View.missing_nil]
  by_cases h0 : addr i k = 0
  · rw [if_pos h0, if_pos (show (⟨s.blk, addr⟩ : View ι).at (i, k) [] = 0 from h0)]
    cases L with
    | nil =>
      obtain ⟨s', halloc, hrefuses⟩ := allocBuf_nil h.freeList h.nfree_ne
      rw [halloc]
      refine ⟨_, ino, _, rfl, .inr ⟨h0, Nat.zero_lt_one, ⟨ino.iFlag, rfl⟩, hrefuses.uError_eq,
        hrefuses.spent, hrefuses.freeList.of_eq rfl fun _ _ => rfl, s.blk, ?_, ?_, ?_, ?_⟩⟩
      · rw [hsame]
        exact h.apart
      · rw [hsame]
        exact Extends.refl _ _ _
      · intro x _
        exact congrFun hrefuses.blk_eq x
      · intro b hb
        cases hb
    | cons b L =>
      obtain ⟨s', halloc, -⟩ := allocBuf_cons h.freeList
      rw [halloc]
      exact ⟨b, _, _, rfl, .inl ⟨(h.freeList.data b (by simp)).ne_zero, by simp⟩⟩
  · rw [if_neg h0, if_neg (show ¬ (⟨s.blk, addr⟩ : View ι).at (i, k) [] = 0 from h0)]
    exact ⟨_, _, _, rfl, .inl ⟨h0, Nat.zero_le _⟩⟩

/-- **What `Bmap` does** when the stack is not used up. -/
theorem bmap_ways (h : Sound s addr L) (haddr : ino.iAddr = addr i) {lbn : ℕ} (hlbn : lbn < 33030) :
    ∃ r ino' s', bmap s ino lbn = .ok (r, ino', s') ∧
      (r ≠ 0 ∧ (⟨s.blk, addr⟩ : View ι).needed i lbn ≤ L.length ∨
      r = 0 ∧ L.length < (⟨s.blk, addr⟩ : View ι).needed i lbn ∧
        Stuck s addr L ino i (lbnPath lbn).1 (lbnPath lbn).2 ino' s') := by
  unfold View.needed
  rcases bmap_eq s ino hlbn with ⟨k, hpath, hk, hbmap⟩ | ⟨k, j, hpath, hP, hbmap⟩ |
    ⟨k, j₂, j, hpath, hP, hbmap⟩
  · rw [hpath, hbmap]
    exact bmapDirect_ways h haddr hk
  · rw [hpath, hbmap]
    unfold bmapLarge
    rcases firstTable_ways h haddr hP with
      ⟨ino₁, s₁, hfirst, hshort, hstuck⟩ | ⟨ino₁, s₁, taken, L₁, buf, hfirst, hstage⟩
    · rw [hfirst]
      exact ⟨0, ino₁, s₁, rfl,
        .inr ⟨rfl, hshort.trans_le (View.missing_le_of_suffix List.nil_suffix), hstuck⟩⟩
    · obtain ⟨r, s₂, hlast, hcase⟩ := hstage.lastTable hP
      rw [hfirst, Except.ok_bind]
      dsimp only
      rw [hlast]
      exact ⟨r, ino₁, s₂, rfl, hcase⟩
  · rw [hpath, hbmap]
    unfold bmapHuge
    rcases firstTable_ways h haddr hP with
      ⟨ino₁, s₁, hfirst, hshort, hstuck⟩ | ⟨ino₁, s₁, taken, L₁, buf, hfirst, hstage⟩
    · rw [hfirst]
      exact ⟨0, ino₁, s₁, rfl,
        .inr ⟨rfl, hshort.trans_le (View.missing_le_of_suffix List.nil_suffix), hstuck⟩⟩
    · rw [hfirst, Except.ok_bind]
      dsimp only
      rcases hstage.secondTable hP.tail hP (List.suffix_cons _ _) with
        ⟨s₂, hsecond, hshort, hstuck⟩ | ⟨s₂, taken₂, L₂, buf₂, hsecond, hstage₂⟩
      · rw [hsecond]
        exact ⟨0, ino₁, s₂, rfl,
          .inr ⟨rfl, hshort.trans_le (View.missing_le_of_suffix (List.suffix_cons _ _)), hstuck⟩⟩
      · obtain ⟨r, s₃, hlast, hcase⟩ := hstage₂.lastTable hP
        rw [hsecond, Except.ok_bind]
        dsimp only
        rw [hlast]
        exact ⟨r, ino₁, s₃, rfl, hcase⟩

/-! ### Without the stack -/

theorem firstTable_of_eq (s : FsState) (hk : k < 10) (h : ino.iAddr k = 0) :
    ∃ rest, firstTable s ino k = allocBuf s >>= rest := by
  unfold firstTable
  rw [readAt_ofNat _ hk, Except.ok_bind, if_pos h]
  exact ⟨_, rfl⟩

theorem firstTable_of_ne (s : FsState) (hk : k < 10) (h : ino.iAddr k ≠ 0) :
    firstTable s ino k = .ok (some (bread s (ino.iAddr k)), ino, s) := by
  unfold firstTable
  rw [readAt_ofNat _ hk, Except.ok_bind, if_neg h]
  rfl

theorem secondTable_of_eq (s : FsState) (hj : j < 128) (h : getInt buf.bAddr j = 0) :
    ∃ rest, secondTable s buf j = allocBuf s >>= rest := by
  unfold secondTable
  rw [readAt_ofNat _ hj, Except.ok_bind, if_pos h]
  exact ⟨_, rfl⟩

theorem secondTable_of_ne (s : FsState) (hj : j < 128) (h : getInt buf.bAddr j ≠ 0) :
    secondTable s buf j = .ok (some (bread s (getInt buf.bAddr j)), s) := by
  unfold secondTable
  rw [readAt_ofNat _ hj, Except.ok_bind, if_neg h]
  rfl

theorem lastTable_of_eq (s : FsState) (hj : j < 128) (h : getInt buf.bAddr j = 0) :
    ∃ rest, lastTable s buf j = allocBuf s >>= rest := by
  unfold lastTable
  rw [readAt_ofNat _ hj, Except.ok_bind, if_pos h]
  exact ⟨_, rfl⟩

theorem lastTable_of_ne (s : FsState) (hj : j < 128) (h : getInt buf.bAddr j ≠ 0) :
    ∃ rablock, lastTable s buf j = .ok (getInt buf.bAddr j, { s with rablock := rablock }) := by
  unfold lastTable
  rw [readAt_ofNat _ hj, Except.ok_bind, if_neg h]
  exact ⟨_, rfl⟩

/-- What comes behind an `Alloc` does not matter here. -/
theorem bind_rest {α β γ : Type} {x : Except Stop α} {y : Except Stop β} {rest : β → Except Stop α}
    (h : x = y >>= rest) (next : α → Except Stop γ) : ∃ rest', x >>= next = y >>= rest' :=
  ⟨_, by rw [h, bind_assoc]⟩

omit [DecidableEq ι] in
/-- Without a missing block `Bmap` changes nothing; with one it comes to an `Alloc`. -/
theorem bmap_descends (s : FsState) (haddr : ino.iAddr = addr i) {lbn : ℕ} (hlbn : lbn < 33030) :
    if (⟨s.blk, addr⟩ : View ι).block i lbn = 0 then ∃ rest, bmap s ino lbn = allocBuf s >>= rest
    else ∃ rablock, bmap s ino lbn =
      .ok ((⟨s.blk, addr⟩ : View ι).block i lbn, ino, { s with rablock := rablock }) := by
  have hroot : ∀ k, (⟨s.blk, addr⟩ : View ι).at (i, k) [] = ino.iAddr k := by
    intro k
    rw [haddr]
    rfl
  have hentry : ∀ {k : ℕ} {p : List ℕ} (j : ℕ), (⟨s.blk, addr⟩ : View ι).at (i, k) p ≠ 0 →
      (⟨s.blk, addr⟩ : View ι).at (i, k) (j :: p) =
        getInt (bread s ((⟨s.blk, addr⟩ : View ι).at (i, k) p)).bAddr j := fun j h => View.at_cons h
  unfold View.block
  rcases bmap_eq s ino hlbn with ⟨k, hpath, hk, hbmap⟩ | ⟨k, j, hpath, hP, hbmap⟩ |
    ⟨k, j₂, j, hpath, hP, hbmap⟩
  · rw [hpath, hbmap]
    dsimp only
    rw [hroot]
    unfold bmapDirect
    rw [readAt_ofNat _ (show k < 10 by omega), Except.ok_bind]
    split
    · exact ⟨_, rfl⟩
    · exact ⟨_, rfl⟩
  · rw [hpath, hbmap]
    dsimp only
    unfold bmapLarge
    by_cases h0 : ino.iAddr k = 0
    · rw [if_pos (View.at_cons_zero ((hroot k).trans h0))]
      obtain ⟨rest, hfirst⟩ := firstTable_of_eq s hP.root_lt h0
      exact bind_rest hfirst _
    · rw [firstTable_of_ne s hP.root_lt h0, hentry j ((hroot k).trans_ne h0), hroot, Except.ok_bind]
      dsimp only
      split
      · next hlast =>
        obtain ⟨rest, hrest⟩ := lastTable_of_eq s (hP.index_lt j (by simp)) hlast
        exact bind_rest hrest _
      · next hlast =>
        obtain ⟨rablock, hrest⟩ := lastTable_of_ne s (hP.index_lt j (by simp)) hlast
        rw [hrest]
        exact ⟨_, rfl⟩
  · rw [hpath, hbmap]
    dsimp only
    unfold bmapHuge
    by_cases h0 : ino.iAddr k = 0
    · rw [if_pos (View.at_cons_zero (View.at_cons_zero ((hroot k).trans h0)))]
      obtain ⟨rest, hfirst⟩ := firstTable_of_eq s hP.root_lt h0
      exact bind_rest hfirst _
    · have hne := (hroot k).trans_ne h0
      have hsecond := hentry j₂ hne
      rw [hroot] at hsecond
      rw [firstTable_of_ne s hP.root_lt h0, Except.ok_bind]
      dsimp only
      by_cases h1 : getInt (bread s (ino.iAddr k)).bAddr j₂ = 0
      · rw [if_pos (View.at_cons_zero (hsecond.trans h1))]
        obtain ⟨rest, hrest⟩ := secondTable_of_eq s (hP.index_lt j₂ (by simp)) h1
        exact bind_rest hrest _
      · rw [secondTable_of_ne s (hP.index_lt j₂ (by simp)) h1, Except.ok_bind,
          hentry j (hsecond.trans_ne h1), hsecond]
        dsimp only
        split
        · next hlast =>
          obtain ⟨rest, hrest⟩ := lastTable_of_eq s (hP.index_lt j (by simp)) hlast
          exact bind_rest hrest _
        · next hlast =>
          obtain ⟨rablock, hrest⟩ := lastTable_of_ne s (hP.index_lt j (by simp)) hlast
          rw [hrest]
          exact ⟨_, rfl⟩

/-! ### Runs -/

/-- The trees and the free blocks of a device, whose stack may be used up. -/
structure Whole (d : Files ι) (L : List ℤ) : Prop where
  freeList : FreeList d.fs L
  apart : Apart d.view L

/-- What a call should leave that runs out of blocks. -/
structure Refused (d : Files ι) (L : List ℤ) (i : ι) (lbn : ℕ) (ret : ℤ) (d' : Files ι) : Prop where
  ret_eq : ret = 0
  uError_eq : d'.fs.uError = .ENOSPC
  /-- The other logical blocks are where they were. -/
  block_eq : ∀ j (lbn' : ℕ), lbn' < 33030 → (j, lbn') ≠ (i, lbn) →
    d'.view.block j lbn' = d.view.block j lbn'
  /-- Every entry is 0 or a block of its inode. -/
  whole : ∃ L', Whole d' L'
  /-- The index block taken last is clear. -/
  clear : ∀ b, L.getLast? = some b → ∀ k < 128, getInt (d'.fs.blk b) k = 0

/-- The stack is not used up, and the device holds zeros in the last of the free blocks. -/
def Spared (d : Files ι) (L : List ℤ) : Prop :=
  d.fs.sb.sNfree ≠ 0 ∧ ∀ b, L.getLast? = some b → ∀ k < 128, getInt (d.fs.blk b) k = 0

variable {d d' d₀ : Files ι} {L₀ : List ℤ} {ino' : Inode} {fs' : FsState} {ret : ℤ}

omit [DecidableEq ι] in
/-- Index blocks with the same entries hold the same trees. -/
theorem View.at_entries (v v' : View ι) (haddr : v'.addr = v.addr)
    (hentry : ∀ b, ∀ k < 128, getInt (v'.blk b) k = getInt (v.blk b) k) (u : ι × ℕ) (q : List ℕ)
    (hq : IsPath u.2 q) : v'.at u q = v.at u q := by
  induction q with
  | nil =>
    change v'.addr u.1 u.2 = v.addr u.1 u.2
    rw [haddr]
  | cons j q ih =>
    have hat := ih hq.tail
    by_cases h0 : v.at u q = 0
    · rw [View.at_cons_zero h0, View.at_cons_zero (hat.trans h0)]
    · rw [View.at_cons h0, View.at_cons (hat.trans_ne h0), hat,
        hentry _ j (hq.index_lt j (by simp))]

/-- A call without blocks leaves the trees as they should be **if and only if** the last block was
clear on the device. -/
theorem refused_of_stuck {lbn : ℕ} (hlbn : lbn < 33030)
    (hstuck : Stuck d.fs d.view.addr L (d.inodes i) i (lbnPath lbn).1 (lbnPath lbn).2 ino' fs') :
    Refused d L i lbn 0 (d.set fs' i ino') ↔
      ∀ b, L.getLast? = some b → ∀ k < 128, getInt (d.fs.blk b) k = 0 := by
  obtain ⟨blk', hapart, hext, hblk, hlast⟩ := hstuck.trees
  constructor
  · intro hrefused b hb k hk
    have hclear := hrefused.clear b hb k hk
    rw [Files.fs_set, (hlast b hb).2] at hclear
    exact hclear
  · intro hzero
    have hview := d.view_set i ino' fs'
    -- the last block reads as if it had been written
    have hat : ∀ (u : ι × ℕ) q, IsPath u.2 q → (d.set fs' i ino').view.at u q =
        (⟨blk', Function.update d.view.addr i ino'.iAddr⟩ : View ι).at u q := by
      intro u q hq
      rw [hview]
      refine View.at_entries ⟨blk', _⟩ ⟨fs'.blk, _⟩ rfl (fun b k hk => ?_) u q hq
      change getInt (fs'.blk b) k = getInt (blk' b) k
      by_cases hb : L.getLast? = some b
      · rw [(hlast b hb).1, (hlast b hb).2, hzero b hb k hk, getInt_zero]
      · rw [hblk b hb]
    refine ⟨rfl, hstuck.uError_eq, ?_, ⟨[], hstuck.freeList, ?_⟩, ?_⟩
    · intro j lbn' hlbn' hne
      obtain ⟨hpath, hlen⟩ := isPath_lbnPath hlbn'
      unfold View.block
      rw [hat (j, (lbnPath lbn').1) _ hpath]
      refine hext.at_eq (j, (lbnPath lbn').1) _ hpath (.inr ?_)
      intro hsame
      obtain ⟨htree, hsuffix⟩ := hsame
      obtain ⟨rfl, hk⟩ := Prod.mk.inj htree
      have hlen' := (isPath_lbnPath hlbn).2
      rw [← hk, ← hlen] at hlen'
      have hsamePath := hsuffix.eq_of_length hlen'.symm
      exact hne (by rw [lbnPath_inj hlbn' hlbn (Prod.ext hk hsamePath)])
    · refine hapart.shrink (fun u q hq => .inr (hat u q hq)) ?_
      intro u q _
      exact List.not_mem_nil
    · intro b hb k hk
      rw [Files.fs_set, (hlast b hb).2]
      exact hzero b hb k hk

/-- **A call that runs out of blocks** is refused as it should be if and only if the stack is not
used up and the last free block was clear. -/
theorem Whole.refused_iff (h : Whole d L) {lbn : ℕ} (hlbn : lbn < 33030)
    (hshort : L.length < d.view.needed i lbn) :
    (∃ ret ino' fs', bmap d.fs (d.inodes i) lbn = .ok (ret, ino', fs') ∧
      Refused d L i lbn ret (d.set fs' i ino')) ↔ Spared d L := by
  unfold Spared
  by_cases h0 : d.fs.sb.sNfree = 0
  · -- a missing block makes the call come to an `Alloc`
    have hblock : d.view.block i lbn = 0 := by
      by_contra hne
      unfold View.needed at hshort
      rw [View.missing_eq_zero.mpr hne] at hshort
      exact Nat.not_lt_zero _ hshort
    have hdescends := bmap_descends d.fs (d.addr_view i) hlbn
    rw [if_pos (show (⟨d.fs.blk, d.view.addr⟩ : View ι).block i lbn = 0 from hblock)] at hdescends
    obtain ⟨rest, hbmap⟩ := hdescends
    rw [allocBuf_spent h.freeList h0] at hbmap
    constructor
    · intro hok
      obtain ⟨ret, ino', fs', heq, -⟩ := hok
      cases hbmap.symm.trans heq
    · intro hspared
      exact absurd h0 hspared.1
  · obtain ⟨r, ino', fs', hbmap, hcase⟩ := bmap_ways ⟨h.freeList, h0, h.apart⟩ (d.addr_view i) hlbn
    rcases hcase with ⟨-, henough⟩ | ⟨rfl, -, hstuck⟩
    · exact absurd henough (not_le.mpr hshort)
    · rw [← refused_of_stuck hlbn hstuck]
      constructor
      · intro hok
        obtain ⟨ret, ino₁, fs₁, heq, hrefused⟩ := hok
        cases hbmap.symm.trans heq
        exact ⟨h0, hrefused⟩
      · intro hok
        exact ⟨0, ino', fs', hbmap, hok.2⟩

/-- What happens on the device. -/
inductive DeviceCall (ι : Type*)
  | bmap (i : ι) (lbn : ℕ)
  | itrunc (i : ι)
  | free (b : ℤ)

/-- A call that returns; `Free` is given a block that belongs to no tree and is not free. -/
inductive Given : Files ι → DeviceCall ι → Files ι → Prop
  | bmap {d : Files ι} {i : ι} {lbn : ℕ} {ret : ℤ} {ino' : Inode} {fs' : FsState}
      (h : Inode.bmap d.fs (d.inodes i) lbn = .ok (ret, ino', fs')) :
      Given d (.bmap i lbn) (d.set fs' i ino')
  | itrunc {d : Files ι} {i : ι} {buffer : ℤ → Block} {ino' : Inode} {fs' : FsState}
      (hdev : (d.inodes i).isDevice = false)
      (h : Inode.itrunc buffer d.fs (d.inodes i) = .ok (ino', fs')) :
      Given d (.itrunc i) (d.set fs' i ino')
  | free {d : Files ι} {b : ℤ} {buffer : ℤ → Block} {fs' : FsState} (hdata : DataBlock b)
      (hlisted : ∀ L, FreeList d.fs L → b ∉ L)
      (howned : ∀ (u : ι × ℕ) q, IsPath u.2 q → d.view.at u q ≠ b)
      (h : FileSystem.free buffer d.fs b = .ok fs') :
      Given d (.free b) ⟨fs', d.inodes⟩

/-- A call has enough blocks, or it is spared what the device holds. -/
def Spares (d : Files ι) : DeviceCall ι → Prop
  | .bmap i lbn => lbn < 33030 → ∀ L, FreeList d.fs L → d.view.needed i lbn ≤ L.length ∨ Spared d L
  | _ => True

/-- What leaves the stack, its blocks and the trees alone. -/
theorem Whole.same (h : Whole d L) (hsb : fs'.sb = d.fs.sb) (hblk : fs'.blk = d.fs.blk)
    (haddr : ino'.iAddr = (d.inodes i).iAddr) : Whole (d.set fs' i ino') L := by
  have hview : (d.set fs' i ino').view = d.view := by
    rw [d.view_set, hblk, haddr, d.addr_view, Function.update_eq_self]
    rfl
  refine ⟨h.freeList.of_eq hsb fun b _ => by rw [Files.fs_set, hblk], ?_⟩
  rw [hview]
  exact h.apart

/-- `Bmap` with enough blocks. -/
theorem Whole.bmap_enough (h : Whole d L) {lbn : ℕ} (hlbn : lbn < 33030)
    (henough : d.view.needed i lbn ≤ L.length)
    (heq : bmap d.fs (d.inodes i) lbn = .ok (ret, ino', fs')) :
    ∃ L', Whole (d.set fs' i ino') L' := by
  by_cases hblock : d.view.block i lbn = 0
  · -- a block is taken, so there is one on the stack
    have h0 : d.fs.sb.sNfree ≠ 0 := by
      cases L with
      | nil =>
        have hneeded : d.view.needed i lbn = 0 := Nat.le_zero.mp henough
        exact absurd hblock (View.missing_eq_zero.mp hneeded)
      | cons b L => exact h.freeList.nfree_ne_zero
    have hsound : Sound d.fs d.view.addr L := ⟨h.freeList, h0, h.apart⟩
    obtain ⟨r, ino₁, fs₁, hbmap, hcase⟩ := bmap_ways hsound (d.addr_view i) hlbn
    cases hbmap.symm.trans heq
    rcases hcase with ⟨hne, -⟩ | ⟨-, hshort, -⟩
    · obtain ⟨r₂, ino₂, fs₂, hbmap₂, hcase₂⟩ := bmap_spec hsound (d.addr_view i) hlbn
      cases hbmap₂.symm.trans heq
      have hmapped := hcase₂.resolve_left fun hfail => hne hfail.1
      obtain ⟨L', hsound'⟩ := hmapped.sound
      refine ⟨L', hsound'.freeList, ?_⟩
      rw [d.view_set]
      exact hsound'.apart
    · exact absurd hshort (not_lt.mpr henough)
  · have hdescends := bmap_descends d.fs (d.addr_view i) hlbn
    rw [if_neg (show ¬ (⟨d.fs.blk, d.view.addr⟩ : View ι).block i lbn = 0 from hblock)] at hdescends
    obtain ⟨rablock, hbmap⟩ := hdescends
    cases hbmap.symm.trans heq
    exact ⟨L, h.same rfl rfl rfl⟩

/-- **One call.** -/
theorem Whole.step (h : Whole d L) {e : DeviceCall ι} (hspares : Spares d e)
    (hgiven : Given d e d') : ∃ L', Whole d' L' := by
  cases hgiven with
  | @bmap i lbn ret ino' fs' heq =>
    by_cases hlbn : lbn < 33030
    · by_cases henough : d.view.needed i lbn ≤ L.length
      · exact h.bmap_enough hlbn henough heq
      · have hspared := (hspares hlbn L h.freeList).resolve_left henough
        obtain ⟨r, ino₁, fs₁, hbmap, hrefused⟩ :=
          (h.refused_iff hlbn (not_le.mp henough)).mpr hspared
        cases hbmap.symm.trans heq
        exact hrefused.whole
    · rw [bmap_refused _ _ (not_lt.mp hlbn)] at heq
      cases heq
      exact ⟨L, h.same rfl rfl rfl⟩
  | @itrunc i buffer ino' fs' hdev heq =>
    have hfreeable : Freeable d.fs.blk d.fs L (fileBlocks d.fs.blk (d.inodes i).iAddr) :=
      h.apart.freeable h.freeList i
    obtain ⟨ino₁, s₁, htrunc, hino, -, hfs, -, hblk⟩ := itrunc_of_freeable hfreeable hdev buffer
    cases htrunc.symm.trans heq
    have hzero : ∀ k < 10, ino'.iAddr k = 0 := by
      intro k hk
      rw [hino]
      exact if_pos hk
    rw [d.addr_view] at hfs hblk
    obtain ⟨hapart, -⟩ := h.apart.trunc hfs hblk hzero
    refine ⟨_, hfs, ?_⟩
    rw [d.view_set]
    exact hapart
  | @free b buffer fs' hdata hlisted howned heq =>
    obtain ⟨s', hfree, -, -, hblk, hfs⟩ := h.freeList.free hdata (hlisted L h.freeList) buffer
    cases hfree.symm.trans heq
    have hat : ∀ (u : ι × ℕ) q, IsPath u.2 q →
        (⟨fs', d.inodes⟩ : Files ι).view.at u q = d.view.at u q := by
      intro u q hq
      have hkept : ∀ (u : ι × ℕ) j q, True → IsPath u.2 (j :: q) → d.view.at u q ≠ 0 →
          (⟨fs', d.inodes⟩ : Files ι).view.blk (d.view.at u q) = d.view.blk (d.view.at u q) :=
        fun u j q _ hq _ => hblk _ (howned u q hq.tail)
      have haddr : ∀ i, True → (⟨fs', d.inodes⟩ : Files ι).view.addr i = d.view.addr i :=
        fun _ _ => rfl
      exact View.at_congr haddr hkept u q trivial hq
    refine ⟨b :: L, hfs, h.apart.shrink (fun u q hq => .inr (hat u q hq)) ?_⟩
    intro u q hq
    rw [hat u q hq, List.mem_cons, not_or]
    exact ⟨howned u q hq, h.apart.unlisted u q hq⟩

/-- **Every run** of calls that have enough blocks or are spared: the entries are 0 or blocks of
their inodes, and the next call that runs out of blocks is refused as it should be if and only if
it is spared. -/
theorem fullDevice_run (h₀ : Whole d₀ L₀) (hrun : Runs Given Spares d₀ d) :
    ∃ L, Whole d L ∧ ∀ i (lbn : ℕ), lbn < 33030 → L.length < d.view.needed i lbn →
      ((∃ ret ino' fs', bmap d.fs (d.inodes i) lbn = .ok (ret, ino', fs') ∧
        Refused d L i lbn ret (d.set fs' i ino')) ↔ Spared d L) := by
  obtain ⟨L, hL⟩ : ∃ L, Whole d L := by
    refine hrun.invariant (I := fun d => ∃ L, Whole d L) ?_ ⟨L₀, h₀⟩
    intro s e s' hs hspares hgiven
    obtain ⟨L, hL⟩ := hs
    exact hL.step hspares hgiven
  exact ⟨L, hL, fun i lbn hlbn hshort => hL.refused_iff hlbn hshort⟩

/-! ### One block on the device -/

/-- An empty file and one free block, in which the device holds `data`. -/
def lastBlock (data : Block) : Files Unit :=
  ⟨{ oneBlock.fs with blk := fun _ => data }, fun _ => empty⟩

theorem whole_lastBlock (data : Block) : Whole (lastBlock data) [1024] := by
  have hat : ∀ (t : Unit × ℕ) p, (lastBlock data).view.at t p = 0 := fun t p => walk_zero p
  refine ⟨⟨?_, rfl, by simp [DataBlock, dataZoneStartSector], by simp, .inr ⟨2, rfl, ?_⟩⟩,
    ?_, ?_, ?_⟩
  · change (0 : ℤ) ≤ 100
    decide
  · exact .pop (n := 1) (by omega) (by omega) (by simp [lastBlock, oneBlock])
      (.last (by simp [lastBlock, oneBlock]))
  · intro t p u q _ _ hne
    exact absurd (hat t p) hne
  · intro t p _ hne
    exact absurd (hat t p) hne
  · intro t p _
    rw [hat]
    simp

/-- The seventh block of the file needs an index block too. -/
theorem needed_lastBlock (data : Block) :
    [(1024 : ℤ)].length < (lastBlock data).view.needed () 6 := by
  have hat : ∀ (t : Unit × ℕ) p, (lastBlock data).view.at t p = 0 := fun t p => walk_zero p
  unfold View.needed View.missing
  simp only [hat]
  decide

/-- The device holds zeros. -/
theorem fullDevice_run_zeros : ∃ ret ino' fs',
    bmap (lastBlock fun _ => 0).fs empty 6 = .ok (ret, ino', fs') ∧
    Refused (lastBlock fun _ => 0) [1024] () 6 ret ((lastBlock fun _ => 0).set fs' () ino') := by
  obtain ⟨L, hL, hiff⟩ := fullDevice_run (whole_lastBlock fun _ => 0) (Runs.refl _)
  obtain rfl := hL.freeList.unique (whole_lastBlock fun _ => 0).freeList
  refine (hiff () 6 (by decide) (needed_lastBlock _)).mpr ⟨by decide, ?_⟩
  intro b _ k _
  exact getInt_zero k

/-- The device holds something else: the new index block reads back as that. -/
theorem not_refused : ¬ ∀ (d : Files Unit) (L : List ℤ) (i : Unit) (lbn : ℕ), Whole d L →
    lbn < 33030 → d.fs.sb.sNfree ≠ 0 → L.length < d.view.needed i lbn →
    ∃ ret ino' fs', bmap d.fs (d.inodes i) lbn = .ok (ret, ino', fs') ∧
      Refused d L i lbn ret (d.set fs' i ino') := by
  intro hall
  have hwhole := whole_lastBlock fun _ => 1
  have hok := hall _ _ () 6 hwhole (by decide) (by decide) (needed_lastBlock _)
  obtain ⟨-, hzero⟩ := (hwhole.refused_iff (by decide) (needed_lastBlock _)).mp hok
  have hbyte := hzero 1024 rfl 0 (by decide)
  revert hbyte
  decide

end Inode
end UnixV6pp
