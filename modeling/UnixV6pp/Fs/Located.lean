import UnixV6pp.Fs.Transfer

/-!
# A file without holes

A search in a file whose blocks are all there allocates nothing: `Bmap` finds each
block and changes no more than the number of the block to read ahead.  Past the end
it may map one more block, which is none of those of the file.

## Main definitions

* `blockOf` — the block of a logical block, by the inode alone.
* `Located` — a file whose blocks lie at known places and hold its bytes.

## Main results

* `bmap_mapped` — `Bmap` of a block that is there.
* `Holds.bmap_end` — `Bmap` of the first block behind the file.
-/

namespace UnixV6pp

/-- The state with another block to read ahead. -/
def FsState.ahead (s : FsState) (r : ℤ) : FsState := { s with rablock := r }

namespace Inode

open Words FileSystem IndexTree BufferManager

/-- The physical block of a logical block of the inode, or 0. -/
def blockOf (s : FsState) (ino : Inode) (lbn : ℕ) : ℤ :=
  walk (fun a j => getInt (s.blk a) j) (ino.iAddr (lbnPath lbn).1) (lbnPath lbn).2

variable {s : FsState} {ino : Inode}

theorem firstTable_mapped {k : ℕ} (hk : k < 10) (hne : ino.iAddr k ≠ 0) :
    firstTable s ino k = .ok (some (bread s (ino.iAddr k)), ino, s) := by
  rw [firstTable, readAt_ofNat _ hk, Except.ok_bind, if_neg hne]
  rfl

theorem secondTable_mapped (s : FsState) (buf : Buf) {j : ℕ} (hj : j < 128) (hne : getInt buf.bAddr j ≠ 0) :
    secondTable s buf j = .ok (some (bread s (getInt buf.bAddr j)), s) := by
  rw [secondTable, readAt_ofNat _ hj, Except.ok_bind, if_neg hne]
  rfl

theorem lastTable_mapped (s : FsState) (buf : Buf) {j : ℕ} (hj : j < 128) (hne : getInt buf.bAddr j ≠ 0) :
    ∃ r, lastTable s buf j = .ok (getInt buf.bAddr j, s.ahead r) := by
  rw [lastTable, readAt_ofNat _ hj, Except.ok_bind, if_neg hne]
  exact ⟨_, rfl⟩

/-- **`Bmap` of a block that is there** finds it. -/
theorem bmap_mapped {lbn : ℕ} (hlbn : lbn < 33030) (hne : blockOf s ino lbn ≠ 0) :
    ∃ r, bmap s ino lbn = .ok (blockOf s ino lbn, ino, s.ahead r) := by
  unfold blockOf at hne ⊢
  rcases bmap_eq s ino hlbn with ⟨k, hpath, hk, hbmap⟩ | ⟨k, j, hpath, hP, hbmap⟩ |
    ⟨k, j₂, j, hpath, hP, hbmap⟩
  · rw [hpath] at hne ⊢
    simp only [walk_nil] at hne ⊢
    rw [hbmap, bmapDirect, readAt_ofNat _ (show k < 10 by omega), Except.ok_bind, if_neg hne]
    exact ⟨_, rfl⟩
  · rw [hpath] at hne ⊢
    have hroot := walk_tail_ne hne
    rw [walk_cons_of_ne hroot, walk_nil] at hne ⊢
    rw [walk_nil] at hroot
    obtain ⟨r, htable⟩ := lastTable_mapped s (bread s (ino.iAddr k)) (hP.index_lt j (by simp)) hne
    refine ⟨r, ?_⟩
    rw [hbmap, bmapLarge, firstTable_mapped hP.root_lt hroot, Except.ok_bind]
    exact (congrArg (· >>= _) htable).trans rfl
  · rw [hpath] at hne ⊢
    have hmid := walk_tail_ne hne
    have hroot := walk_tail_ne hmid
    rw [walk_cons_of_ne hmid] at hne ⊢
    rw [walk_cons_of_ne hroot, walk_nil] at hmid hne ⊢
    rw [walk_nil] at hroot
    have htable := secondTable_mapped s (bread s (ino.iAddr k)) (hP.index_lt j₂ (by simp)) hmid
    obtain ⟨r, htable'⟩ := lastTable_mapped s (bread s (getInt (s.blk (ino.iAddr k)) j₂))
      (hP.index_lt j (by simp)) hne
    refine ⟨r, ?_⟩
    rw [hbmap, bmapHuge, firstTable_mapped hP.root_lt hroot, Except.ok_bind]
    dsimp only
    rw [htable, Except.ok_bind]
    exact (congrArg (· >>= _) htable').trans rfl

/-- The file lies on the device without a hole. -/
structure Located (s : FsState) (ino : Inode) (f : FlatFile) : Prop where
  size_eq : ino.iSize = f.size
  size_le : f.size ≤ maxFileSize
  mapped : ∀ lbn, 512 * lbn < f.size → blockOf s ino lbn ≠ 0
  byte_eq : ∀ o < f.size, s.blk (blockOf s ino (o / 512)) (o % 512) = f.bytes o
  /-- No block holds two parts of the file. -/
  apart : ∀ lbn lbn', 512 * lbn < f.size → 512 * lbn' < f.size →
    blockOf s ino lbn = blockOf s ino lbn' → lbn = lbn'

theorem Located.ahead {f : FlatFile} (h : Located s ino f) (r : ℤ) :
    Located (s.ahead r) ino f :=
  ⟨h.size_eq, h.size_le, h.mapped, h.byte_eq, h.apart⟩

section Holds

variable {ι : Type*} [DecidableEq ι] {d : Files ι} {F : ι → FlatFile} {i : ι} {L : List ℤ}

omit [DecidableEq ι] in
/-- Distinct logical blocks have distinct blocks. -/
theorem Inv.block_inj (h : Inv d L) {lbn lbn' : ℕ} (hlbn : lbn < 33030) (hlbn' : lbn' < 33030)
    (hne : d.view.block i lbn ≠ 0) (heq : d.view.block i lbn = d.view.block i lbn') :
    lbn = lbn' := by
  obtain ⟨htree, hpath⟩ := h.sound.apart.owned (i, (lbnPath lbn).1) _ (i, (lbnPath lbn').1) _
    (isPath_lbnPath hlbn).1 (isPath_lbnPath hlbn').1 hne heq
  exact lbnPath_inj hlbn hlbn' (Prod.ext (Prod.mk.inj htree).2 hpath)

omit [DecidableEq ι] in
/-- The files of a device that have no hole. -/
theorem Holds.located (h : Holds d F) (hmapped : ∀ lbn, 512 * lbn < (F i).size →
    d.view.block i lbn ≠ 0) : Located d.fs (d.inodes i) (F i) := by
  have hle := h.size_le i
  have hlbn {lbn : ℕ} (hlt : 512 * lbn < (F i).size) : lbn < 33030 := by
    unfold maxFileSize at hle; omega
  refine ⟨h.size_eq i, hle, hmapped, ?_, ?_⟩
  · intro o ho
    have hbyte := h.byte_eq i o (by omega)
    rw [View.byte, if_neg (hmapped (o / 512) (by omega))] at hbyte
    exact hbyte
  · obtain ⟨L, hinv⟩ := h.inv
    intro lbn lbn' hlt hlt' heq
    exact hinv.block_inj (hlbn hlt) (hlbn hlt') (hmapped lbn hlt) heq

/-- Another block to read ahead. -/
theorem Holds.ahead (h : Holds d F) (r : ℤ) :
    Holds (d.set (d.fs.ahead r) i (d.inodes i)) F := by
  obtain ⟨L, hinv⟩ := h.inv
  have hset : d.set (d.fs.ahead r) i (d.inodes i) = ⟨d.fs.ahead r, d.inodes⟩ := by
    rw [Files.set, Function.update_eq_self]
  rw [hset]
  have hsound : Sound (d.fs.ahead r) d.view.addr L :=
    ⟨hinv.sound.freeList.of_eq rfl fun _ _ => rfl, hinv.sound.nfree_ne, hinv.sound.apart⟩
  exact ⟨⟨L, hsound, hinv.plain, hinv.number_lt⟩, h.uError_eq, h.size_eq, h.size_le, h.byte_eq⟩

/-- **The block behind the file** is none of its blocks. -/
theorem Holds.bmap_end (h : Holds d F) (hmapped : ∀ lbn, 512 * lbn < (F i).size →
    d.view.block i lbn ≠ 0) (r : ℤ) {lbn : ℕ} (hlbn : 512 * lbn = (F i).size) :
    ∃ b ino' fs', Inode.bmap (d.fs.ahead r) (d.inodes i) lbn = .ok (b, ino', fs') ∧
      (∀ lbn', 512 * lbn' < (F i).size → blockOf d.fs (d.inodes i) lbn' ≠ b) ∧
      (fs'.uError = .NOERROR → Holds (d.set fs' i ino') F) := by
  have hle := h.size_le i
  by_cases hlt : lbn < 33030
  · have h₁ := h.ahead (i := i) r
    obtain ⟨b, ino', fs', hbmap, hcase⟩ := h₁.bmap i hlt
    have hbmap' : Inode.bmap (d.fs.ahead r) (d.inodes i) lbn = .ok (b, ino', fs') := by
      rw [Files.inodes_set_self, Files.fs_set] at hbmap
      exact hbmap
    refine ⟨b, ino', fs', hbmap', ?_, ?_⟩
    · intro lbn' hlt' heq
      rcases hcase with ⟨hzero, -⟩ | ⟨hne, hblock, -, h₂⟩
      · exact hmapped lbn' hlt' (heq.trans hzero)
      · -- the block of `lbn'` stays where it is, and `lbn` has another one
        have hspace : fs'.uError ≠ .ENOSPC := by
          have herr := h₂.uError_eq
          rw [Files.fs_set] at herr
          rw [herr]
          decide
        obtain ⟨L, hinv⟩ := h₁.inv
        obtain ⟨⟨L', hinv'⟩, -, -, hkeeps⟩ := hinv.bmap hlt hbmap hspace
        have hlt₂ : lbn' < 33030 := by omega
        have hold : (d.set (d.fs.ahead r) i (d.inodes i)).view.block i lbn' = b := by
          rw [Files.view_set, ← heq]
          exact congrArg (fun addr => (View.mk d.fs.blk addr).block i lbn')
            (Function.update_eq_self i d.view.addr)
        have hne' : (d.set (d.fs.ahead r) i (d.inodes i)).view.block i lbn' ≠ 0 := hold.trans_ne hne
        have hsame := hkeeps (i, (lbnPath lbn').1) _ (isPath_lbnPath hlt₂).1 id hne'
        have heq' := hinv'.block_inj hlt₂ hlt (hsame.trans_ne hne') (hsame.trans (hold.trans hblock.symm))
        omega
    · intro herr
      rcases hcase with ⟨-, herr'⟩ | ⟨-, -, -, h₂⟩
      · rw [herr] at herr'
        cases herr'
      · rwa [Files.set_set] at h₂
  · refine ⟨0, d.inodes i, _, bmap_refused _ _ (by omega), ?_, ?_⟩
    · exact fun lbn' hlt' => hmapped lbn' hlt'
    · intro herr
      cases herr

end Holds

end Inode
end UnixV6pp
