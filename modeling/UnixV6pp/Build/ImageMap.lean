import UnixV6pp.Build.CommonFile
import UnixV6pp.Fs.Bmap

/-!
# The block map of the builder

The builder fills the empty elements on the path of a logical block one after the other, each
with the head of the free list, and the disk is as it should be after each of them.

## Main definitions

* `gap`, `missing` — the elements that are still empty.
* `Grown` — what filling them leaves.

## Main results

* `getFreeBlock_cons` — `GetFreeBlock` takes the head of the list.
* `fillAddr_spec`, `fillEntry_spec` — one element.
* `bmap_spec` — **`BMap` takes as many blocks as are missing** and maps the block.
-/

namespace UnixV6pp
namespace Build

open Words FileSystem IndexTree Inode DataBlock Directary

variable {d : Disk} {L : List ℤ} {b : ℤ}

/-! ### The free list -/

@[simp] theorem blk_fs (d : Disk) : d.fs.blk = d.blk := rfl

/-- **`GetFreeBlock` takes the head of the list** and clears the block. -/
theorem getFreeBlock_cons (h : FreeList d.fs (b :: L)) :
    ∃ d', getFreeBlock d = (some b, d') ∧ d'.blk = Function.update d.blk b (fun _ => 0) ∧
      FreeList d'.fs L ∧ d'.sNfree ≠ 0 := by
  obtain ⟨n, hn, hlt, hc⟩ := h.exists_chain h.nfree_ne_zero
  have hn' : d.sNfree - 1 = n := by
    have : d.sNfree = (n + 1 : ℕ) := hn
    omega
  have htop : d.sFree n = b := hc.top
  have hb0 : d.sFree n ≠ 0 := htop ▸ hc.ne_zero b (by simp)
  have hdata : ∀ c ∈ L, DataBlock c := fun c hc => h.data c (by simp [hc])
  obtain ⟨hbL, hnodup⟩ := List.nodup_cons.mp h.nodup
  unfold getFreeBlock
  dsimp only
  rw [hn', if_neg (by omega), Int.toNat_natCast, if_neg fun hall => hb0 hall.2, htop]
  cases hc with
  | @link m _ _ _ hm hc =>
    -- the block taken holds the next group
    have hb := hc.bounds
    rw [if_pos (by simp)]
    refine ⟨_, rfl, rfl, ⟨h.ninode_le, h.unlocked, hdata, hnodup, .inr ⟨m, hm, ?_⟩⟩, ?_⟩
    · refine (hc.congr fun i hi => ?_).frame_update hbL _
      exact if_pos (by omega)
    · have hne : getInt (d.blk (d.sFree 0)) 0 ≠ 0 := by
        have : getInt (d.blk (d.sFree 0)) 0 = (m : ℤ) := hm
        omega
      exact hne
  | pop h1 _ _ hc =>
    rw [if_neg (by omega)]
    refine ⟨_, rfl, rfl, ⟨h.ninode_le, h.unlocked, hdata, hnodup, .inr ⟨n, rfl, ?_⟩⟩, ?_⟩
    · exact hc.frame_update hbL _
    · change (n : ℤ) ≠ 0
      omega

theorem getFreeBlockOrZero_cons (h : FreeList d.fs (b :: L)) :
    ∃ d', getFreeBlockOrZero d = (b, d') ∧ d'.blk = Function.update d.blk b (fun _ => 0) ∧
      FreeList d'.fs L ∧ d'.sNfree ≠ 0 := by
  obtain ⟨d', hget, hblk, hfree, hne⟩ := getFreeBlock_cons h
  refine ⟨d', ?_, hblk, hfree, hne⟩
  rw [getFreeBlockOrZero, hget]
  rfl

/-! ### Empty elements -/

section View

variable {ι : Type*} {v v' : View ι} {t : ι × ℕ} {p q P : List ℕ} {j : ℕ}

/-- One block is wanted where there is none. -/
def gap (v : View ι) (t : ι × ℕ) (q : List ℕ) : ℕ := if v.at t q = 0 then 1 else 0

/-- The blocks wanted on the way to the end of a path. -/
def missing (v : View ι) (t : ι × ℕ) : List ℕ → ℕ
  | [] => gap v t []
  | j :: q => missing v t q + gap v t (j :: q)

/-- What changes a part of the way changes nothing off the way. -/
theorem extends_of_suffix (h : Extends t q v v') (hq : q <:+ P) (hP : IsPath t.2 P) :
    Extends t P v v' := by
  refine ⟨?_, h.blk_eq, ?_⟩
  · intro u p hp hor
    refine h.at_eq u p hp (hor.imp_right fun hnot hall => hnot ⟨hall.1, hall.2.trans hq⟩)
  · intro hlen h0 hne
    by_cases hqP : q = P
    · subst hqP
      exact h.blk_new hlen h0 hne
    · -- the end of the whole path is not on the part of it
      have hnot : ¬(t = t ∧ P <:+ q) := fun hall =>
        hqP (hq.eq_of_length (Nat.le_antisymm hq.length_le hall.2.length_le))
      exact absurd ((h.at_eq t P hP (.inr hnot)).trans h0) hne

/-- The next element is as empty as before. -/
theorem gap_cons (h : Extends t q v v') (hp : IsPath t.2 (j :: q)) :
    gap v' t (j :: q) = gap v t (j :: q) := by
  have hnot : ¬(t = t ∧ j :: q <:+ q) := fun hall => by
    have := hall.2.length_le
    rw [List.length_cons] at this
    omega
  rw [gap, gap, h.at_eq t _ hp (.inr hnot)]

end View

/-- The end of `q` below the tree `t` is the block `r` in the image `d'`, which has grown from `d`
by the blocks that were wanted. -/
structure Grown {ι : Type*} (d : Disk) (addr : ι → ℕ → ℤ) (L : List ℤ) (t : ι × ℕ) (q : List ℕ)
    (n : ℕ) (r : ℤ) (d' : Disk) (addr' : ι → ℕ → ℤ) : Prop where
  sound : Sound d'.fs addr' (L.drop n)
  at_eq : (⟨d'.blk, addr'⟩ : View ι).at t q = r
  ne_zero : r ≠ 0
  extends_ : Extends t q ⟨d.blk, addr⟩ ⟨d'.blk, addr'⟩

variable {ι : Type*} [DecidableEq ι] {addr : ι → ℕ → ℤ} {inode : InodeStr} {i : ι} {k : ℕ}

/-- **An element of `_i_addr`.** -/
theorem fillAddr_spec (h : Sound d.fs addr L) (haddr : inode.iAddr = addr i) (hk : k < 10)
    (hL : gap ⟨d.blk, addr⟩ (i, k) [] ≤ L.length) :
    ∃ r inode' d', fillAddr d inode k = (r, inode', d') ∧
      inode' = { inode with iAddr := inode'.iAddr } ∧
      Grown d addr L (i, k) [] (gap ⟨d.blk, addr⟩ (i, k) []) r d'
        (Function.update addr i inode'.iAddr) := by
  have hP : IsPath k [] := ⟨hk, Nat.zero_le _, by simp⟩
  have hat : (⟨d.blk, addr⟩ : View ι).at (i, k) [] = addr i k := rfl
  unfold fillAddr
  by_cases h0 : inode.iAddr k = 0
  · have h0' : addr i k = 0 := by rw [← haddr, h0]
    rw [gap, if_pos (hat.trans h0')] at hL ⊢
    obtain ⟨b, L, rfl⟩ : ∃ b L', L = b :: L' := List.exists_cons_of_length_pos hL
    obtain ⟨d', hget, hblk, hfree, hne⟩ := getFreeBlockOrZero_cons h.freeList
    have hb := h.freeList.data b (by simp)
    have hbL := (List.nodup_cons.mp h.freeList.nodup).1
    obtain ⟨hap, hext, hnew⟩ := h.apart.graftRoot ⟨d'.blk,
        Function.update addr i (Function.update inode.iAddr k b)⟩ hbL hb h0' hP hblk
      (update_addr_apply addr haddr k b)
    rw [if_pos h0, hget]
    exact ⟨b, _, d', rfl, rfl, ⟨hfree, hne, hap⟩, hnew, hb.ne_zero, hext⟩
  · have h0' : ¬addr i k = 0 := by rwa [← haddr]
    have hsame : Function.update addr i inode.iAddr = addr := by
      rw [haddr, Function.update_eq_self]
    rw [if_neg h0, gap, if_neg (by rw [hat]; exact h0')]
    refine ⟨_, inode, d, rfl, rfl, ?_⟩
    rw [hsame, haddr]
    exact ⟨h, hat, h0', Extends.refl _ _ _⟩

variable {t : ι × ℕ} {p : List ℕ} {j : ℕ} {a : ℤ}

/-- **An entry of an index block.** -/
theorem fillEntry_spec (h : Sound d.fs addr L) (hp : IsPath t.2 (j :: p))
    (ha : (⟨d.blk, addr⟩ : View ι).at t p = a) (hne : a ≠ 0)
    (hL : gap ⟨d.blk, addr⟩ t (j :: p) ≤ L.length) :
    ∃ r d', fillEntry d a j = (r, d') ∧
      Grown d addr L t (j :: p) (gap ⟨d.blk, addr⟩ t (j :: p)) r d' addr := by
  have hat : (⟨d.blk, addr⟩ : View ι).at t (j :: p) = getInt (d.blk a) j := by
    rw [View.at_cons (ha.trans_ne hne), ha]
  unfold fillEntry
  dsimp only
  by_cases h0 : getInt (d.blk a) j = 0
  · rw [gap, if_pos (hat.trans h0)] at hL ⊢
    obtain ⟨b, L, rfl⟩ : ∃ b L', L = b :: L' := List.exists_cons_of_length_pos hL
    obtain ⟨d', hget, hblk, hfree, hnfree⟩ := getFreeBlockOrZero_cons h.freeList
    have hb := h.freeList.data b (by simp)
    have hbL := (List.nodup_cons.mp h.freeList.nodup).1
    have hnot := h.apart.unlisted t p hp.tail
    rw [show (⟨d.fs.blk, addr⟩ : View ι).at t p = a from ha, List.mem_cons, not_or] at hnot
    rw [if_pos h0, hget]
    have hx : ∀ x, Function.update d'.blk a (setInt (d'.blk a) j b) x =
        if x = a then setInt (d.blk x) j b else if x = b then fun _ => 0 else d.blk x := by
      intro x
      rw [hblk]
      by_cases hxa : x = a
      · subst hxa
        rw [if_pos rfl, Function.update_self, Function.update_of_ne hnot.1]
      · rw [if_neg hxa, Function.update_of_ne hxa]
        by_cases hxb : x = b
        · subst hxb
          rw [if_pos rfl, Function.update_self]
        · rw [if_neg hxb, Function.update_of_ne hxb]
    obtain ⟨hap, hext, hnew⟩ := h.apart.graftEntry
      ⟨Function.update d'.blk a (setInt (d'.blk a) j b), addr⟩ hbL hb hp ha hne h0 hp
      (List.suffix_refl _) hx rfl
    refine ⟨b, _, rfl, ⟨?_, hnfree, hap⟩, hnew, hb.ne_zero, hext⟩
    exact hfree.of_eq rfl fun c hc => Function.update_of_ne (ne_of_mem_of_not_mem hc hnot.2) _ _
  · rw [if_neg h0, gap, if_neg (by rw [hat]; exact h0)]
    exact ⟨_, d, rfl, h, hat, h0, Extends.refl _ _ _⟩

omit [DecidableEq ι] in
/-- Two elements, one after the other. -/
theorem Grown.cons {d' d'' : Disk} {addr' addr'' : ι → ℕ → ℤ} {n : ℕ} {r r' : ℤ}
    (h : Grown d addr L t p n r d' addr') (hp : IsPath t.2 (j :: p))
    (h' : Grown d' addr' (L.drop n) t (j :: p) (gap ⟨d'.blk, addr'⟩ t (j :: p)) r' d'' addr'') :
    Grown d addr L t (j :: p) (n + gap ⟨d.blk, addr⟩ t (j :: p)) r' d'' addr'' := by
  have hgap := gap_cons h.extends_ hp
  rw [hgap] at h'
  refine ⟨?_, h'.at_eq, h'.ne_zero, ?_⟩
  · rw [← List.drop_drop]
    exact h'.sound
  · exact (extends_of_suffix h.extends_ (List.suffix_cons j p) hp).trans hp h'.extends_

/-- The next entry on the way. -/
theorem fillEntry_next {d' : Disk} {addr' : ι → ℕ → ℤ} {n : ℕ} {r : ℤ}
    (h : Grown d addr L t p n r d' addr') (hp : IsPath t.2 (j :: p))
    (hL : n + gap ⟨d.blk, addr⟩ t (j :: p) ≤ L.length) :
    ∃ r' d'', fillEntry d' r j = (r', d'') ∧
      Grown d addr L t (j :: p) (n + gap ⟨d.blk, addr⟩ t (j :: p)) r' d'' addr' := by
  have hgap := gap_cons h.extends_ hp
  have hdrop : gap ⟨d'.blk, addr'⟩ t (j :: p) ≤ (L.drop n).length := by
    rw [hgap, List.length_drop]
    omega
  obtain ⟨r', d'', hfill, hgrown⟩ := fillEntry_spec h.sound hp h.at_eq h.ne_zero hdrop
  exact ⟨r', d'', hfill, h.cons hp hgrown⟩

/-- **`BMap` takes as many blocks as are missing** and maps the logical block. -/
theorem bmap_spec (h : Sound d.fs addr L) (haddr : inode.iAddr = addr i) {lbn : ℕ}
    (hlbn : lbn < 33030)
    (hL : missing ⟨d.blk, addr⟩ (i, (lbnPath lbn).1) (lbnPath lbn).2 ≤ L.length) :
    ∃ r inode' d', Directary.bmap d inode lbn = some (r, inode', d') ∧
      inode' = { inode with iAddr := inode'.iAddr } ∧
      Grown d addr L (i, (lbnPath lbn).1) (lbnPath lbn).2
        (missing ⟨d.blk, addr⟩ (i, (lbnPath lbn).1) (lbnPath lbn).2) r d'
        (Function.update addr i inode'.iAddr) := by
  have hP := (isPath_lbnPath hlbn).1
  unfold Directary.bmap
  by_cases h6 : lbn < 6
  · have hpath : lbnPath lbn = (lbn, []) := if_pos h6
    rw [hpath] at hL hP ⊢
    rw [if_pos h6]
    obtain ⟨r, inode', d', hfill, hsame, hgrown⟩ := fillAddr_spec h haddr hP.root_lt hL
    exact ⟨r, inode', d', congrArg some hfill, hsame, hgrown⟩
  rw [if_neg h6]
  by_cases h262 : lbn < 262
  · have hpath : lbnPath lbn = ((lbn - 6) / 128 + 6, [(lbn - 6) % 128]) := by
      rw [lbnPath, if_neg h6, if_pos h262]
    rw [hpath] at hL hP ⊢
    simp only [missing] at hL
    obtain ⟨r, inode', d₁, hfirst, hsame, hg₁⟩ :=
      fillAddr_spec h haddr hP.root_lt (Nat.le_of_add_right_le hL)
    obtain ⟨r', d₂, hlast, hg₂⟩ := fillEntry_next hg₁ hP hL
    refine ⟨r', inode', d₂, ?_, hsame, hg₂⟩
    simp only [if_pos h262, if_neg (show ¬(lbn - 6) / 128 + 6 ≥ 10 by omega),
      if_neg (show ¬(lbn - 6) / 128 + 6 ≥ 8 by omega), hfirst, hlast]
  · have hpath : lbnPath lbn = ((lbn - 262) / (128 * 128) + 8,
        [(lbn - 262) % 128, (lbn - 262) / 128 % 128]) := by
      rw [lbnPath, if_neg h6, if_neg h262]
    rw [hpath] at hL hP ⊢
    simp only [missing] at hL
    obtain ⟨r, inode', d₁, hfirst, hsame, hg₁⟩ :=
      fillAddr_spec h haddr hP.root_lt (Nat.le_of_add_right_le (Nat.le_of_add_right_le hL))
    obtain ⟨r₂, d₂, hsecond, hg₂⟩ := fillEntry_next hg₁ hP.tail (Nat.le_of_add_right_le hL)
    obtain ⟨r₃, d₃, hlast, hg₃⟩ := fillEntry_next hg₂ hP hL
    refine ⟨r₃, inode', d₃, ?_, hsame, hg₃⟩
    simp only [if_neg h262, if_neg (show ¬(lbn - 262) / (128 * 128) + 8 ≥ 10 by omega),
      if_pos (show (lbn - 262) / (128 * 128) + 8 ≥ 8 by omega), hfirst, hsecond, hlast]

end Build
end UnixV6pp
