import UnixV6pp.Lib.IndexTree
import UnixV6pp.Fs.FreeChain
import UnixV6pp.Fs.INode

/-!
# The block trees of the inodes

Ten trees hang on every inode, one on each element of `i_addr`: six single
blocks, two index blocks with data blocks below them, and two of index blocks.
The logical blocks of a file are the ends of the paths that go down all the way.

## Main definitions

* `IsPath` — the paths of a tree.
* `View` — the contents of the blocks and the roots of the trees.
* `Apart` — **the ownership invariant**: no block is reached in two ways, and no
  block reached is free.
* `Sound` — the invariant of a state.
* `Extends` — what may change while one logical block is mapped.
* `lbnPath` — the path of a logical block.

## Main results

* `Apart.graftRoot`, `Apart.graftEntry` — filling an empty element with a free block.
* `lbnPath_inj`, `isPath_lbnPath` — every logical block has a path of its own.
-/

namespace UnixV6pp
namespace Inode

open Words FileSystem IndexTree BufferManager

/-- How many index blocks are on the way from `i_addr[k]` to a data block. -/
def depth (k : ℕ) : ℕ := if k < 6 then 0 else if k < 8 then 1 else 2

/-- The paths of the tree on `i_addr[k]`. -/
structure IsPath (k : ℕ) (p : List ℕ) : Prop where
  root_lt : k < 10
  length_le : p.length ≤ depth k
  index_lt : ∀ j ∈ p, j < 128

theorem IsPath.tail {k j : ℕ} {p : List ℕ} (h : IsPath k (j :: p)) : IsPath k p := by
  refine ⟨h.root_lt, ?_, fun i hi => h.index_lt i (by simp [hi])⟩
  have := h.length_le
  rw [List.length_cons] at this
  omega

/-- The contents of the blocks and the block numbers in the inodes. -/
structure View (ι : Type*) where
  blk : ℤ → Block
  addr : ι → ℕ → ℤ

variable {ι : Type*}

/-- The block at the end of the path `p` of the tree `t`, or 0. -/
def View.at (v : View ι) (t : ι × ℕ) (p : List ℕ) : ℤ :=
  walk (fun a j => getInt (v.blk a) j) (v.addr t.1 t.2) p

/-- **The blocks of the trees are apart**, from each other and from the free ones. -/
structure Apart (v : View ι) (L : List ℤ) : Prop where
  /-- No block is reached in two ways. -/
  owned : Owned (fun (t : ι × ℕ) p => IsPath t.2 p) (fun a j => getInt (v.blk a) j)
    fun t => v.addr t.1 t.2
  /-- Every block reached is a data block. -/
  data : ∀ t p, IsPath t.2 p → v.at t p ≠ 0 → DataBlock (v.at t p)
  /-- No block reached is free. -/
  unlisted : ∀ t p, IsPath t.2 p → v.at t p ∉ L

/-- While the logical block at the end of `P` is mapped, only blocks on the way to
it are added, and no data block is changed. -/
structure Extends (t : ι × ℕ) (P : List ℕ) (v v' : View ι) : Prop where
  /-- A path keeps its block, and gets one only on the way to `P`. -/
  at_eq : ∀ u q, IsPath u.2 q → (v.at u q ≠ 0 ∨ ¬ (u = t ∧ q <:+ P)) → v'.at u q = v.at u q
  /-- A data block keeps its contents. -/
  blk_eq : ∀ u q, IsPath u.2 q → q.length = depth u.2 → v.at u q ≠ 0 →
    v'.blk (v.at u q) = v.blk (v.at u q)
  /-- A new data block is clear. -/
  blk_new : P.length = depth t.2 → v.at t P = 0 → v'.at t P ≠ 0 →
    v'.blk (v'.at t P) = fun _ => 0

namespace Extends

variable {t : ι × ℕ} {P : List ℕ} {v v' v'' : View ι}

theorem refl (t : ι × ℕ) (P : List ℕ) (v : View ι) : Extends t P v v :=
  ⟨fun _ _ _ _ => rfl, fun _ _ _ _ _ => rfl, fun _ h0 hne => absurd h0 hne⟩

theorem trans (hP : IsPath t.2 P) (h : Extends t P v v') (h' : Extends t P v' v'') :
    Extends t P v v'' := by
  have hat : ∀ u q, IsPath u.2 q → v.at u q ≠ 0 → v''.at u q = v'.at u q ∧ v'.at u q = v.at u q := by
    intro u q hq hne
    have h1 := h.at_eq u q hq (.inl hne)
    exact ⟨h'.at_eq u q hq (.inl (h1.trans_ne hne)), h1⟩
  refine ⟨?_, ?_, ?_⟩
  · intro u q hq hor
    rcases hor with hne | hnot
    · exact (hat u q hq hne).1.trans (hat u q hq hne).2
    · exact (h'.at_eq u q hq (.inr hnot)).trans (h.at_eq u q hq (.inr hnot))
  · intro u q hq hlen hne
    have h1 := (hat u q hq hne).2
    have h2 := h'.blk_eq u q hq hlen (h1.trans_ne hne)
    rw [h1] at h2
    exact h2.trans (h.blk_eq u q hq hlen hne)
  · intro hlen h0 hne
    by_cases h1 : v'.at t P = 0
    · exact h'.blk_new hlen h1 hne
    · rw [h'.at_eq t P hP (.inl h1), h'.blk_eq t P hP hlen h1]
      exact h.blk_new hlen h0 h1

end Extends

/-- **The trees and the free list of a state** in which no `Alloc` has failed. -/
structure Sound (s : FsState) (addr : ι → ℕ → ℤ) (L : List ℤ) : Prop where
  freeList : FreeList s L
  nfree_ne : s.sb.sNfree ≠ 0
  apart : Apart ⟨s.blk, addr⟩ L

/-! ### Filling an empty element -/

section Graft

variable {v v' : View ι} {L : List ℤ} {b : ℤ} {t : ι × ℕ} {p P : List ℕ}

/-- A block reached has one above it. -/
theorem View.at_tail_ne {j : ℕ} (h : v.at t (j :: p) ≠ 0) : v.at t p ≠ 0 := walk_tail_ne h

theorem View.at_cons {j : ℕ} (h : v.at t p ≠ 0) :
    v.at t (j :: p) = getInt (v.blk (v.at t p)) j := walk_cons_of_ne h

/-- Trees whose roots and index blocks are unchanged are unchanged. -/
theorem View.at_congr {I : ι → Prop} (haddr : ∀ i, I i → v'.addr i = v.addr i)
    (hblk : ∀ (u : ι × ℕ) j q, I u.1 → IsPath u.2 (j :: q) → v.at u q ≠ 0 →
      v'.blk (v.at u q) = v.blk (v.at u q))
    (u : ι × ℕ) (q : List ℕ) (hu : I u.1) (hq : IsPath u.2 q) : v'.at u q = v.at u q := by
  refine @walk_congr (ι × ℕ) ℤ _ _ (fun a j => getInt (v.blk a) j) (fun a j => getInt (v'.blk a) j)
    (fun t => v.addr t.1 t.2) (fun t => v'.addr t.1 t.2) (fun t p => I t.1 ∧ IsPath t.2 p)
    (fun h => ⟨h.1, h.2.tail⟩) ?_ ?_ q u ⟨hu, hq⟩
  · intro u h
    rw [haddr u.1 h.1]
  · intro u j q h hne
    change getInt (v'.blk (v.at u q)) j = getInt (v.blk (v.at u q)) j
    rw [hblk u j q h.1 h.2 hne]

/-- Blocks that are dropped from the trees leave the others apart. -/
theorem Apart.shrink (h : Apart v L) {L' : List ℤ}
    (hat : ∀ (u : ι × ℕ) q, IsPath u.2 q → v'.at u q = 0 ∨ v'.at u q = v.at u q)
    (hL' : ∀ (u : ι × ℕ) q, IsPath u.2 q → v'.at u q ∉ L') : Apart v' L' := by
  have hat' : ∀ (u : ι × ℕ) q, IsPath u.2 q → v'.at u q ≠ 0 → v'.at u q = v.at u q :=
    fun u q hq hne => (hat u q hq).resolve_left hne
  refine ⟨?_, ?_, hL'⟩
  · intro u q w r hq hr hne heq
    change v'.at u q ≠ 0 at hne
    change v'.at u q = v'.at w r at heq
    have h1 := hat' u q hq hne
    have h2 := hat' w r hr (heq.symm.trans_ne hne)
    exact h.owned u q w r hq hr (h1.symm.trans_ne hne) (h1.symm.trans (heq.trans h2))
  · intro u q hq hne
    have h1 := hat' u q hq hne
    rw [h1] at hne ⊢
    exact h.data u q hq hne

/-- Overwriting a data block leaves the trees alone. -/
theorem Sound.write {s : FsState} {addr : ι → ℕ → ℤ} (h : Sound s addr L) (hP : IsPath t.2 P)
    (hlen : P.length = depth t.2) (hne : (⟨s.blk, addr⟩ : View ι).at t P ≠ 0) (hb : b =
      (⟨s.blk, addr⟩ : View ι).at t P) (data : Block) :
    Sound { s with blk := Function.update s.blk b data } addr L ∧
      ∀ (u : ι × ℕ) q, IsPath u.2 q →
        (⟨Function.update s.blk b data, addr⟩ : View ι).at u q = (⟨s.blk, addr⟩ : View ι).at u q := by
  have hat : ∀ (u : ι × ℕ) q, IsPath u.2 q →
      (⟨Function.update s.blk b data, addr⟩ : View ι).at u q =
        (⟨s.blk, addr⟩ : View ι).at u q := by
    intro u q hq
    refine View.at_congr (I := fun _ => True) ?_ ?_ u q trivial hq
    · intro _ _
      rfl
    · intro u j q _ hjq hqne
      refine Function.update_of_ne ?_ _ _
      -- an index block is no data block
      intro heq
      obtain ⟨rfl, rfl⟩ := h.apart.owned u q t P hjq.tail hP hqne (heq.trans hb)
      have := hjq.length_le
      rw [List.length_cons] at this
      omega
  refine ⟨⟨h.freeList.of_eq rfl ?_, h.nfree_ne, ?_⟩, hat⟩
  · intro c hc
    exact Function.update_of_ne (ne_of_mem_of_not_mem hc (hb ▸ h.apart.unlisted t P hP)) _ _
  · refine h.apart.shrink (fun u q hq => .inr (hat u q hq)) fun u q hq => ?_
    rw [hat u q hq]
    exact h.apart.unlisted u q hq

variable [DecidableEq ι]

/-- The graft of the library, at the trees of the inodes. -/
theorem View.at_graft (hp : v.at t p = 0) (hpar : ∀ j q, p = j :: q → v.at t q ≠ 0) (hb : b ≠ 0)
    (hnew : ∀ j, getInt (v'.blk b) j = 0)
    (hroot : ∀ u : ι × ℕ, v'.addr u.1 u.2 = if u = t ∧ p = [] then b else v.addr u.1 u.2)
    (hentry : ∀ (u : ι × ℕ) j q, IsPath u.2 (j :: q) → v.at u q ≠ 0 →
      getInt (v'.blk (v.at u q)) j =
        if u = t ∧ p = j :: q then b else getInt (v.blk (v.at u q)) j)
    (u : ι × ℕ) (q : List ℕ) (hq : IsPath u.2 q) :
    v'.at u q = if u = t ∧ p = q then b else v.at u q :=
  @walk_graft (ι × ℕ) ℤ _ _ (fun a j => getInt (v.blk a) j) (fun a j => getInt (v'.blk a) j)
    (fun t => v.addr t.1 t.2) (fun t => v'.addr t.1 t.2) (fun t p => IsPath t.2 p) b t p _
    (fun hq => hq.tail) hp hpar hb hnew hroot hentry q u hq

/-- What follows from filling one empty element, whichever it is. -/
theorem Apart.of_graft (h : Apart v (b :: L)) (hbL : b ∉ L) (hb : DataBlock b)
    (hat : ∀ u q, IsPath u.2 q → v'.at u q = if u = t ∧ p = q then b else v.at u q) :
    Apart v' L := by
  have hfresh : ∀ u q, IsPath u.2 q → v.at u q ≠ b := fun u q hq heq =>
    h.unlisted u q hq (by rw [heq]; simp)
  refine ⟨h.owned.graft hfresh hat, ?_, ?_⟩
  · intro u q hq hne
    rw [hat u q hq] at hne ⊢
    split at hne
    · next hc => rwa [if_pos hc]
    · next hc => rw [if_neg hc]; exact h.data u q hq hne
  · intro u q hq
    rw [hat u q hq]
    split
    · exact hbL
    · exact fun hL => h.unlisted u q hq (List.mem_cons_of_mem _ hL)

/-- A graft on the way to `P` that leaves the data blocks alone. -/
theorem Extends.of_graft (h : Apart v (b :: L)) (hpP : p <:+ P)
    (hat : ∀ u q, IsPath u.2 q → v'.at u q = if u = t ∧ p = q then b else v.at u q)
    (hp0 : v.at t p = 0) (hnew : v'.blk b = fun _ => 0)
    (hblk : ∀ u q, IsPath u.2 q → q.length = depth u.2 → v.at u q ≠ 0 → v.at u q ≠ b →
      v'.blk (v.at u q) = v.blk (v.at u q)) (hP : IsPath t.2 P) : Extends t P v v' := by
  have hfresh : ∀ u q, IsPath u.2 q → v.at u q ≠ b := fun u q hq heq =>
    h.unlisted u q hq (by rw [heq]; simp)
  refine ⟨?_, fun u q hq hlen hne => hblk u q hq hlen hne (hfresh u q hq), ?_⟩
  · intro u q hq hor
    rw [hat u q hq, if_neg]
    rintro ⟨rfl, rfl⟩
    rcases hor with hne | hnot
    · exact hne hp0
    · exact hnot ⟨rfl, hpP⟩
  · intro _ h0 hne
    rw [hat t P hP] at hne ⊢
    split
    · exact hnew
    · next hc => rw [if_neg hc] at hne; exact absurd h0 hne

/-- **A free block becomes the root of an empty tree.** -/
theorem Apart.graftRoot (h : Apart v (b :: L)) (v' : View ι) (hbL : b ∉ L) (hb : DataBlock b) {i : ι} {k : ℕ}
    (h0 : v.addr i k = 0) (hP : IsPath k P)
    (hblk : v'.blk = Function.update v.blk b fun _ => 0)
    (haddr : ∀ u, v'.addr u.1 u.2 = if u = (i, k) then b else v.addr u.1 u.2) :
    Apart v' L ∧ Extends (i, k) P v v' ∧ v'.at (i, k) [] = b := by
  have hfresh : ∀ u q, IsPath u.2 q → v.at u q ≠ b := fun u q hq heq =>
    h.unlisted u q hq (by rw [heq]; simp)
  have hat : ∀ u q, IsPath u.2 q → v'.at u q = if u = (i, k) ∧ [] = q then b else v.at u q := by
    refine View.at_graft h0 (by simp) hb.ne_zero ?_ ?_ ?_
    · intro j
      rw [hblk, Function.update_self, getInt_zero]
    · intro u
      rw [haddr]
      simp
    · intro u j q hjq hne
      rw [if_neg (by simp), hblk, Function.update_of_ne (hfresh u q hjq.tail)]
  refine ⟨h.of_graft hbL hb hat, ?_, ?_⟩
  · refine Extends.of_graft h (List.nil_suffix) hat h0 (by rw [hblk, Function.update_self]) ?_ hP
    intro u q _ _ _ hne
    rw [hblk, Function.update_of_ne hne]
  · rw [hat (i, k) [] ⟨hP.root_lt, Nat.zero_le _, by simp⟩, if_pos ⟨rfl, rfl⟩]

/-- **A free block becomes an entry of an index block.** -/
theorem Apart.graftEntry (h : Apart v (b :: L)) (v' : View ι) (hbL : b ∉ L) (hb : DataBlock b) {j : ℕ}
    {a : ℤ}
    (hp : IsPath t.2 (j :: p)) (ha : v.at t p = a) (hne : a ≠ 0) (h0 : getInt (v.blk a) j = 0)
    (hP : IsPath t.2 P) (hpP : j :: p <:+ P)
    (hblk : ∀ x, v'.blk x = if x = a then setInt (v.blk x) j b else
      if x = b then fun _ => 0 else v.blk x)
    (haddr : v'.addr = v.addr) :
    Apart v' L ∧ Extends t P v v' ∧ v'.at t (j :: p) = b := by
  subst ha
  have hfresh : ∀ u q, IsPath u.2 q → v.at u q ≠ b := fun u q hq heq =>
    h.unlisted u q hq (by rw [heq]; simp)
  have hp0 : v.at t (j :: p) = 0 := by rw [View.at_cons hne, h0]
  have hnew : v'.blk b = fun _ => 0 := by
    rw [hblk, if_neg (hfresh t p hp.tail).symm, if_pos rfl]
  have hat : ∀ u q, IsPath u.2 q → v'.at u q = if u = t ∧ j :: p = q then b else v.at u q := by
    refine View.at_graft hp0 ?_ hb.ne_zero ?_ ?_ ?_
    · intro i q heq
      obtain ⟨rfl, rfl⟩ := List.cons_eq_cons.mp heq
      exact hne
    · intro i
      rw [hnew, getInt_zero]
    · intro u
      rw [if_neg (by simp), haddr]
    · intro u i q hiq hqne
      rw [hblk]
      by_cases heq : v.at u q = v.at t p
      · -- by ownership this is the index block that is written
        obtain ⟨rfl, rfl⟩ := h.owned u q t p hiq.tail hp.tail hqne heq
        have hb' := hb.bounds
        rw [if_pos rfl, getInt_setInt_eq _ _ _ (by omega) (by omega)]
        by_cases hij : i = j
        · rw [if_pos hij, if_pos ⟨rfl, by rw [hij]⟩]
        · rw [if_neg hij, if_neg (fun hc => hij (List.cons_eq_cons.mp hc.2).1.symm)]
      · rw [if_neg heq, if_neg (hfresh u q hiq.tail), if_neg]
        rintro ⟨rfl, hc⟩
        exact heq (by rw [(List.cons_eq_cons.mp hc).2])
  refine ⟨h.of_graft hbL hb hat, ?_, by rw [hat t _ hp, if_pos ⟨rfl, rfl⟩]⟩
  refine Extends.of_graft h hpP hat hp0 hnew ?_ hP
  intro u q hq hlen hqne hqb
  rw [hblk, if_neg, if_neg hqb]
  -- a data block is no index block
  intro heq
  obtain ⟨rfl, rfl⟩ := h.owned u q t p hq hp.tail hqne heq
  have := hp.length_le
  rw [List.length_cons] at this
  omega

end Graft

/-! ### The paths of the logical blocks -/

/-- The tree and the path of a logical block. -/
def lbnPath (lbn : ℕ) : ℕ × List ℕ :=
  if lbn < 6 then (lbn, [])
  else if lbn < 262 then ((lbn - 6) / 128 + 6, [(lbn - 6) % 128])
  else ((lbn - 262) / (128 * 128) + 8, [(lbn - 262) % 128, (lbn - 262) / 128 % 128])

/-- The path of a logical block goes down all the way. -/
theorem isPath_lbnPath {lbn : ℕ} (h : lbn < 33030) :
    IsPath (lbnPath lbn).1 (lbnPath lbn).2 ∧ (lbnPath lbn).2.length = depth (lbnPath lbn).1 := by
  unfold lbnPath
  split
  · next h6 =>
    have hd : depth lbn = 0 := if_pos h6
    exact ⟨⟨show lbn < 10 by omega, Nat.zero_le _, by simp⟩, hd.symm⟩
  · split
    · next h6 h262 =>
      have hd : depth ((lbn - 6) / 128 + 6) = 1 := by
        rw [depth, if_neg (by omega), if_pos (by omega)]
      refine ⟨⟨show _ + 6 < 10 by omega, hd.ge, ?_⟩, hd.symm⟩
      simpa using Nat.mod_lt _ (by omega)
    · next h6 h262 =>
      have hd : depth ((lbn - 262) / (128 * 128) + 8) = 2 := by
        rw [depth, if_neg (by omega), if_neg (by omega)]
      refine ⟨⟨show _ + 8 < 10 by omega, hd.ge, ?_⟩, hd.symm⟩
      simp only [List.mem_cons, List.not_mem_nil, or_false, forall_eq_or_imp, forall_eq]
      omega

/-- Every logical block has a path of its own. -/
theorem lbnPath_inj {a b : ℕ} (ha : a < 33030) (hb : b < 33030) (h : lbnPath a = lbnPath b) :
    a = b := by
  unfold lbnPath at h
  split_ifs at h
  all_goals simp only [Prod.mk.injEq, List.cons.injEq, reduceCtorEq, and_false, and_true] at h
  all_goals omega

/-- The physical block of a logical block, or 0. -/
def View.block (v : View ι) (i : ι) (lbn : ℕ) : ℤ := v.at (i, (lbnPath lbn).1) (lbnPath lbn).2

end Inode
end UnixV6pp
