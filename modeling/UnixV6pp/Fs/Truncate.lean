import UnixV6pp.Fs.BlockMap

/-!
# What `ITrunc` does

`ITrunc` walks the trees of an inode from the last one to the first, and frees
every block behind those below it.  A freed block may be overwritten at once, for
it may take up a group of free block numbers, but what is read later are blocks
that are not freed yet.

## Main definitions

* `fileBlocks` — the blocks of an inode in the order in which they are freed.

## Main results

* `freeAddrs_spec` — the loops of `ITrunc` free the blocks of that list.
* `mem_fileBlocks`, `nodup_fileBlocks` — they are the blocks of the trees, each once.
* `itrunc_spec` — **`ITrunc` returns, and all blocks of the inode are free.**
-/

namespace UnixV6pp
namespace Inode

open Words FileSystem IndexTree BufferManager

/-- The blocks below the first `n` of some numbers, each tree `d j` levels deep, the
last tree first. -/
def treeBlocks (blk : ℤ → Block) (d : ℕ → ℕ) (table : ℕ → ℤ) (n : ℕ) : List ℤ :=
  (List.range n).reverse.flatMap fun j =>
    postorder (fun a j => getInt (blk a) j) 128 (d j) (table j)

theorem treeBlocks_succ (blk : ℤ → Block) (d : ℕ → ℕ) (table : ℕ → ℤ) (n : ℕ) :
    treeBlocks blk d table (n + 1) =
      postorder (fun a j => getInt (blk a) j) 128 (d n) (table n) ++ treeBlocks blk d table n := by
  simp [treeBlocks, List.range_succ]

/-- The blocks of an inode, in the order in which `ITrunc` frees them. -/
def fileBlocks (blk : ℤ → Block) (iAddr : ℕ → ℤ) : List ℤ := treeBlocks blk depth iAddr 10

variable {buffer : ℤ → Block} {blk : ℤ → Block} {table : ℕ → ℤ} {s : FsState} {L : List ℤ}

/-- What makes a list of blocks fit to be freed: its blocks still hold what they
held when the list was made. -/
structure Freeable (blk : ℤ → Block) (s : FsState) (L bs : List ℤ) : Prop where
  freeList : FreeList s L
  nodup : bs.Nodup
  data : ∀ b ∈ bs, DataBlock b
  unlisted : ∀ b ∈ bs, b ∉ L
  blk_eq : ∀ b ∈ bs, s.blk b = blk b

/-- Freeing the first blocks of a list leaves the others fit to be freed. -/
theorem Freeable.append (buffer : ℤ → Block) {bs cs : List ℤ} (h : Freeable blk s L (bs ++ cs)) :
    ∃ s' L', freeAll buffer s bs = .ok s' ∧ Freeable blk s' L' cs := by
  obtain ⟨hbs, hcs, hdisj⟩ := List.nodup_append.mp h.nodup
  obtain ⟨s', hall, hfs, -, hblk, -⟩ := freeAll_spec buffer bs h.freeList hbs fun b hb =>
    ⟨h.data b (by simp [hb]), h.unlisted b (by simp [hb])⟩
  have hnot : ∀ b ∈ cs, b ∉ bs := fun b hb hb' => hdisj b hb' b hb rfl
  refine ⟨s', _, hall, hfs, hcs, fun b hb => h.data b (by simp [hb]), ?_, ?_⟩
  · intro b hb
    rw [List.mem_append, List.mem_reverse, not_or]
    exact ⟨hnot b hb, h.unlisted b (by simp [hb])⟩
  · intro b hb
    rw [hblk b (hnot b hb), h.blk_eq b (by simp [hb])]

theorem Freeable.left {bs cs : List ℤ} (h : Freeable blk s L (bs ++ cs)) : Freeable blk s L bs :=
  ⟨h.freeList, (List.nodup_append.mp h.nodup).1, fun b hb => h.data b (by simp [hb]),
    fun b hb => h.unlisted b (by simp [hb]), fun b hb => h.blk_eq b (by simp [hb])⟩

theorem freeAll_singleton (s : FsState) (b : ℤ) : freeAll buffer s [b] = free buffer s b := by
  rw [freeAll]
  cases free buffer s b with
  | error e => rfl
  | ok s => rfl

theorem postorder_succ (blk : ℤ → Block) (d : ℕ) {a : ℤ} (ha : a ≠ 0) :
    postorder (fun a j => getInt (blk a) j) 128 (d + 1) a =
      treeBlocks blk (fun _ => d) (getInt (blk a)) 128 ++ [a] := if_neg ha

theorem freeEntries_eq (blk : ℤ → Block) (table : ℕ → ℤ) (n : ℕ) (s : FsState) :
    freeEntries buffer table n s = freeAll buffer s (treeBlocks blk (fun _ => 0) table n) := by
  induction n generalizing s with
  | zero => rfl
  | succ n ih =>
    rw [treeBlocks_succ, freeAll_append, freeEntries, postorder]
    by_cases h0 : table n = 0
    · rw [if_neg (not_not.mpr h0), if_pos h0]
      exact ih s
    · rw [if_pos h0, if_neg h0, freeAll_singleton]
      cases free buffer s (table n) with
      | error e => rfl
      | ok s => exact ih s

/-- The loop over the entries of an index block. -/
theorem freeTables_eq (double : Bool) : ∀ (n : ℕ) {s : FsState} {L : List ℤ},
    Freeable blk s L (treeBlocks blk (fun _ => if double then 1 else 0) table n) →
    freeTables buffer double table n s =
      freeAll buffer s (treeBlocks blk (fun _ => if double then 1 else 0) table n)
  | 0, _, _, _ => rfl
  | n + 1, s, L, h => by
    rw [treeBlocks_succ] at h ⊢
    rw [freeAll_append, freeTables]
    obtain ⟨s', L', hall, h'⟩ := h.append buffer
    have ih := freeTables_eq double n h'
    by_cases h0 : table n = 0
    · rw [if_neg (not_not.mpr h0)]
      rw [h0, postorder_zero_root] at hall ⊢
      obtain rfl : s = s' := by simpa [freeAll] using hall
      exact ih
    · rw [if_pos h0, hall, Except.ok_bind, ← ih]
      cases double with
      | false =>
        rw [if_neg (by decide), postorder, if_neg h0, freeAll_singleton] at hall
        change free buffer s (table n) >>= freeTables buffer false table n = _
        rw [hall]
        rfl
      | true =>
        have hblk : s.blk (table n) = blk (table n) := by
          refine h.blk_eq _ (List.mem_append_left _ ?_)
          rw [if_pos rfl, postorder_succ blk 0 h0]
          simp
        rw [if_pos rfl, postorder_succ blk 0 h0, freeAll_append] at hall
        obtain ⟨s₁, hentries, hfree⟩ := Except.bind_eq_ok.mp hall
        rw [freeAll_singleton] at hfree
        change (freeEntries buffer (getInt (s.blk (table n))) 128 s >>= fun s =>
          free buffer s (table n) >>= freeTables buffer true table n) = _
        rw [hblk, freeEntries_eq blk, hentries, Except.ok_bind, hfree]
        rfl

/-- What `ITrunc` does with one element of `i_addr` that is not 0. -/
theorem freeTree_eq {i : ℕ} (hi : i < 10) {a : ℤ} (ha : a ≠ 0)
    (h : Freeable blk s L (postorder (fun a j => getInt (blk a) j) 128 (depth i) a)) :
    ((if 6 ≤ i ∧ i ≤ 9 then freeTables buffer (8 ≤ i ∧ i ≤ 9) (getInt (bread s a).bAddr) 128 s
      else .ok s) >>= fun s => free buffer s a) =
    freeAll buffer s (postorder (fun a j => getInt (blk a) j) 128 (depth i) a) := by
  by_cases h6 : i < 6
  · have hd : depth i = 0 := if_pos h6
    rw [if_neg (by omega), hd, postorder, if_neg ha, freeAll_singleton]
    rfl
  · have hd : depth i = (if decide (8 ≤ i ∧ i ≤ 9) then 1 else 0) + 1 := by
      unfold depth
      by_cases h8 : i < 8
      · rw [if_neg h6, if_pos h8, if_neg (by simp; omega)]
      · rw [if_neg h6, if_neg h8, if_pos (by simp; omega)]
    rw [hd, postorder_succ blk _ ha] at h ⊢
    have hblk : s.blk a = blk a := h.blk_eq a (by simp)
    rw [if_pos (by omega), freeAll_append, bread, hblk, freeTables_eq _ _ h.left]
    simp only [freeAll_singleton]

/-- The numbers in the inode after `ITrunc` has gone through the first `n` trees. -/
def cleared (ino : Inode) (n : ℕ) : Inode :=
  { ino with iAddr := fun k => if k < n then 0 else ino.iAddr k }

theorem cleared_succ (ino : Inode) (n : ℕ) :
    cleared { ino with iAddr := Function.update ino.iAddr n 0 } n = cleared ino (n + 1) := by
  unfold cleared
  congr 1
  funext k
  by_cases hk : k = n
  · subst hk
    simp
  · have hupd : Function.update ino.iAddr n 0 k = ino.iAddr k := Function.update_of_ne hk ..
    by_cases hlt : k < n
    · rw [if_pos hlt, if_pos (by omega)]
    · rw [if_neg hlt, if_neg (by omega)]
      exact hupd

theorem cleared_succ_of_eq {ino : Inode} {n : ℕ} (h : ino.iAddr n = 0) :
    cleared ino n = cleared ino (n + 1) := by
  rw [← cleared_succ, ← h, Function.update_eq_self]

/-- **The loops of `ITrunc`** free the blocks of the inode in their order. -/
theorem freeAddrs_spec : ∀ (n : ℕ) {s : FsState} {L : List ℤ} {ino : Inode}, n ≤ 10 →
    Freeable blk s L (treeBlocks blk depth ino.iAddr n) →
    freeAddrs buffer n s ino =
      (freeAll buffer s (treeBlocks blk depth ino.iAddr n) >>= fun s => .ok (cleared ino n, s))
  | 0, s, _, ino, _, _ => by
    have hcl : cleared ino 0 = ino := by simp [cleared]
    rw [hcl]
    rfl
  | n + 1, s, L, ino, hn, h => by
    rw [treeBlocks_succ] at h ⊢
    obtain ⟨s', L', hall, h'⟩ := h.append buffer
    rw [freeAll_append, freeAddrs, hall, Except.ok_bind]
    by_cases h0 : ino.iAddr n = 0
    · rw [if_neg (not_not.mpr h0), ← cleared_succ_of_eq h0]
      rw [h0, postorder_zero_root] at hall
      obtain rfl : s = s' := by simpa [freeAll] using hall
      exact freeAddrs_spec n (by omega) h'
    · have hrest : treeBlocks blk depth (Function.update ino.iAddr n 0) n =
          treeBlocks blk depth ino.iAddr n := by
        unfold treeBlocks
        refine List.flatMap_congr fun j hj => ?_
        have hj : j < n := by simpa using hj
        rw [Function.update_of_ne hj.ne]
      have ih : freeAddrs buffer n s' { ino with iAddr := Function.update ino.iAddr n 0 } = _ :=
        freeAddrs_spec n (by omega) (by rw [hrest]; exact h')
      rw [cleared_succ, hrest] at ih
      rw [← freeTree_eq (by omega) h0 h.left] at hall
      obtain ⟨s₁, htables, hfree⟩ := Except.bind_eq_ok.mp hall
      rw [if_pos h0, ← ih]
      by_cases hc : 6 ≤ n ∧ n ≤ 9
      · rw [if_pos hc] at htables
        simp only [if_pos hc, htables, Except.ok_bind, hfree]
      · rw [if_neg hc] at htables
        cases htables
        simp only [if_neg hc, Except.ok_bind, hfree]

/-! ### The blocks of an inode -/

/-- The list holds the blocks that the paths of the inode lead to. -/
theorem mem_fileBlocks {iAddr : ℕ → ℤ} {b : ℤ} : b ∈ fileBlocks blk iAddr ↔
    b ≠ 0 ∧ ∃ k p, IsPath k p ∧ walk (fun a j => getInt (blk a) j) (iAddr k) p = b := by
  simp only [fileBlocks, treeBlocks, List.mem_flatMap, List.mem_reverse, List.mem_range,
    mem_postorder]
  constructor
  · intro h
    obtain ⟨k, hk, hb, p, hlen, hlt, hp⟩ := h
    exact ⟨hb, k, p, ⟨hk, hlen, hlt⟩, hp⟩
  · intro h
    obtain ⟨hb, k, p, hkp, hp⟩ := h
    exact ⟨k, hkp.root_lt, hb, p, hkp.length_le, hkp.index_lt, hp⟩

variable {ι : Type*} {v : View ι}

theorem Apart.mem_fileBlocks (i : ι) {b : ℤ} : b ∈ fileBlocks v.blk (v.addr i) ↔
    b ≠ 0 ∧ ∃ k p, IsPath k p ∧ v.at (i, k) p = b := Inode.mem_fileBlocks

/-- No two paths of an inode lead to one block. -/
def Distinct (blk : ℤ → Block) (iAddr : ℕ → ℤ) : Prop :=
  Owned IsPath (fun a j => getInt (blk a) j) iAddr

/-- The blocks of an inode are listed once. -/
theorem Distinct.nodup_fileBlocks {iAddr : ℕ → ℤ} (h : Distinct blk iAddr) :
    (fileBlocks blk iAddr).Nodup := by
  refine List.nodup_flatMap.mpr ⟨?_, ?_⟩
  · intro k hk
    have hk : k < 10 := by simpa using hk
    refine nodup_postorder fun p q hp hq hpw hqw hne heq => ?_
    exact (h k p k q ⟨hk, hp, hpw⟩ ⟨hk, hq, hqw⟩ hne heq).2
  · refine List.Nodup.pairwise_of_forall_ne (List.nodup_reverse.mpr List.nodup_range) ?_
    intro k hk l hl hkl
    have hk : k < 10 := by simpa using hk
    have hl : l < 10 := by simpa using hl
    intro x hx hy
    obtain ⟨hx0, p, hp, hpw, rfl⟩ := mem_postorder.mp hx
    obtain ⟨-, q, hq, hqw, hqx⟩ := mem_postorder.mp hy
    exact hkl (h k p l q ⟨hk, hp, hpw⟩ ⟨hl, hq, hqw⟩ hx0 hqx.symm).1

theorem Apart.distinct (h : Apart v L) (i : ι) : Distinct v.blk (v.addr i) := by
  intro k p l q hp hq hne heq
  obtain ⟨hkl, hpq⟩ := h.owned (i, k) p (i, l) q hp hq hne heq
  exact ⟨(Prod.mk.inj hkl).2, hpq⟩

theorem Apart.nodup_fileBlocks (h : Apart v L) (i : ι) : (fileBlocks v.blk (v.addr i)).Nodup :=
  (h.distinct i).nodup_fileBlocks

/-- The blocks of an inode can be freed. -/
theorem Apart.freeable {addr : ι → ℕ → ℤ} (h : Apart ⟨s.blk, addr⟩ L) (hfs : FreeList s L) (i : ι) :
    Freeable s.blk s L (fileBlocks s.blk (addr i)) := by
  refine ⟨hfs, h.nodup_fileBlocks i, ?_, ?_, fun _ _ => rfl⟩
  · intro b hb
    obtain ⟨hb0, k, p, hp, rfl⟩ := (Apart.mem_fileBlocks (v := ⟨s.blk, addr⟩) i).mp hb
    exact h.data (i, k) p hp hb0
  · intro b hb
    obtain ⟨-, k, p, hp, rfl⟩ := (Apart.mem_fileBlocks (v := ⟨s.blk, addr⟩) i).mp hb
    exact h.unlisted (i, k) p hp

theorem Sound.freeable {addr : ι → ℕ → ℤ} (h : Sound s addr L) (i : ι) :
    Freeable s.blk s L (fileBlocks s.blk (addr i)) := h.apart.freeable h.freeList i

variable [DecidableEq ι]

/-- After the blocks of an inode were freed, the other trees stand as they stood. -/
theorem Apart.trunc {addr : ι → ℕ → ℤ} {i : ι} {iAddr' : ℕ → ℤ} {s' : FsState}
    (h : Apart ⟨s.blk, addr⟩ L) (hfs : FreeList s' ((fileBlocks s.blk (addr i)).reverse ++ L))
    (hblk : ∀ c ∉ fileBlocks s.blk (addr i), s'.blk c = s.blk c) (hzero : ∀ k < 10, iAddr' k = 0) :
    Apart ⟨s'.blk, Function.update addr i iAddr'⟩ ((fileBlocks s.blk (addr i)).reverse ++ L) ∧
      ∀ (u : ι × ℕ) q, IsPath u.2 q →
        (⟨s'.blk, Function.update addr i iAddr'⟩ : View ι).at u q =
          if u.1 = i then 0 else (⟨s.blk, addr⟩ : View ι).at u q := by
  -- a block of another inode is not freed
  have hother : ∀ (u : ι × ℕ) q, IsPath u.2 q → u.1 ≠ i →
      (⟨s.blk, addr⟩ : View ι).at u q ∉ fileBlocks s.blk (addr i) := by
    intro u q hq hu hmem
    obtain ⟨hne, k, p, hp, heq⟩ := (Apart.mem_fileBlocks (v := ⟨s.blk, addr⟩) i).mp hmem
    exact hu (congrArg Prod.fst (h.owned u q (i, k) p hq hp hne heq.symm).1)
  have hat : ∀ (u : ι × ℕ) q, IsPath u.2 q →
      (⟨s'.blk, Function.update addr i iAddr'⟩ : View ι).at u q =
        if u.1 = i then 0 else (⟨s.blk, addr⟩ : View ι).at u q := by
    intro u q hq
    by_cases hu : u.1 = i
    · rw [if_pos hu, View.at, hu]
      simp only [Function.update_self, hzero u.2 hq.root_lt, walk_zero]
    · rw [if_neg hu]
      refine View.at_congr (I := fun j => j ≠ i) ?_ ?_ u q hu hq
      · intro j hj
        exact Function.update_of_ne hj _ _
      · intro u j q hu hq _
        exact hblk _ (hother u q hq.tail hu)
  refine ⟨h.shrink ?_ ?_, hat⟩
  · intro u q hq
    rw [hat u q hq]
    exact (ite_eq_or_eq _ _ _)
  · intro u q hq
    rw [hat u q hq]
    by_cases hu : u.1 = i
    · rw [if_pos hu]
      intro hmem
      exact (hfs.data 0 hmem).ne_zero rfl
    · rw [if_neg hu, List.mem_append, List.mem_reverse, not_or]
      exact ⟨hother u q hq hu, h.unlisted u q hq⟩

theorem Sound.trunc {addr : ι → ℕ → ℤ} {i : ι} {iAddr' : ℕ → ℤ} {s' : FsState}
    (h : Sound s addr L) (hfs : FreeList s' ((fileBlocks s.blk (addr i)).reverse ++ L))
    (hne : s'.sb.sNfree ≠ 0) (hblk : ∀ c ∉ fileBlocks s.blk (addr i), s'.blk c = s.blk c)
    (hzero : ∀ k < 10, iAddr' k = 0) :
    Sound s' (Function.update addr i iAddr') ((fileBlocks s.blk (addr i)).reverse ++ L) ∧
      ∀ (u : ι × ℕ) q, IsPath u.2 q →
        (⟨s'.blk, Function.update addr i iAddr'⟩ : View ι).at u q =
          if u.1 = i then 0 else (⟨s.blk, addr⟩ : View ι).at u q := by
  obtain ⟨hapart, hat⟩ := h.apart.trunc hfs hblk hzero
  exact ⟨⟨hfs, hne, hapart⟩, hat⟩

/-- The mask that `ITrunc` applies to the mode is empty. -/
theorem iMode_trunc (m : UInt32) : m &&& ~~~(ILARG &&& IRWXU &&& IRWXG &&& IRWXO) = m := by
  have h : ILARG &&& IRWXU &&& IRWXG &&& IRWXO = 0 := by decide
  rw [h]
  simp

/-- `ITrunc` of an inode whose blocks can be freed. -/
theorem itrunc_of_freeable {ino : Inode} (hf : Freeable s.blk s L (fileBlocks s.blk ino.iAddr))
    (hdev : ino.isDevice = false) (buffer : ℤ → Block) :
    ∃ ino' s', itrunc buffer s ino = .ok (ino', s') ∧
      ino' = { cleared ino 10 with
        iSize := 0
        iFlag := ino.iFlag ||| IUPD
        iNlink := 1 } ∧
      s'.uError = s.uError ∧
      FreeList s' ((fileBlocks s.blk ino.iAddr).reverse ++ L) ∧
      (s.sb.sNfree ≠ 0 → s'.sb.sNfree ≠ 0) ∧
      ∀ c ∉ fileBlocks s.blk ino.iAddr, s'.blk c = s.blk c := by
  obtain ⟨s', hall, hfs, herr, hblk, hne⟩ := freeAll_spec buffer _ hf.freeList hf.nodup
    fun b hb => ⟨hf.data b hb, hf.unlisted b hb⟩
  have hloop : freeAddrs buffer 10 s ino = .ok (cleared ino 10, s') := by
    rw [freeAddrs_spec 10 (le_refl 10) hf]
    change (freeAll buffer s (fileBlocks s.blk ino.iAddr) >>= _) = _
    rw [hall]
    rfl
  refine ⟨_, s', ?_, rfl, herr, hfs, hne, hblk⟩
  unfold itrunc
  rw [hdev, hloop]
  simp only [Except.ok_bind, iMode_trunc]
  rfl

omit [DecidableEq ι] in
/-- **`ITrunc`** frees the blocks of the inode and leaves its trees empty. -/
theorem itrunc_spec {addr : ι → ℕ → ℤ} {i : ι} {ino : Inode} (h : Sound s addr L)
    (haddr : ino.iAddr = addr i) (hdev : ino.isDevice = false) (buffer : ℤ → Block) :
    ∃ ino' s', itrunc buffer s ino = .ok (ino', s') ∧
      ino' = { cleared ino 10 with
        iSize := 0
        iFlag := ino.iFlag ||| IUPD
        iNlink := 1 } ∧
      s'.uError = s.uError ∧
      FreeList s' ((fileBlocks s.blk (addr i)).reverse ++ L) ∧ s'.sb.sNfree ≠ 0 ∧
      ∀ c ∉ fileBlocks s.blk (addr i), s'.blk c = s.blk c := by
  have hf := h.freeable i
  rw [← haddr] at hf ⊢
  obtain ⟨ino', s', htrunc, hino, herr, hfs, hne, hblk⟩ := itrunc_of_freeable hf hdev buffer
  exact ⟨ino', s', htrunc, hino, herr, hfs, hne h.nfree_ne, hblk⟩

end Inode
end UnixV6pp
