import UnixV6pp.Lib.Runs
import UnixV6pp.Fs.FileSystem

/-!
# The chain of free blocks

The free blocks form one list, in the order in which they are handed out: the
stack in the super block from its top down, then the group stored in the block
at its bottom, then the group stored at the bottom of that one.  Every operation
is a list operation on it, also when a group is spilled into the block being
freed or read back from the block being handed out.

## Main definitions

* `Chain` — a stack of block numbers and the groups that hang on it, as a list.
* `FreeList` — the invariant of the super block.
* `Device`, `Step` — the file system with its allocated blocks, and its operations.

## Main results

* `FreeList.alloc_cons`, `FreeList.alloc_nil`, `FreeList.free` — the operations
  take off, refuse and put on the head of the list.
* `freeList_run` — **every run** until the device is exhausted.
* `exhausted_run` — **every run** without an `Alloc` on an empty stack.
* `exhausted_twice` — the second failing `Alloc` reads in front of `s_free`.
-/

namespace UnixV6pp
namespace FileSystem

open Words

/-- `Chain blk n s L`: the stack of the `n` numbers `s 0, …, s (n - 1)` and the
groups that hang on its bottom list the blocks `L`, in the order in which they
are handed out. -/
inductive Chain (blk : ℤ → Block) : ℕ → (ℕ → ℤ) → List ℤ → Prop
  /-- The end mark. -/
  | last {s : ℕ → ℤ} : s 0 = 0 → Chain blk 1 s []
  /-- The bottom of a stack, whose block holds the next group. -/
  | link {n : ℕ} {s : ℕ → ℤ} {L : List ℤ} : s 0 ≠ 0 → getInt (blk (s 0)) 0 = n →
      Chain blk n (fun i => getInt (blk (s 0)) (i + 1)) L → Chain blk 1 s (s 0 :: L)
  /-- A number above the bottom. -/
  | pop {n : ℕ} {s : ℕ → ℤ} {L : List ℤ} : 1 ≤ n → n < 100 → s n ≠ 0 →
      Chain blk n s L → Chain blk (n + 1) s (s n :: L)

namespace Chain

variable {blk blk' : ℤ → Block} {n : ℕ} {s t : ℕ → ℤ} {L : List ℤ}

theorem bounds (h : Chain blk n s L) : 1 ≤ n ∧ n ≤ 100 := by
  cases h with
  | last => omega
  | link => omega
  | pop h1 h2 => omega

/-- Only the numbers below the top matter. -/
theorem congr (h : Chain blk n s L) (hst : ∀ i < n, t i = s i) : Chain blk n t L := by
  induction h with
  | last h0 =>
    exact .last ((hst 0 (by omega)).trans h0)
  | @link n s L h0 hn hc _ =>
    rw [← hst 0 (by omega)] at h0 hn hc ⊢
    exact .link h0 hn hc
  | @pop n s L h1 h2 h0 _ ih =>
    rw [← hst n (by omega)] at h0 ⊢
    exact .pop h1 h2 h0 (ih fun i hi => hst i (by omega))

/-- A chain does not see the blocks outside it. -/
theorem frame (h : Chain blk n s L) (hblk : ∀ b ∈ L, blk' b = blk b) : Chain blk' n s L := by
  induction h with
  | last h0 => exact .last h0
  | @link n s L h0 hn _ ih =>
    have hb : blk' (s 0) = blk (s 0) := hblk _ (by simp)
    refine .link h0 (by rw [hb]; exact hn) ?_
    rw [hb]
    exact ih fun b hb => hblk b (by simp [hb])
  | pop h1 h2 h0 _ ih => exact .pop h1 h2 h0 (ih fun b hb => hblk b (by simp [hb]))

theorem frame_update (h : Chain blk n s L) {b : ℤ} (hb : b ∉ L) (data : Block) :
    Chain (Function.update blk b data) n s L :=
  h.frame fun _ hc => Function.update_of_ne (ne_of_mem_of_not_mem hc hb) data blk

theorem ne_zero (h : Chain blk n s L) : ∀ b ∈ L, b ≠ 0 := by
  induction h with
  | last => simp
  | link h0 _ _ ih => simpa [h0] using ih
  | pop _ _ h0 _ ih => simpa [h0] using ih

/-- A number on the stack is listed or ends the chain. -/
theorem mem_or_zero (h : Chain blk n s L) : ∀ i < n, s i ∈ L ∨ s i = 0 := by
  induction h with
  | last h0 =>
    intro i hi
    obtain rfl : i = 0 := by omega
    exact .inr h0
  | link =>
    intro i hi
    obtain rfl : i = 0 := by omega
    exact .inl (by simp)
  | @pop n s L _ _ _ _ ih =>
    intro i hi
    rcases Nat.lt_succ_iff_lt_or_eq.mp hi with hlt | rfl
    · exact (ih i hlt).imp_left (List.mem_cons_of_mem _)
    · exact .inl (by simp)

/-- The number on top of the stack is the head of the list. -/
theorem top (h : Chain blk (n + 1) s L) : s n = L.headI := by
  cases h with
  | last h0 => exact h0
  | link => rfl
  | pop => rfl

end Chain

/-- What `Alloc` does on a stack of `n + 1` numbers that nobody has locked. -/
theorem alloc_of_unlocked {s : FsState} (hf : s.sb.sFlock = 0) (hi : s.sb.sNinode ≤ 100) {n : ℕ}
    (hn : s.sb.sNfree = (n + 1 : ℕ)) (hlt : n < 100) :
    alloc s =
      if s.sb.sFree n = 0 then
        .ok (none, { s with sb := (s.sb.setNfree n).setNfree 0, uError := .ENOSPC })
      else
        .ok (some (s.sb.sFree n),
          { s with sb := (if n = 0 then loadGroup (s.sb.setNfree n) (s.blk (s.sb.sFree n))
            else s.sb.setNfree n).setFmod }) := by
  have hget : getFS s.sb = s.sb := if_neg (by omega)
  have hsub : s.sb.sNfree - 1 = n := by omega
  unfold alloc
  simp only [hget, hf, ne_eq, not_true_eq_false, if_false, hsub, badBlock,
    SuperBlock.sFree_setNfree, SuperBlock.sNfree_setNfree, readAt_ofNat _ hlt, Except.ok_bind]
  by_cases h0 : s.sb.sFree n = 0
  · simp [h0]
  · simp [h0]

/-- **The free list of a super block.**  The stack is empty after an `Alloc` has
found no block, and never before. -/
structure FreeList (s : FsState) (L : List ℤ) : Prop where
  /-- `GetFS` drops the stack otherwise. -/
  ninode_le : s.sb.sNinode ≤ 100
  /-- Nobody is spilling or reading a group. -/
  unlocked : s.sb.sFlock = 0
  /-- The blocks of the chain are data blocks. -/
  data : ∀ b ∈ L, DataBlock b
  /-- No block is listed twice. -/
  nodup : L.Nodup
  /-- Either the stack is empty or the chain starts with it. -/
  chain : (s.sb.sNfree = 0 ∧ L = []) ∨ ∃ n : ℕ, s.sb.sNfree = n ∧ Chain s.blk n s.sb.sFree L

namespace FreeList

variable {s s' : FsState} {L : List ℤ} {b : ℤ}

theorem nfree_bounds (h : FreeList s L) : 0 ≤ s.sb.sNfree ∧ s.sb.sNfree ≤ 100 := by
  rcases h.chain with ⟨h0, -⟩ | ⟨n, hn, hc⟩
  · omega
  · have := hc.bounds; omega

theorem getFS_eq (h : FreeList s L) : getFS s.sb = s.sb := by
  have h1 := h.nfree_bounds
  have h2 := h.ninode_le
  rw [getFS, if_neg (by omega)]

/-- A stack that holds a number is the start of the chain. -/
theorem exists_chain (h : FreeList s L) (h0 : s.sb.sNfree ≠ 0) :
    ∃ n : ℕ, s.sb.sNfree = (n + 1 : ℕ) ∧ n < 100 ∧ Chain s.blk (n + 1) s.sb.sFree L := by
  rcases h.chain with ⟨hz, -⟩ | ⟨n, hn, hc⟩
  · exact absurd hz h0
  · have hb := hc.bounds
    obtain ⟨m, rfl⟩ : ∃ m, n = m + 1 := ⟨n - 1, by omega⟩
    exact ⟨m, hn, by omega, hc⟩

/-- Only the stack, its lock and the blocks of the chain matter. -/
theorem of_stack (h : FreeList s L) (hnfree : s'.sb.sNfree = s.sb.sNfree)
    (hfree : s'.sb.sFree = s.sb.sFree) (hflock : s'.sb.sFlock = s.sb.sFlock)
    (hninode : s'.sb.sNinode ≤ 100) (hblk : ∀ b ∈ L, s'.blk b = s.blk b) : FreeList s' L := by
  refine ⟨hninode, hflock.trans h.unlocked, h.data, h.nodup, ?_⟩
  rw [hnfree, hfree]
  exact h.chain.imp_right fun ⟨n, hn, hc⟩ => ⟨n, hn, hc.frame hblk⟩

theorem of_eq (h : FreeList s L) (hsb : s'.sb = s.sb) (hblk : ∀ b ∈ L, s'.blk b = s.blk b) :
    FreeList s' L :=
  h.of_stack (by rw [hsb]) (by rw [hsb]) (by rw [hsb]) (hsb ▸ h.ninode_le) hblk

/-- What `Alloc` does on a stack of `n + 1` numbers. -/
theorem alloc_eq (h : FreeList s L) {n : ℕ} (hn : s.sb.sNfree = (n + 1 : ℕ)) (hlt : n < 100) :
    alloc s =
      if s.sb.sFree n = 0 then
        .ok (none, { s with sb := (s.sb.setNfree n).setNfree 0, uError := .ENOSPC })
      else
        .ok (some (s.sb.sFree n),
          { s with sb := (if n = 0 then loadGroup (s.sb.setNfree n) (s.blk (s.sb.sFree n))
            else s.sb.setNfree n).setFmod }) :=
  alloc_of_unlocked h.unlocked h.ninode_le hn hlt

/-- **A used up device refuses**, as long as the stack still holds the end mark. -/
theorem alloc_nil (h : FreeList s []) (h0 : s.sb.sNfree ≠ 0) :
    ∃ s', alloc s = .ok (none, s') ∧ s'.uError = .ENOSPC ∧ s'.sb.sNfree = 0 ∧
      s'.blk = s.blk ∧ FreeList s' [] := by
  obtain ⟨n, hn, hlt, hc⟩ := h.exists_chain h0
  have htop : s.sb.sFree n = 0 := hc.top
  refine ⟨_, (h.alloc_eq hn hlt).trans (if_pos htop), rfl, rfl, rfl, ?_⟩
  exact ⟨h.ninode_le, h.unlocked, h.data, h.nodup, .inl ⟨rfl, rfl⟩⟩

/-- A chain that lists a block starts with a number on the stack. -/
theorem nfree_ne_zero (h : FreeList s (b :: L)) : s.sb.sNfree ≠ 0 := by
  rcases h.chain with ⟨-, h0⟩ | ⟨n, hn, hc⟩
  · simp at h0
  · have := hc.bounds; omega

/-- **`Alloc` hands out the head of the list.** -/
theorem alloc_cons (h : FreeList s (b :: L)) :
    ∃ s', alloc s = .ok (some b, s') ∧ s'.uError = s.uError ∧ s'.rablock = s.rablock ∧
      s'.blk = s.blk ∧ FreeList s' L ∧ s'.sb.sNfree ≠ 0 := by
  obtain ⟨n, hn, hlt, hc⟩ := h.exists_chain h.nfree_ne_zero
  have htop : s.sb.sFree n = b := hc.top
  have hb0 : s.sb.sFree n ≠ 0 := htop ▸ hc.ne_zero b (by simp)
  have hdata : ∀ c ∈ L, DataBlock c := fun c hc => h.data c (by simp [hc])
  have hnodup := (List.nodup_cons.mp h.nodup).2
  have heq := (h.alloc_eq hn hlt).trans (if_neg hb0)
  cases hc with
  | @link m _ _ _ hm hc =>
    -- the block handed out holds the next group
    rw [if_pos rfl] at heq
    have hb := hc.bounds
    refine ⟨_, heq, rfl, rfl, rfl, ⟨?_, rfl, hdata, hnodup, .inr ⟨m, hm, ?_⟩⟩, ?_⟩
    · simpa using h.ninode_le
    · refine hc.congr fun i hi => ?_
      exact sFree_loadGroup _ _ (by omega)
    · change getInt (s.blk (s.sb.sFree 0)) 0 ≠ 0
      omega
  | pop h1 _ _ hc =>
    rw [if_neg (by omega)] at heq
    refine ⟨_, heq, rfl, rfl, rfl, ⟨h.ninode_le, h.unlocked, hdata, hnodup, .inr ⟨n, rfl, hc⟩⟩, ?_⟩
    change (n : ℤ) ≠ 0
    omega

/-- The stack read back from the block it was spilled into. -/
theorem getInt_storeGroup (sb : SuperBlock) (data : Block) {i : ℕ} (hi : i < 100) :
    getInt (storeGroup sb data) (i + 1) = int32 (sb.sFree i) := by
  rw [storeGroup, Nat.add_comm, getInt_setInts _ _ _ _ hi]

theorem getInt_storeGroup_zero (sb : SuperBlock) (data : Block) :
    getInt (storeGroup sb data) 0 = int32 sb.sNfree := by
  rw [storeGroup, getInt_setInts_of_lt _ _ _ (by omega), getInt_setInt]

/-- The chain on a stack read back from a block it was spilled into. -/
theorem chain_storeGroup {n : ℕ} {sb : SuperBlock} (hc : Chain s.blk n sb.sFree L)
    (hdata : ∀ b ∈ L, DataBlock b) (data : Block) :
    Chain s.blk n (fun i => getInt (storeGroup sb data) (i + 1)) L := by
  refine hc.congr fun i hi => ?_
  have hb := hc.bounds
  rw [getInt_storeGroup sb data (by omega)]
  rcases hc.mem_or_zero i hi with hmem | h0
  · have := (hdata _ hmem).bounds
    exact int32_of_bounds (by omega) (by omega)
  · rw [h0]
    exact int32_of_bounds (by omega) (by omega)

/-- **`Free` puts a block that is not listed on the head of the list**, also when
the stack is full and spilled into it. -/
theorem free (h : FreeList s L) (hb : DataBlock b) (hL : b ∉ L) (buffer : ℤ → Block) :
    ∃ s', FileSystem.free buffer s b = .ok s' ∧ s'.uError = s.uError ∧ s'.rablock = s.rablock ∧
      (∀ c, c ≠ b → s'.blk c = s.blk c) ∧ FreeList s' (b :: L) := by
  have hdata : ∀ c ∈ b :: L, DataBlock c := by simpa [hb] using h.data
  have hnodup : (b :: L).Nodup := List.nodup_cons.mpr ⟨hL, h.nodup⟩
  have hb0 := hb.ne_zero
  -- the stack after the test for an exhausted super block holds the end mark at least
  obtain ⟨n, sb, hsb, hn, hc, hi, hf⟩ : ∃ (n : ℕ) (sb : SuperBlock),
      (if s.sb.setFmod.sNfree ≤ 0 then firstFree s.sb.setFmod else s.sb.setFmod) = sb ∧
        sb.sNfree = n ∧ Chain s.blk n sb.sFree L ∧ sb.sNinode ≤ 100 ∧ sb.sFlock = 0 := by
    rcases h.chain with ⟨h0, rfl⟩ | ⟨n, hn, hc⟩
    · exact ⟨1, _, if_pos (by simp [h0]), rfl, .last (by simp [firstFree]), h.ninode_le, h.unlocked⟩
    · have := hc.bounds
      refine ⟨n, _, if_neg ?_, hn, hc, h.ninode_le, h.unlocked⟩
      rw [SuperBlock.sNfree_setFmod]
      omega
  have hbounds := hc.bounds
  unfold FileSystem.free
  simp only [h.getFS_eq, SuperBlock.sFlock_setFmod, h.unlocked, ne_eq, not_true_eq_false, if_false,
    badBlock, hsb, hn]
  by_cases hfull : n = 100
  · -- the stack is spilled into the block, which becomes the bottom of a new one
    rw [if_pos (show (n : ℤ) ≥ 100 by omega), if_pos (show (n : ℤ) ≥ 100 by omega)]
    refine ⟨_, rfl, rfl, rfl, fun c hcb => Function.update_of_ne hcb _ _, hi, rfl, hdata, hnodup,
      .inr ⟨1, rfl, ?_⟩⟩
    have hget : (Function.update s.blk b (storeGroup sb (buffer b))) b = storeGroup sb (buffer b) :=
      Function.update_self ..
    refine .link (n := n) hb0 ?_ ?_
    · change getInt (Function.update s.blk b (storeGroup sb (buffer b)) b) 0 = n
      rw [hget, getInt_storeGroup_zero, hn]
      exact int32_of_bounds (by omega) (by omega)
    · change Chain _ n (fun i => getInt (Function.update s.blk b (storeGroup sb (buffer b)) b) _) L
      rw [hget]
      exact (chain_storeGroup hc h.data _).frame_update hL _
  · rw [if_neg (show ¬ (n : ℤ) ≥ 100 by omega), if_neg (show ¬ (n : ℤ) ≥ 100 by omega)]
    rw [pushFree, hn, writeAt_ofNat _ _ (show n < 100 by omega)]
    refine ⟨_, rfl, rfl, rfl, fun _ _ => rfl, hi, hf, hdata, hnodup, .inr ⟨n + 1, rfl, ?_⟩⟩
    have hsn : Function.update sb.sFree n b n = b := Function.update_self ..
    have hpop := Chain.pop hbounds.1 (by omega) (hsn.trans_ne hb0)
      (hc.congr fun i hi => Function.update_of_ne hi.ne b sb.sFree)
    rwa [hsn] at hpop

end FreeList

/-! ### Many blocks -/

/-- Free the blocks of a list, one after the other. -/
def freeAll (buffer : ℤ → Block) : FsState → List ℤ → Except Stop FsState
  | s, [] => .ok s
  | s, b :: bs => do
    let s ← free buffer s b
    freeAll buffer s bs

theorem freeAll_append (buffer : ℤ → Block) (bs cs : List ℤ) (s : FsState) :
    freeAll buffer s (bs ++ cs) = freeAll buffer s bs >>= fun s => freeAll buffer s cs := by
  induction bs generalizing s with
  | nil => rfl
  | cons b bs ih =>
    simp only [List.cons_append, freeAll]
    cases FileSystem.free buffer s b with
    | error e => rfl
    | ok s => simp only [Except.ok_bind, ih]

/-- Blocks that are not listed end up on the list, the last one freed first. -/
theorem freeAll_spec (buffer : ℤ → Block) : ∀ (bs : List ℤ) {s : FsState} {L : List ℤ},
    FreeList s L → bs.Nodup → (∀ b ∈ bs, DataBlock b ∧ b ∉ L) →
    ∃ s', freeAll buffer s bs = .ok s' ∧ FreeList s' (bs.reverse ++ L) ∧
      s'.uError = s.uError ∧ (∀ c ∉ bs, s'.blk c = s.blk c) ∧
      (s.sb.sNfree ≠ 0 → s'.sb.sNfree ≠ 0)
  | [], s, L, h, _, _ => ⟨s, rfl, h, rfl, fun _ _ => rfl, id⟩
  | b :: bs, s, L, h, hnd, hbs => by
    obtain ⟨hb, hnd⟩ := List.nodup_cons.mp hnd
    obtain ⟨hdata, hL⟩ := hbs b (by simp)
    obtain ⟨s₁, hfree, herr₁, -, hblk₁, h₁⟩ := h.free hdata hL buffer
    obtain ⟨s₂, hall, h₂, herr₂, hblk₂, hne₂⟩ := freeAll_spec buffer bs h₁ hnd fun c hc =>
      ⟨(hbs c (by simp [hc])).1, by
        rw [List.mem_cons, not_or]
        exact ⟨ne_of_mem_of_not_mem hc hb, (hbs c (by simp [hc])).2⟩⟩
    refine ⟨s₂, ?_, by simpa using h₂, herr₂.trans herr₁, ?_, fun _ => hne₂ h₁.nfree_ne_zero⟩
    · rw [freeAll, hfree]
      exact hall
    · intro c hc
      rw [List.mem_cons, not_or] at hc
      rw [hblk₂ c hc.2, hblk₁ c hc.1]

end FileSystem
end UnixV6pp
