import UnixV6pp.Build.DiskFile
import UnixV6pp.Fs.FreeChain

/-!
# The free chain in a new image

`InitDataBlock` and `FileSystem::Alloc` agree on the groups: when `m` blocks below the end of the
zone are free, the super block and the blocks of the image hold what `m` alone determines.  The
file of the builder has the blocks from `2 ^ 22` on at positions that an `int` does not hold.

## Main definitions

* `entry`, `Grouped` — the stack and the groups when `m` blocks are free.
* `HandsOut` — what the kernel hands out until there is no space.
* `DataZone`, `Agrees` — the two programs agree on the blocks of a zone.

## Main results

* `grouped_initTurns` — the loop of `InitDataBlock`.
* `getFreeBlock_succ` — the builder takes the first free block.
* `Ready.alloc_succ`, `Ready.alloc_zero` — the kernel does, and finds the end.
* `agrees_iff` — **the programs agree on exactly the zones whose last group is stored in a block
  below `2 ^ 22`**.
-/

namespace UnixV6pp
namespace Build

open Words FileSystem RWFiles

/-! ### Writing numbers -/

namespace RWFiles

variable {f : RWFiles} {src : ℕ → ℤ} {n p q i : ℕ}

@[simp] theorem pos_writeInts (f : RWFiles) (src : ℕ → ℤ) (n : ℕ) :
    (f.writeInts src n).pos = f.pos + 4 * n := by
  induction n with
  | zero => rfl
  | succ n ih =>
    change (f.writeInts src n).pos + 4 = f.pos + 4 * (n + 1)
    omega

theorem bytes_writeInt_of_outside {v : ℤ} (h : p < f.pos ∨ f.pos + 4 ≤ p) :
    (f.writeInt v).bytes p = f.bytes p :=
  if_neg (by omega)

theorem bytes_writeInts_of_outside (h : p < f.pos ∨ f.pos + 4 * n ≤ p) :
    (f.writeInts src n).bytes p = f.bytes p := by
  induction n with
  | zero => rfl
  | succ n ih =>
    have hpos := pos_writeInts f src n
    rw [writeInts, bytes_writeInt_of_outside (by omega), ih (by omega)]

/-- A number written is a number of the array it is in. -/
theorem shift_writeInt {v : ℤ} (h : f.pos = q + 4 * i) :
    (fun o => (f.writeInt v).bytes (q + o)) = setInt (fun o => f.bytes (q + o)) i v := by
  funext o
  simp only [writeInt, setInt, h]
  refine if_congr ⟨fun _ => ⟨by omega, by omega⟩, fun _ => ⟨by omega, by omega⟩⟩ ?_ rfl
  congr 1
  omega

theorem shift_writeInts (h : f.pos = q + 4 * i) (n : ℕ) :
    (fun o => (f.writeInts src n).bytes (q + o)) = setInts (fun o => f.bytes (q + o)) i src n := by
  induction n with
  | zero => rfl
  | succ n ih =>
    have hpos := pos_writeInts f src n
    rw [writeInts, shift_writeInt (i := i + n) (by omega), ih, setInts]

end RWFiles

/-! ### The groups -/

/-- The number at `i` on the stack when `m` blocks below `e` are free. -/
def entry (e m i : ℕ) : ℤ := if m / 100 = 0 ∧ i = 0 then 0 else e - (m / 100 * 100 + i : ℕ)

/-- The stack and the groups when `m` blocks below `e` are free, as far as the groups are stored in
blocks below `2 ^ 22`. -/
structure Grouped (blk : ℤ → Block) (e m : ℕ) (nfree : ℤ) (s : ℕ → ℤ) : Prop where
  nfree_eq : nfree = (m % 100 + 1 : ℕ)
  free_eq : ∀ i ≤ m % 100, s i = entry e m i
  count_eq : ∀ j : ℕ, 1 ≤ j → 100 * j ≤ m → (e - 100 * j : ℤ) < 2 ^ 22 →
    getInt (blk (e - 100 * j)) 0 = 100
  group_eq : ∀ j : ℕ, 1 ≤ j → 100 * j ≤ m → (e - 100 * j : ℤ) < 2 ^ 22 →
    ∀ i < 100, getInt (blk (e - 100 * j)) (i + 1) = entry e (100 * j - 1) i

namespace Grouped

variable {blk blk' : ℤ → Block} {e m : ℕ} {nfree : ℤ} {s t : ℕ → ℤ}

/-- The number on top of the stack is the first free block. -/
theorem top (h : Grouped blk e (m + 1) nfree s) :
    s ((m + 1) % 100) = e - (m + 1 : ℕ) := by
  rw [h.free_eq _ (Nat.le_refl _), entry, if_neg (by omega)]
  omega

/-- Only the blocks with the groups matter. -/
theorem frame (h : Grouped blk e m nfree s)
    (hblk : ∀ b : ℤ, e - m ≤ b → b < 2 ^ 22 → blk' b = blk b) : Grouped blk' e m nfree s := by
  refine ⟨h.nfree_eq, h.free_eq, ?_, ?_⟩
  · intro j h1 hj hlt
    rw [hblk _ (by omega) hlt]
    exact h.count_eq j h1 hj hlt
  · intro j h1 hj hlt
    rw [hblk _ (by omega) hlt]
    exact h.group_eq j h1 hj hlt

/-- A block above the bottom of the stack is taken off. -/
theorem pop (h : Grouped blk e (m + 1) nfree s) (hm : (m + 1) % 100 ≠ 0) :
    Grouped blk e m (nfree - 1) s := by
  have hn := h.nfree_eq
  refine ⟨by omega, ?_, ?_, ?_⟩
  · intro i hi
    have hdiv : (m + 1) / 100 = m / 100 := by omega
    rw [h.free_eq i (by omega), entry, entry, hdiv]
  · exact fun j h1 hj => h.count_eq j h1 (by omega)
  · exact fun j h1 hj => h.group_eq j h1 (by omega)

/-- The block at the bottom of the stack holds the next one. -/
theorem load (h : Grouped blk e (m + 1) nfree s) (hm : (m + 1) % 100 = 0)
    (hlt : (e - (m + 1 : ℕ) : ℤ) < 2 ^ 22)
    (hst : ∀ i < 100, t i = getInt (blk (e - (m + 1 : ℕ))) (i + 1)) :
    Grouped blk e m (getInt (blk (e - (m + 1 : ℕ))) 0) t := by
  obtain ⟨j, hj⟩ : ∃ j, m + 1 = 100 * j := ⟨(m + 1) / 100, by omega⟩
  have hb : (e - (m + 1 : ℕ) : ℤ) = e - 100 * j := by omega
  rw [hb] at hlt hst ⊢
  have hcount := h.count_eq j (by omega) (by omega) hlt
  refine ⟨by omega, ?_, ?_, ?_⟩
  · intro i hi
    rw [hst i (by omega), h.group_eq j (by omega) (by omega) hlt i (by omega)]
    congr 1
    omega
  · exact fun j h1 hj => h.count_eq j h1 (by omega)
  · exact fun j h1 hj => h.group_eq j h1 (by omega)

/-- A block is put on a stack that has room. -/
theorem push (h : Grouped blk e m nfree s) (hm : (m + 1) % 100 ≠ 0) :
    Grouped blk e (m + 1) (nfree + 1) (Function.update s nfree.toNat (e - (m + 1 : ℕ))) := by
  have hn := h.nfree_eq
  have htop : nfree.toNat = (m + 1) % 100 := by omega
  have hdiv : (m + 1) / 100 = m / 100 := by omega
  refine ⟨by omega, ?_, ?_, ?_⟩
  · intro i hi
    rw [htop]
    by_cases h0 : i = (m + 1) % 100
    · subst h0
      rw [Function.update_self, entry, if_neg (by omega)]
      omega
    · rw [Function.update_of_ne h0, h.free_eq i (by omega), entry, entry, hdiv]
  · exact fun j h1 hj => h.count_eq j h1 (by omega)
  · exact fun j h1 hj => h.group_eq j h1 (by omega)

/-- A full stack is stored in the block that is put on the new one. -/
theorem store (h : Grouped blk e m nfree s) (hm : (m + 1) % 100 = 0)
    (hblk : ∀ b : ℤ, e - m ≤ b → b < 2 ^ 22 → blk' b = blk b)
    (hcount : (e - (m + 1 : ℕ) : ℤ) < 2 ^ 22 → getInt (blk' (e - (m + 1 : ℕ))) 0 = 100)
    (hgroup : (e - (m + 1 : ℕ) : ℤ) < 2 ^ 22 →
      ∀ i < 100, getInt (blk' (e - (m + 1 : ℕ))) (i + 1) = s i) :
    Grouped blk' e (m + 1) 1 (Function.update s 0 (e - (m + 1 : ℕ))) := by
  have h' := h.frame hblk
  refine ⟨by omega, ?_, ?_, ?_⟩
  · intro i hi
    obtain rfl : i = 0 := by omega
    rw [Function.update_self, entry, if_neg (by omega)]
    omega
  · intro j h1 hj hlt
    rcases Nat.lt_or_ge m (100 * j) with hlast | hle
    · have hb : (e - 100 * j : ℤ) = e - (m + 1 : ℕ) := by omega
      rw [hb] at hlt ⊢
      exact hcount hlt
    · exact h'.count_eq j h1 hle hlt
  · intro j h1 hj hlt i hi
    rcases Nat.lt_or_ge m (100 * j) with hlast | hle
    · have hb : (e - 100 * j : ℤ) = e - (m + 1 : ℕ) := by omega
      rw [hb] at hlt ⊢
      have hprev : 100 * j - 1 = m := by omega
      rw [hgroup hlt i hi, h.free_eq i (by omega), hprev]
    · exact h'.group_eq j h1 hle hlt i hi

end Grouped

/-! ### The builder -/

namespace Image

variable {im : Image} {e m i : ℕ} {b c : ℤ}

/-- The numbers in a block. -/
theorem getInt_blk (im : Image) (b : ℤ) (hi : i < 128) :
    getInt (im.blk b) i = getInt (fun o => im.diskFile.bytes (512 * b.toNat + o)) i := by
  simp only [getInt, blk]
  rw [if_pos (by omega), if_pos (by omega), if_pos (by omega), if_pos (by omega)]

/-- Where the file is positioned for a block. -/
theorem seek_convertPosition (f : RWFiles) (hb : 0 ≤ b) (hlt : b < 2 ^ 22) :
    (f.seekFilePosition (int32 (512 * b))).pos = 512 * b.toNat := by
  have hpos : int32 (512 * b) = 512 * b := int32_of_bounds (by omega) (by omega)
  rw [seekFilePosition, hpos, if_neg (by omega)]
  change (512 * b).toNat = _
  omega

@[simp] theorem bytes_seekFilePosition (f : RWFiles) (p : ℤ) :
    (f.seekFilePosition p).bytes = f.bytes := by
  unfold seekFilePosition
  split <;> rfl

/-- The other blocks when the file is written inside of a block. -/
theorem blk_of_outside {im' : Image} (hc : 0 ≤ c) {p n : ℕ}
    (hbytes : ∀ q, q < p ∨ p + n ≤ q → im'.diskFile.bytes q = im.diskFile.bytes q)
    (hp : 512 * b.toNat ≤ p) (hn : p + n ≤ 512 * b.toNat + 512) (hb : 0 ≤ b) (hne : c ≠ b) :
    im'.blk c = im.blk c := by
  funext o
  simp only [blk]
  split
  · exact hbytes _ (by omega)
  · rfl

/-- A group stored in a block. -/
theorem storeGroup_spec (im : Image) (hb : 0 ≤ b) (hlt : b < 2 ^ 22) (hn : im.sNfree = 100) :
    (∀ c, 0 ≤ c → c ≠ b → (im.storeGroup b).blk c = im.blk c) ∧
      getInt ((im.storeGroup b).blk b) 0 = 100 ∧
      ∀ i < 100, getInt ((im.storeGroup b).blk b) (i + 1) = int32 (im.sFree i) := by
  set f := im.diskFile.seekFilePosition (convertPosition b 0) with hf
  have hpos : f.pos = 512 * b.toNat := by
    rw [hf, convertPosition, Int.add_zero]
    exact seek_convertPosition _ hb hlt
  have hfile : (im.storeGroup b).diskFile = (f.writeInt im.sNfree).writeInts im.sFree 100 := by
    rw [storeGroup, ← hf, hn]
    rfl
  have hshift : (fun o => (im.storeGroup b).diskFile.bytes (512 * b.toNat + o)) =
      setInts (setInt (fun o => f.bytes (512 * b.toNat + o)) 0 im.sNfree) 1 im.sFree 100 := by
    have hpos₁ : (f.writeInt im.sNfree).pos = 512 * b.toNat + 4 * 1 := by
      change f.pos + 4 = _
      omega
    have hpos₀ : f.pos = 512 * b.toNat + 4 * 0 := by omega
    rw [hfile, shift_writeInts hpos₁, shift_writeInt hpos₀]
  refine ⟨?_, ?_, ?_⟩
  · intro c hc hne
    refine blk_of_outside (p := f.pos) (n := 404) hc ?_ (by omega) (by omega) hb hne
    intro q hq
    have hpos₁ : (f.writeInt im.sNfree).pos = f.pos + 4 := rfl
    rw [hfile, bytes_writeInts_of_outside (by omega), bytes_writeInt_of_outside (by omega), hf,
      bytes_seekFilePosition]
  · rw [getInt_blk _ _ (by omega), hshift, getInt_setInts_of_lt _ _ _ (by omega), getInt_setInt, hn]
    exact int32_of_bounds (by omega) (by omega)
  · intro i hi
    rw [getInt_blk _ _ (by omega), hshift, Nat.add_comm, getInt_setInts _ _ _ _ hi]

/-- A number on the stack is an `int`. -/
theorem int32_entry (he : e ≤ 2 ^ 31) (hm : m < e) (hi : i ≤ m % 100) :
    int32 (entry e m i) = entry e m i := by
  unfold entry
  split
  · exact int32_of_bounds (by omega) (by omega)
  · exact int32_of_bounds (by omega) (by omega)

/-- **One turn of the loop** puts one more block on the chain. -/
theorem grouped_initTurn (h : Grouped im.blk e m im.sNfree im.sFree) (he : e ≤ 2 ^ 31)
    (hm : m < e) :
    Grouped (im.initTurn (e - (m + 1 : ℕ))).blk e (m + 1) (im.initTurn (e - (m + 1 : ℕ))).sNfree
      (im.initTurn (e - (m + 1 : ℕ))).sFree := by
  have hn := h.nfree_eq
  unfold initTurn
  by_cases hfull : (m + 1) % 100 = 0
  · have h100 : im.sNfree = 100 := by omega
    rw [if_pos (by omega)]
    refine h.store hfull ?_ ?_ ?_
    · intro c hc hlt
      exact (storeGroup_spec im (by omega) (by omega) h100).1 c (by omega) (by omega)
    · exact fun hlt => (storeGroup_spec im (by omega) hlt h100).2.1
    · intro hlt i hi
      refine ((storeGroup_spec im (by omega) hlt h100).2.2 i hi).trans ?_
      rw [h.free_eq i (by omega), int32_entry he hm (by omega)]
  · rw [if_neg (by omega)]
    exact h.push hfull

theorem grouped_openGroup (im : Image) (e : ℕ) :
    Grouped im.openGroup.blk e 0 im.openGroup.sNfree im.openGroup.sFree := by
  refine ⟨rfl, ?_, fun j h1 hj => by omega, fun j h1 hj => by omega⟩
  intro i hi
  obtain rfl : i = 0 := by omega
  rfl

/-- **The loop of `InitDataBlock`.** -/
theorem grouped_initTurns (im : Image) {start num : ℕ} (he : start + num ≤ 2 ^ 31)
    (hm : m ≤ num) :
    Grouped (im.openGroup.initTurns start num m).blk (start + num) m
      (im.openGroup.initTurns start num m).sNfree (im.openGroup.initTurns start num m).sFree := by
  induction m with
  | zero => exact grouped_openGroup im _
  | succ m ih =>
    have hb : (num - 1 - m + start : ℤ) = (start + num : ℕ) - (m + 1 : ℕ) := by omega
    rw [initTurns, hb]
    exact grouped_initTurn (ih (by omega)) he (by omega)

/-- Clearing a block leaves the blocks with the later groups. -/
theorem blk_cleanBlock (im : Image) (hb : 0 ≤ b) (hbc : b < c) (hc : c < 2 ^ 22) :
    (im.cleanBlock b).blk c = im.blk c := by
  have hpos := seek_convertPosition im.diskFile.openFile hb (by omega)
  refine blk_of_outside (p := 512 * b.toNat) (n := 512) (by omega) ?_ (Nat.le_refl _)
    (Nat.le_refl _) hb (by omega)
  intro q hq
  unfold cleanBlock
  rw [bytes_writeInts_of_outside (by omega), bytes_seekFilePosition]
  rfl

theorem bytes_writeInts_zero {f : RWFiles} {n p : ℕ} (h : f.pos ≤ p) (hlt : p < f.pos + 4 * n) :
    (f.writeInts (fun _ => 0) n).bytes p = 0 := by
  induction n with
  | zero => omega
  | succ n ih =>
    have hpos := pos_writeInts f (fun _ => 0) n
    rcases Nat.lt_or_ge p (f.pos + 4 * n) with hlow | hhigh
    · rw [writeInts, bytes_writeInt_of_outside (by omega), ih hlow]
    · refine (if_pos (by omega)).trans ?_
      simp [byteOf]

/-- A cleared block. -/
theorem disk_cleanBlock (im : Image) (hb : 0 < b) (hlt : b < 2 ^ 22) :
    (im.cleanBlock b).disk = DataBlock.cleanBlock im.disk b := by
  have hpos := seek_convertPosition im.diskFile.openFile (Int.le_of_lt hb) hlt
  have hblk : (im.cleanBlock b).blk = Function.update im.blk b fun _ => 0 := by
    funext c o
    by_cases hcb : c = b
    · subst hcb
      simp only [blk, Function.update_self]
      split
      · exact bytes_writeInts_zero (by omega) (by omega)
      · rfl
    · rw [Function.update_of_ne hcb]
      simp only [blk]
      split
      · unfold cleanBlock
        rw [bytes_writeInts_of_outside (by omega), bytes_seekFilePosition]
        rfl
      · rfl
  rw [disk, hblk]
  rfl

/-- The group read from a block. -/
theorem loadGroup_spec (im : Image) (hb : 0 ≤ b) (hlt : b < 2 ^ 22) :
    (im.loadGroup b).blk = im.blk ∧ (im.loadGroup b).sNfree = getInt (im.blk b) 0 ∧
      ∀ i < 100, (im.loadGroup b).sFree i = getInt (im.blk b) (i + 1) := by
  have hpos := seek_convertPosition im.diskFile.openFile hb hlt
  set f := im.diskFile.openFile.seekFilePosition (int32 (512 * b)) with hf
  have hread : ∀ i < 128, f.readInts i = getInt (im.blk b) i := by
    intro i hi
    rw [readInts, hpos, hf, bytes_seekFilePosition, getInt_blk _ _ hi]
    rfl
  refine ⟨?_, hread 0 (by omega), ?_⟩
  · funext c o
    simp only [blk, loadGroup, bytes_seekFilePosition]
    rfl
  · intro i hi
    exact (if_pos hi).trans (hread _ (by omega))

/-- **Below `2 ^ 22` the file is as good as its blocks.** -/
theorem disk_getFreeBlock (im : Image) (hb : 0 < im.sFree (im.sNfree - 1).toNat)
    (hlt : im.sFree (im.sNfree - 1).toNat < 2 ^ 22) :
    (im.getFreeBlock.1, im.getFreeBlock.2.disk) = DataBlock.getFreeBlock im.disk := by
  set b := im.sFree (im.sNfree - 1).toNat with hbdef
  have hload : (loadGroup { im with sNfree := im.sNfree - 1 } b).disk =
      DataBlock.loadGroup { im.disk with sNfree := im.sNfree - 1 } b := by
    obtain ⟨hblk, hnfree, hfree⟩ :=
      loadGroup_spec { im with sNfree := im.sNfree - 1 } (Int.le_of_lt hb) hlt
    rw [disk, hblk, hnfree, DataBlock.loadGroup]
    congr 1
    funext i
    by_cases hi : i < 100
    · rw [hfree i hi, if_pos hi]
      rfl
    · rw [if_neg hi]
      exact if_neg hi
  have hn : im.disk.sNfree = im.sNfree := rfl
  have hs : im.disk.sFree = im.sFree := rfl
  have hne : ¬(im.sNfree - 1 ≤ 0 ∧ b = 0) := fun hall => by omega
  unfold getFreeBlock DataBlock.getFreeBlock
  simp only [hn, hs, ← hbdef, if_neg hne]
  by_cases hidx : im.sNfree - 1 < 0 ∨ im.sNfree - 1 ≥ 100
  · rw [if_pos hidx, if_pos hidx]
    rfl
  · rw [if_neg hidx, if_neg hidx]
    dsimp only
    rw [disk_cleanBlock _ hb hlt]
    by_cases h0 : im.sNfree - 1 ≤ 0
    · rw [if_pos h0, if_pos h0, hload]
      rfl
    · rw [if_neg h0, if_neg h0]
      rfl

/-- **`GetFreeBlock` takes the first free block**, where the groups can be read. -/
theorem getFreeBlock_succ (h : Grouped im.blk e (m + 1) im.sNfree im.sFree) (hm : m + 1 < e)
    (hlt : m + 1 < 100 ∨ e < 2 ^ 22 + 100) :
    ∃ im' : Image, im.getFreeBlock = (some (e - (m + 1 : ℕ) : ℤ), im') ∧
      Grouped im'.blk e m im'.sNfree im'.sFree := by
  have hn := h.nfree_eq
  have htop := h.top
  have hidx : (im.sNfree - 1).toNat = (m + 1) % 100 := by omega
  unfold getFreeBlock
  dsimp only
  rw [if_neg (by omega), hidx, htop, if_neg (by omega)]
  refine ⟨_, rfl, ?_⟩
  have hclean : ∀ im : Image, ∀ c : ℤ, e - m ≤ c → c < 2 ^ 22 →
      (im.cleanBlock (e - (m + 1 : ℕ))).blk c = im.blk c := fun im c hc hlt =>
    blk_cleanBlock im (by omega) (by omega) hlt
  by_cases h0 : (m + 1) % 100 = 0
  · rw [if_pos (by omega)]
    obtain ⟨hblk, hnfree, hfree⟩ :=
      loadGroup_spec { im with sNfree := im.sNfree - 1 } (b := e - (m + 1 : ℕ)) (by omega)
        (by omega)
    refine Grouped.frame ?_ (hclean _)
    change Grouped _ e m (loadGroup _ _).sNfree (loadGroup _ _).sFree
    rw [hblk, hnfree]
    exact h.load h0 (by omega) hfree
  · rw [if_neg (by omega)]
    exact (h.pop h0).frame (hclean _)

/-- The builder takes the blocks of the zone in order. -/
theorem getFreeBlocks_spec {k : ℕ} (h : Grouped im.blk e (m + k) im.sNfree im.sFree)
    (hm : m + k < e) (hlt : m + k < 100 ∨ e < 2 ^ 22 + 100) :
    ∃ (taken : List ℤ) (im' : Image), im.getFreeBlocks k = some (taken, im') ∧
      Grouped im'.blk e m im'.sNfree im'.sFree ∧
      ∀ b : ℤ, b ∈ taken ↔ (e - (m + k : ℕ) : ℤ) ≤ b ∧ b < e - m := by
  induction k generalizing im with
  | zero => exact ⟨[], im, rfl, h, by simp⟩
  | succ k ih =>
    obtain ⟨im₁, hget, h₁⟩ := getFreeBlock_succ h hm hlt
    obtain ⟨taken, im', htake, h', hmem⟩ := ih h₁ (by omega) (by omega)
    refine ⟨(e - (m + k + 1 : ℕ) : ℤ) :: taken, im', ?_, h', ?_⟩
    · rw [getFreeBlocks, hget]
      dsimp only
      rw [htake]
      rfl
    · intro b
      rw [List.mem_cons, hmem]
      omega

end Image

/-! ### The kernel -/

/-- The kernel has a super block with `m` free blocks below `e`. -/
structure Ready (e m : ℕ) (s : FsState) : Prop where
  unlocked : s.sb.sFlock = 0
  ninode_le : s.sb.sNinode ≤ 100
  grouped : Grouped s.blk e m s.sb.sNfree s.sb.sFree

namespace Ready

variable {e m : ℕ} {s : FsState}

/-- What `Alloc` does while there are free blocks. -/
theorem alloc_eq (h : Ready e (m + 1) s) (hm : m + 1 < e) :
    alloc s = .ok (some (e - (m + 1 : ℕ) : ℤ),
      { s with sb := (if (m + 1) % 100 = 0 then
          loadGroup (s.sb.setNfree ((m + 1) % 100 : ℕ)) (s.blk (e - (m + 1 : ℕ)))
        else s.sb.setNfree ((m + 1) % 100 : ℕ)).setFmod }) := by
  have hn := h.grouped.nfree_eq
  have htop := h.grouped.top
  rw [alloc_of_unlocked h.unlocked h.ninode_le hn (by omega), htop, if_neg (by omega)]

/-- **`Alloc` hands out the first free block**, where the group in it can be read. -/
theorem alloc_succ (h : Ready e (m + 1) s) (hm : m + 1 < e)
    (hlt : (m + 1) % 100 = 0 → (e - (m + 1 : ℕ) : ℤ) < 2 ^ 22) :
    ∃ s', alloc s = .ok (some (e - (m + 1 : ℕ) : ℤ), s') ∧ s'.blk = s.blk ∧ Ready e m s' := by
  have hn := h.grouped.nfree_eq
  refine ⟨_, h.alloc_eq hm, rfl, ?_⟩
  by_cases h0 : (m + 1) % 100 = 0
  · rw [if_pos h0]
    refine ⟨rfl, h.ninode_le, ?_⟩
    exact h.grouped.load h0 (hlt h0) fun i hi => sFree_loadGroup _ _ hi
  · rw [if_neg h0]
    refine ⟨h.unlocked, h.ninode_le, ?_⟩
    have hpop := h.grouped.pop h0
    have hsub : s.sb.sNfree - 1 = ((m + 1) % 100 : ℕ) := by omega
    rwa [hsub] at hpop

/-- **There is no block left.** -/
theorem alloc_zero (h : Ready e 0 s) :
    ∃ s', alloc s = .ok (none, s') ∧ s'.uError = .ENOSPC := by
  have h0 : s.sb.sFree 0 = 0 := h.grouped.free_eq 0 (Nat.le_refl _)
  have hn : s.sb.sNfree = (0 + 1 : ℕ) := h.grouped.nfree_eq
  have halloc := alloc_of_unlocked h.unlocked h.ninode_le hn (by omega)
  rw [if_pos h0] at halloc
  exact ⟨_, halloc, rfl⟩

end Ready

/-- `Alloc` called again and again hands out the blocks of the list, then reports that there is no
space. -/
def HandsOut : FsState → List ℤ → Prop
  | s, [] => ∃ s', alloc s = .ok (none, s') ∧ s'.uError = .ENOSPC
  | s, b :: L => ∃ s', alloc s = .ok (some b, s') ∧ HandsOut s' L

theorem handsOut_of_ready {e m : ℕ} {s : FsState} (h : Ready e m s) (hm : m < e)
    (hlt : m < 100 ∨ e < 2 ^ 22 + 100) :
    ∃ L, HandsOut s L ∧ L.Nodup ∧ ∀ b : ℤ, b ∈ L ↔ (e - m : ℤ) ≤ b ∧ b < e := by
  induction m generalizing s with
  | zero => exact ⟨[], h.alloc_zero, List.nodup_nil, by simp⟩
  | succ m ih =>
    obtain ⟨s', halloc, -, h'⟩ := h.alloc_succ hm (by omega)
    obtain ⟨L, hout, hnodup, hmem⟩ := ih h' (by omega) (by omega)
    refine ⟨_ :: L, ⟨s', halloc, hout⟩, List.nodup_cons.mpr ⟨?_, hnodup⟩, ?_⟩
    · rw [hmem]
      omega
    · intro b
      rw [List.mem_cons, hmem]
      omega

/-- A list handed out starts with what `Alloc` returns. -/
theorem HandsOut.cons_of_alloc {s s' : FsState} {b : ℤ} {L : List ℤ} (h : HandsOut s L)
    (halloc : alloc s = .ok (some b, s')) : ∃ L', L = b :: L' ∧ HandsOut s' L' := by
  cases L with
  | nil =>
    obtain ⟨s₁, hnone, -⟩ := h
    rw [halloc] at hnone
    simp at hnone
  | cons c L =>
    obtain ⟨s₁, hsome, hout⟩ := h
    rw [halloc] at hsome
    simp only [Except.ok.injEq, Prod.mk.injEq, Option.some.injEq] at hsome
    obtain ⟨rfl, rfl⟩ := hsome
    exact ⟨L, rfl, hout⟩

/-! ### Blocks that an `int` position does not reach -/

/-- Where the file ends up, by the block `g` of the last group. -/
def Reached (g pos : ℕ) : Prop :=
  (g % 2 ^ 23 < 2 ^ 22 ∧ pos ≤ 512 * (g % 2 ^ 23) + 404) ∨
    (2 ^ 22 ≤ g % 2 ^ 23 ∧ 100 * pos ≤ 404 * (2 ^ 23 - g % 2 ^ 23) + 5200000)

/-- Nothing is written from the byte `2 ^ 31` on. -/
structure Untouched (im : Image) (g : ℕ) : Prop where
  bytes_eq : ∀ p ≥ 2 ^ 31, im.diskFile.bytes p = 0
  reached : Reached g im.diskFile.pos

namespace Untouched

variable {im : Image} {e g m : ℕ}

theorem storeGroup (h : Untouched im g) (hg : 100 ≤ g) (hn : im.sNfree = 100) :
    Untouched (im.storeGroup (g - 100 : ℕ)) (g - 100) := by
  set f := im.diskFile.seekFilePosition (convertPosition (g - 100 : ℕ) 0) with hf
  have hreach := h.reached
  have hfile : (im.storeGroup (g - 100 : ℕ)).diskFile =
      (f.writeInt im.sNfree).writeInts im.sFree 100 := by
    rw [Image.storeGroup, ← hf, hn]
    rfl
  -- the position is the product modulo `2 ^ 32`, or the old one
  have hpos : Reached (g - 100) (f.pos + 404) ∧ f.pos + 404 ≤ 2 ^ 31 := by
    unfold Reached at hreach ⊢
    rw [hf, RWFiles.seekFilePosition, convertPosition, int32_eq]
    split
    · omega
    · dsimp only
      omega
  refine ⟨?_, ?_⟩
  · intro p hp
    have hpos₁ : (f.writeInt im.sNfree).pos = f.pos + 4 := rfl
    rw [hfile, bytes_writeInts_of_outside (by omega), bytes_writeInt_of_outside (by omega), hf,
      Image.bytes_seekFilePosition]
    exact h.bytes_eq p hp
  · rw [hfile, pos_writeInts]
    exact hpos.1

theorem initTurn (h : Untouched im (e - 100 * (m / 100))) (hm : m < e)
    (hn : im.sNfree = (m % 100 + 1 : ℕ)) :
    Untouched (im.initTurn (e - (m + 1 : ℕ))) (e - 100 * ((m + 1) / 100)) := by
  unfold Image.initTurn
  by_cases hfull : (m + 1) % 100 = 0
  · rw [if_pos (by omega)]
    have hstore := h.storeGroup (by omega) (by omega)
    have hb : ((e - 100 * (m / 100) - 100 : ℕ) : ℤ) = e - (m + 1 : ℕ) := by omega
    have hg : e - 100 * (m / 100) - 100 = e - 100 * ((m + 1) / 100) := by omega
    rw [hb, hg] at hstore
    exact ⟨hstore.bytes_eq, hstore.reached⟩
  · have hdiv : (m + 1) / 100 = m / 100 := by omega
    rw [if_neg (by omega), hdiv]
    exact ⟨h.bytes_eq, h.reached⟩

theorem initTurns {start num : ℕ} (h : ∀ p ≥ 2 ^ 31, im.diskFile.bytes p = 0)
    (he : start + num ≤ 2 ^ 31) (hm : m ≤ num) :
    Untouched (im.openGroup.initTurns start num m) (start + num - 100 * (m / 100)) := by
  induction m with
  | zero =>
    refine ⟨h, ?_⟩
    change Reached _ 0
    unfold Reached
    omega
  | succ m ih =>
    have hb : (num - 1 - m + start : ℤ) = (start + num : ℕ) - (m + 1 : ℕ) := by omega
    have hn := (Image.grouped_initTurns im he (m := m) (by omega)).nfree_eq
    rw [Image.initTurns, hb]
    exact (ih (by omega)).initTurn (by omega) hn

end Untouched

/-- A group of which nothing was written leaves an empty stack, which `Alloc` does not survive. -/
theorem alloc_of_nfree_zero {s : FsState} (hf : s.sb.sFlock = 0) (hi : s.sb.sNinode ≤ 100)
    (hn : s.sb.sNfree = 0) : alloc s = .error .outside := by
  have hget : getFS s.sb = s.sb := if_neg (by omega)
  unfold alloc
  simp [hget, hf, hn, readAt]

/-- The kernel does not get past the group in the block `e - 100 * j`. -/
theorem not_handsOut {e j m : ℕ} {s : FsState} {L : List ℤ} (h : Ready e m s) (hm : m < e)
    (hj : 1 ≤ j) (hjm : 100 * j ≤ m)
    (hlt : ∀ i : ℕ, j < i → 100 * i ≤ m → (e - 100 * i : ℤ) < 2 ^ 22)
    (hzero : getInt (s.blk (e - 100 * j)) 0 = 0) : ¬ HandsOut s L := by
  induction m generalizing s L with
  | zero => omega
  | succ m ih =>
    intro hout
    rcases Nat.eq_or_lt_of_le hjm with heq | hgt
    · -- the block with the group is handed out
      have hb : (e - (m + 1 : ℕ) : ℤ) = e - 100 * j := by omega
      obtain ⟨L', rfl, hout'⟩ := hout.cons_of_alloc (h.alloc_eq hm)
      rw [if_pos (by omega), hb] at hout'
      have herr := alloc_of_nfree_zero
        (s := { s with sb := (loadGroup (s.sb.setNfree ((m + 1) % 100 : ℕ))
          (s.blk (e - 100 * j))).setFmod }) rfl h.ninode_le hzero
      cases L' with
      | nil =>
        obtain ⟨s', halloc, -⟩ := hout'
        rw [herr] at halloc
        cases halloc
      | cons b L' =>
        obtain ⟨s', halloc, -⟩ := hout'
        rw [herr] at halloc
        cases halloc
    · have hnext : (m + 1) % 100 = 0 → (e - (m + 1 : ℕ) : ℤ) < 2 ^ 22 := by
        intro h0
        have := hlt ((m + 1) / 100) (by omega) (by omega)
        omega
      obtain ⟨s', halloc, hblk, h'⟩ := h.alloc_succ hm hnext
      obtain ⟨L', rfl, hout'⟩ := hout.cons_of_alloc halloc
      refine ih h' (by omega) (by omega) (fun i hi him => hlt i hi (by omega)) ?_ hout'
      rw [hblk]
      exact hzero

/-! ### The zones of an image -/

/-- A data zone; the numbers of its blocks are of type `int`. -/
structure DataZone where
  start : ℕ
  num : ℕ
  start_pos : 0 < start
  num_pos : 0 < num
  end_le : start + num ≤ 2 ^ 31

/-- Once the builder has taken `k` blocks, the kernel hands out the others, each once, and then
reports that there is no space. -/
def Agrees (z : DataZone) : Prop :=
  ∀ (im : Image) (k : ℕ), k ≤ z.num →
    ∃ (taken : List ℤ) (im' : Image),
      (im.initDataBlock z.start z.num).getFreeBlocks k = some (taken, im') ∧
      ∀ s, im'.Loaded s → ∃ L, HandsOut s L ∧ L.Nodup ∧
        ∀ b : ℤ, b ∈ L ↔ (z.start ≤ b ∧ b < z.start + z.num) ∧ b ∉ taken

/-- The state of the kernel after loading the super block. -/
theorem Image.Loaded.ready {im : Image} {s : FsState} {e m : ℕ} (h : im.Loaded s)
    (hg : Grouped im.blk e m im.sNfree im.sFree) : Ready e m s := by
  refine ⟨h.unlocked, h.ninode_le, ?_⟩
  rw [h.blk_eq, h.sNfree_eq]
  refine ⟨hg.nfree_eq, fun i hi => ?_, hg.count_eq, hg.group_eq⟩
  rw [h.sFree_eq i (by omega), hg.free_eq i hi]

theorem agrees_of_lt {z : DataZone} (hlt : z.num < 100 ∨ z.start + z.num < 2 ^ 22 + 100) :
    Agrees z := by
  intro im k hk
  have hstart := z.start_pos
  have hinit := Image.grouped_initTurns im z.end_le (Nat.le_refl _)
  obtain ⟨m, hm⟩ : ∃ m, z.num = m + k := ⟨z.num - k, by omega⟩
  have hinit' : Grouped (im.initDataBlock z.start z.num).blk (z.start + z.num) (m + k)
      (im.initDataBlock z.start z.num).sNfree (im.initDataBlock z.start z.num).sFree := by
    rw [← hm]
    exact hinit
  obtain ⟨taken, im', htake, h', hmem⟩ := Image.getFreeBlocks_spec hinit' (by omega) (by omega)
  refine ⟨taken, im', htake, fun s hs => ?_⟩
  obtain ⟨L, hout, hnodup, hL⟩ := handsOut_of_ready (hs.ready h') (by omega) (by omega)
  refine ⟨L, hout, hnodup, fun b => ?_⟩
  rw [hL, hmem]
  omega

/-- The image of which nothing is written. -/
def blankImage : Image where
  sNfree := 0
  sFree := fun _ => 0
  diskFile := ⟨fun _ => 0, 0⟩

/-- The kernel's state with the super block of an image. -/
def Image.fs (im : Image) : FsState where
  sb :=
    { sNfree := im.sNfree, sFree := im.sFree, sNinode := 0, sInode := fun _ => 0, sFlock := 0,
      sIlock := 0, sFmod := 0, sRonly := 0 }
  blk := im.blk
  uError := .NOERROR
  rablock := 0

theorem Image.loaded_fs (im : Image) : im.Loaded im.fs :=
  ⟨rfl, rfl, fun _ _ => rfl, rfl, (by decide : (0 : ℤ) ≤ 100)⟩

theorem not_agrees {z : DataZone} (h100 : 100 ≤ z.num) (hlt : 2 ^ 22 + 100 ≤ z.start + z.num) :
    ¬ Agrees z := by
  intro h
  have hstart := z.start_pos
  obtain ⟨taken, im', htake, hout⟩ := h blankImage 0 (Nat.zero_le _)
  obtain ⟨rfl, rfl⟩ : [] = taken ∧ blankImage.initDataBlock z.start z.num = im' := by
    simpa [Image.getFreeBlocks] using htake
  obtain ⟨L, hhand, -⟩ := hout _ (Image.loaded_fs _)
  have hinit := Image.grouped_initTurns blankImage z.end_le (Nat.le_refl _)
  have hblank : ∀ p ≥ 2 ^ 31, blankImage.diskFile.bytes p = 0 := fun _ _ => rfl
  have hun := Untouched.initTurns hblank z.end_le (Nat.le_refl _)
  -- the last group from `2 ^ 22` on
  obtain ⟨j, hj, hjm, hjge, hlast⟩ : ∃ j : ℕ, 1 ≤ j ∧ 100 * j ≤ z.num ∧
      2 ^ 22 ≤ z.start + z.num - 100 * j ∧
      ∀ i : ℕ, j < i → 100 * i ≤ z.num → ((z.start + z.num : ℕ) - 100 * i : ℤ) < 2 ^ 22 := by
    refine ⟨min (z.num / 100) ((z.start + z.num - 2 ^ 22) / 100), ?_, ?_, ?_, ?_⟩
    · omega
    · omega
    · omega
    · intro i hi him
      omega
  refine not_handsOut (((Image.loaded_fs _).ready hinit)) (by omega) hj hjm hlast ?_ hhand
  change getInt ((blankImage.initDataBlock z.start z.num).blk _) 0 = 0
  have hbytes : (fun o => (blankImage.initDataBlock z.start z.num).diskFile.bytes
      (512 * ((z.start + z.num : ℕ) - 100 * j : ℤ).toNat + o)) = fun _ => 0 := by
    funext o
    exact hun.bytes_eq _ (by omega)
  rw [Image.getInt_blk _ _ (by omega), hbytes, getInt_zero]

/-- **The two programs agree on exactly the zones whose highest group of 100 is stored in a block
below `2 ^ 22`**, or that have no such group. -/
theorem agrees_iff (z : DataZone) :
    Agrees z ↔ z.num < 100 ∨ z.start + z.num - 100 < 2 ^ 22 := by
  refine ⟨fun h => ?_, fun h => agrees_of_lt (by omega)⟩
  by_contra hnot
  exact not_agrees (by omega) (by omega) h

/-- The zone of an image with `10000 * 16 * 63` sectors, whose length is a positive `int`. -/
def largeZone : DataZone := ⟨1024, 10076816, by decide, by decide, by decide⟩

/-- **The kernel does not hand out all the blocks of the zone.** -/
theorem not_agrees_largeZone : ¬ Agrees largeZone :=
  not_agrees (by decide) (by decide)

end Build
end UnixV6pp
