import Mathlib.Data.List.GetD
import UnixV6pp.Build.DirItem
import UnixV6pp.Build.ReadBack

/-!
# The items in the image

## Main definitions

* `dirFile` — the items one after the other.
* `HoldsItems` — the directory in the image holds the items.

## Main results

* `fetchFreeInode_spec` — **no number is that of the root.**
* `writeStream_spec` — writing changes these bytes of the file alone.
* `HoldsItems.search` — what the builder finds in the directory.
* `Built.holds` — **the items are in the image**, whatever is stored in between.
-/

namespace UnixV6pp
namespace Build

open Words FileSystem Inode Build.File
open FileManager (slash)

/-! ### Numbers of inodes -/

namespace InodeBlock

/-- The root keeps its inode, and the other numbers are positive. -/
structure Rooted (s : InodeBlock) : Prop where
  root : s.iMode 0 ≠ 0
  sIsize_lt : s.sIsize < 2 ^ 28
  bounds : ∀ i < s.sNinode, 0 < s.sInode i ∧ s.sInode i < 2 ^ 31

variable {s s' : InodeBlock} {no : ℤ} {mode : UInt32}

theorem Rooted.push (h : s.Rooted) (hpos : 0 < no) (hlt : no < 2 ^ 31) : (s.push no).Rooted := by
  refine ⟨h.root, h.sIsize_lt, fun i hi => ?_⟩
  change i < s.sNinode + 1 at hi
  change 0 < Function.update s.sInode s.sNinode no i ∧
    Function.update s.sInode s.sNinode no i < 2 ^ 31
  by_cases hlast : i = s.sNinode
  · rw [hlast, Function.update_self]
    exact ⟨hpos, hlt⟩
  · rw [Function.update_of_ne hlast]
    exact h.bounds i (by omega)

theorem Rooted.refill {n : ℕ} (h : s.Rooted) (hn : n ≤ 2 ^ 31) : (refill n s).Rooted := by
  induction n generalizing s with
  | zero => exact h
  | succ i ih =>
    unfold InodeBlock.refill
    split
    · refine ih ?_ (by omega)
      split
      next hfree =>
        -- the inode of the root is not free
        have hi : i ≠ 0 := by
          rintro rfl
          exact h.root hfree
        exact h.push (by omega) (by omega)
      next => exact h
    · exact h

/-- **A number that is handed out** is positive. -/
theorem fetchFreeInode_spec (h : s.Rooted) (hfetch : s.fetchFreeInode = some (no, s')) :
    0 < no ∧ no < 2 ^ 31 ∧ s'.Rooted := by
  set s₁ := if s.sNinode = 0 then InodeBlock.refill (s.sIsize * (512 / 64)) s else s with hs₁
  have h₁ : s₁.Rooted := by
    rw [hs₁]
    split
    · exact h.refill (by have := h.sIsize_lt; omega)
    · exact h
  unfold fetchFreeInode at hfetch
  rw [← hs₁] at hfetch
  dsimp only at hfetch
  split at hfetch
  · cases hfetch
  · cases hfetch
    obtain ⟨hpos, hlt⟩ := h₁.bounds (s₁.sNinode - 1) (by omega)
    refine ⟨hpos, hlt, h₁.root, h₁.sIsize_lt, fun i hi => h₁.bounds i ?_⟩
    change i < s₁.sNinode - 1 at hi
    omega

theorem Rooted.updateInodeToDisk (h : s.Rooted) (hmode : mode ≠ 0) :
    (s.updateInodeToDisk no mode).Rooted := by
  refine ⟨?_, h.sIsize_lt, h.bounds⟩
  change Function.update s.iMode no mode 0 ≠ 0
  by_cases hno : (0 : ℤ) = no
  · rw [← hno, Function.update_self]
    exact hmode
  · rw [Function.update_of_ne hno]
    exact h.root

/-- The root is created first. -/
theorem rooted_createRoot {sIsize : ℕ} (hmany : 100 ≤ sIsize * (512 / 64)) (hlt : sIsize < 2 ^ 28)
    (hroot : DirFile.createRoot (.initInodeManager sIsize) = some s) : s.Rooted := by
  have hmode : DirFile.mode ≠ 0 := by decide
  cases hroot
  refine ⟨?_, hlt, fun i hi => ?_⟩
  · change Function.update (fun _ : ℤ => (0 : UInt32)) 0 DirFile.mode 0 ≠ 0
    rw [Function.update_self]
    exact hmode
  · change i < 99 at hi
    change 0 < (if i < 99 then (sIsize * (512 / 64) - 1 - i : ℤ) else 0) ∧
      (if i < 99 then (sIsize * (512 / 64) - 1 - i : ℤ) else 0) < 2 ^ 31
    rw [if_pos hi]
    omega

end InodeBlock

/-! ### Writing to a file -/

section Write

variable {ι : Type} [DecidableEq ι] {addr : ι → ℕ → ℤ} {d d' : Disk} {inode inode' : InodeStr}
  {i : ι} {L : List ℤ} {lbn itemNum count : ℕ} {cin : ℕ → UInt8}

/-- `BMap` has no block behind the largest file. -/
theorem bmap_eq_none (h : 33030 ≤ lbn) : Directary.bmap d inode lbn = none := by
  unfold Directary.bmap
  rw [if_neg (by omega)]
  dsimp only
  rw [if_pos (by rw [if_neg (by omega)]; omega)]

omit [DecidableEq ι] in
/-- **A block that is there** is found without a change. -/
theorem bmap_of_block (haddr : inode.iAddr = addr i) (hlbn : lbn < 33030)
    (hne : (⟨d.blk, addr⟩ : View ι).block i lbn ≠ 0) :
    Directary.bmap d inode lbn = some ((⟨d.blk, addr⟩ : View ι).block i lbn, inode, d) := by
  unfold View.block at hne ⊢
  unfold Directary.bmap
  by_cases h6 : lbn < 6
  · have hpath : lbnPath lbn = (lbn, []) := if_pos h6
    rw [hpath] at hne ⊢
    have hroot : (⟨d.blk, addr⟩ : View ι).at (i, lbn) [] = inode.iAddr lbn := by rw [haddr]; rfl
    rw [hroot] at hne ⊢
    rw [if_pos h6, Directary.fillAddr, if_neg hne]
  rw [if_neg h6]
  by_cases h262 : lbn < 262
  · have hpath : lbnPath lbn = ((lbn - 6) / 128 + 6, [(lbn - 6) % 128]) := by
      rw [lbnPath, if_neg h6, if_pos h262]
    rw [hpath] at hne ⊢
    have htail := View.at_tail_ne hne
    have hroot : (⟨d.blk, addr⟩ : View ι).at (i, (lbn - 6) / 128 + 6) [] =
        inode.iAddr ((lbn - 6) / 128 + 6) := by rw [haddr]; rfl
    rw [View.at_cons htail, hroot] at hne ⊢
    rw [hroot] at htail
    simp only [if_pos h262, if_neg (show ¬(lbn - 6) / 128 + 6 ≥ 10 by omega),
      if_neg (show ¬(lbn - 6) / 128 + 6 ≥ 8 by omega), Directary.fillAddr, if_neg htail,
      Directary.fillEntry]
    rw [if_neg hne]
  · have hpath : lbnPath lbn = ((lbn - 262) / (128 * 128) + 8,
        [(lbn - 262) % 128, (lbn - 262) / 128 % 128]) := by
      rw [lbnPath, if_neg h6, if_neg h262]
    rw [hpath] at hne ⊢
    have hmid := View.at_tail_ne hne
    have htail := View.at_tail_ne hmid
    have hroot : (⟨d.blk, addr⟩ : View ι).at (i, (lbn - 262) / (128 * 128) + 8) [] =
        inode.iAddr ((lbn - 262) / (128 * 128) + 8) := by rw [haddr]; rfl
    rw [View.at_cons hmid] at hne ⊢
    rw [View.at_cons htail, hroot] at hne hmid ⊢
    rw [hroot] at htail
    simp only [if_neg h262, if_neg (show ¬(lbn - 262) / (128 * 128) + 8 ≥ 10 by omega),
      if_pos (show (lbn - 262) / (128 * 128) + 8 ≥ 8 by omega), Directary.fillAddr, if_neg htail,
      Directary.fillEntry, if_neg hmid]
    rw [if_neg hne]

/-- **What writing changes**: the block is there afterwards, no other is moved, and only these bytes
of the file are new. -/
theorem writeStream_spec (cin : ℕ → UInt8) (h : Sound d.fs addr L) (haddr : inode.iAddr = addr i)
    (hlbn : itemNum / 512 < 33030) (hcount : itemNum % 512 + count ≤ 512)
    (hL : missing ⟨d.blk, addr⟩ (i, (lbnPath (itemNum / 512)).1) (lbnPath (itemNum / 512)).2 ≤
      L.length) :
    ∃ inode' d' L', writeStream d inode cin itemNum count = some (inode', d') ∧
      inode' = { inode with iAddr := inode'.iAddr } ∧
      Sound d'.fs (Function.update addr i inode'.iAddr) L' ∧
      (⟨d'.blk, Function.update addr i inode'.iAddr⟩ : View ι).block i (itemNum / 512) ≠ 0 ∧
      (∀ j lbn, lbn < 33030 → (⟨d.blk, addr⟩ : View ι).block j lbn ≠ 0 →
        (⟨d'.blk, Function.update addr i inode'.iAddr⟩ : View ι).block j lbn =
          (⟨d.blk, addr⟩ : View ι).block j lbn) ∧
      ∀ j o, o < maxFileSize →
        (⟨d'.blk, Function.update addr i inode'.iAddr⟩ : View ι).byte j o =
          if j = i ∧ itemNum ≤ o ∧ o < itemNum + count then cin (o - itemNum)
          else (⟨d.blk, addr⟩ : View ι).byte j o := by
  obtain ⟨r, inode', d₁, hbmap, hsame, hsound, hat, hne, hext⟩ := bmap_spec h haddr hlbn hL
  set addr' := Function.update addr i inode'.iAddr with haddr'
  obtain ⟨hP, hlen⟩ := isPath_lbnPath hlbn
  have hne' : (⟨d₁.blk, addr'⟩ : View ι).at (i, (lbnPath (itemNum / 512)).1)
      (lbnPath (itemNum / 512)).2 ≠ 0 := hat.trans_ne hne
  set data : Block := fun o =>
    if itemNum % 512 ≤ o ∧ o < itemNum % 512 + count then cin (o - itemNum % 512)
    else d₁.blk r o with hdata
  obtain ⟨hsound', hat'⟩ := hsound.write hP hlen hne' hat.symm data
  refine ⟨inode', { d₁ with blk := Function.update d₁.blk r data }, _, ?_, hsame, hsound', ?_, ?_,
    ?_⟩
  · rw [writeStream, hbmap]
    rfl
  · exact (hat' _ _ hP).trans_ne hne'
  · intro j lbn hlt hmapped
    obtain ⟨hq, -⟩ := isPath_lbnPath hlt
    exact (hat' (j, (lbnPath lbn).1) _ hq).trans (hext.at_eq _ _ hq (.inl hmapped))
  · intro j o ho
    have hempty : Inode.empty.isDevice = false := by decide
    have hnumber : Inode.empty.iNumber < inodeCount := by decide
    have hinv : Inv (⟨d₁.fs, fun j => { Inode.empty with iAddr := addr' j }⟩ : Files ι) _ :=
      ⟨hsound, fun _ => hempty, fun _ => hnumber⟩
    have hbyte := hinv.write_byte (i := i) hlbn hne' data j ho
    have hkept : (⟨d₁.blk, addr'⟩ : View ι).byte j o = (⟨d.blk, addr⟩ : View ι).byte j o :=
      hext.byte_eq hlbn j ho
    subst hat
    refine Eq.trans hbyte ?_
    by_cases hthis : o / 512 = itemNum / 512 ∧ j = i
    · rw [if_pos hthis, hdata]
      dsimp only
      by_cases hin : itemNum % 512 ≤ o % 512 ∧ o % 512 < itemNum % 512 + count
      · rw [if_pos hin, if_pos ⟨hthis.2, by omega, by omega⟩]
        congr 1
        omega
      · rw [if_neg hin, if_neg fun hall => hin ⟨by omega, by omega⟩, ← hkept, View.byte]
        obtain ⟨hblock, rfl⟩ := hthis
        rw [hblock]
        exact (if_neg hne').symm
    · rw [if_neg hthis, if_neg fun hall => hthis ⟨by omega, hall.1⟩]
      exact hkept

end Write

/-! ### The items as a file -/

/-- The bytes of an item. -/
def itemByte (item : List UInt8 × ℤ) (k : ℕ) : UInt8 :=
  if k < 4 then byteOf item.2 k else fileName item.1 (k - 4)

/-- The bytes of the items, one after the other. -/
def dirBytes (items : List (List UInt8 × ℤ)) (o : ℕ) : UInt8 :=
  match items[o / 32]? with
  | some item => itemByte item (o % 32)
  | none => 0

/-- The items as a file. -/
def dirFile (items : List (List UInt8 × ℤ)) : FlatFile where
  size := 32 * items.length
  bytes := dirBytes items
  zero_of_le o ho := by
    rw [dirBytes, List.getElem?_eq_none (by omega)]

section Items

variable {items : List (List UInt8 × ℤ)} {item : List UInt8 × ℤ} {name name' : List UInt8} {k o : ℕ}

/-- A byte of the item `k`. -/
theorem dirBytes_item (hk : k < items.length) (ho : o < 32) :
    dirBytes items (32 * k + o) = itemByte items[k] o := by
  have hdiv : (32 * k + o) / 32 = k := by omega
  have hmod : (32 * k + o) % 32 = o := by omega
  rw [dirBytes, hdiv, hmod, List.getElem?_eq_getElem hk]

/-- One more item. -/
theorem dirBytes_append (ho : o < 32 * (items.length + 1)) :
    dirBytes (items ++ [item]) o = if 32 * items.length ≤ o ∧ o < 32 * items.length + 32 then
      itemByte item (o - 32 * items.length) else dirBytes items o := by
  by_cases hlast : 32 * items.length ≤ o
  · have hdiv : o / 32 = items.length := by omega
    have hmod : o % 32 = o - 32 * items.length := by omega
    rw [if_pos ⟨hlast, by omega⟩, dirBytes, hdiv, hmod, List.getElem?_concat_length]
  · rw [if_neg (by omega), dirBytes, dirBytes, List.getElem?_append_left (by omega)]

/-- The characters of a name are those in front of the first zero. -/
theorem fileName_ne (hname : Accepted name) (hk : k < name.length) : fileName name k ≠ 0 := by
  rw [fileName, List.getD_eq_getElem _ _ hk]
  exact (hname.chars _ (List.getElem_mem hk)).1

theorem fileName_eq_zero (hk : name.length ≤ k) : fileName name k = 0 :=
  List.getD_eq_default _ _ hk

/-- **Names are told apart** by 28 bytes. -/
theorem eq_of_fileName (hname : Accepted name) (hname' : Accepted name')
    (h : ∀ k < 28, fileName name k = fileName name' k) : name = name' := by
  have hlen := hname.length_le
  have hlen' := hname'.length_le
  have hle : name.length ≤ name'.length := by
    by_contra hlong
    have hbyte := h name'.length (by omega)
    rw [fileName_eq_zero (Nat.le_refl _)] at hbyte
    exact fileName_ne hname (by omega) hbyte
  have hge : name'.length ≤ name.length := by
    by_contra hlong
    have hbyte := h name.length (by omega)
    rw [fileName_eq_zero (Nat.le_refl _)] at hbyte
    exact fileName_ne hname' (by omega) hbyte.symm
  refine List.ext_getElem (by omega) fun k hk hk' => ?_
  have hbyte := h k (by omega)
  rwa [fileName, fileName, List.getD_eq_getElem _ _ hk, List.getD_eq_getElem _ _ hk'] at hbyte

end Items

/-! ### The directory in the image -/

/-- **The directory in the image holds the items.** -/
structure HoldsItems {ι : Type} (dir : ι) (items : List (List UInt8 × ℤ)) (s : Builder ι)
    (L : List ℤ) : Prop where
  sound : Sound s.disk.fs s.view.addr L
  mode_eq : (s.inodes dir).iMode = DirFile.mode
  size_eq : (s.inodes dir).iSize = (32 * items.length : ℕ)
  size_le : 32 * items.length ≤ maxFileSize
  mapped : ∀ lbn, 512 * lbn < 32 * items.length → s.view.block dir lbn ≠ 0
  byte_eq : ∀ o < 32 * items.length, s.view.byte dir o = dirBytes items o
  rooted : s.inodeBlock.Rooted
  accepted : ∀ item ∈ items, Accepted item.1
  number : ∀ item ∈ items, 0 < item.2 ∧ item.2 < 2 ^ 31
  nodup : (items.map Prod.fst).Nodup

section Search

variable {ι : Type} {dir : ι} {items : List (List UInt8 × ℤ)} {s : Builder ι} {L : List ℤ}
  {name : List UInt8} {k m o : ℕ}

/-- The block of the item `k`. -/
def Builder.itemBlock (s : Builder ι) (dir : ι) (k : ℕ) : Block :=
  s.disk.blk (s.view.block dir (32 * k / 512))

/-- The builder has come to the item `k`, and has seen none without a name. -/
def Builder.searchAt (s : Builder ι) (dir : ι) (k : ℕ) (buffer : Block) : Directary.ItemSearch :=
  ⟨s.inodes dir, s.disk, 32 * k, 0, false, buffer⟩

theorem HoldsItems.lbn_lt (h : HoldsItems dir items s L) (hk : k < items.length) :
    32 * k / 512 < 33030 := by
  have hle := h.size_le
  unfold maxFileSize at hle
  omega

/-- An item in its block. -/
theorem HoldsItems.blk_eq (h : HoldsItems dir items s L) (hk : k < items.length) (ho : o < 32) :
    s.itemBlock dir k (32 * k % 512 + o) = itemByte items[k] o := by
  have hdiv : (32 * k + o) / 512 = 32 * k / 512 := by omega
  have hmod : (32 * k + o) % 512 = 32 * k % 512 + o := by omega
  have hbyte := h.byte_eq (32 * k + o) (by omega)
  rw [View.byte, hdiv, hmod, if_neg (h.mapped _ (by omega)), dirBytes_item hk ho] at hbyte
  exact hbyte

/-- The block of an item is in the buffer. -/
theorem HoldsItems.load (h : HoldsItems dir items s L) (hk : k < items.length) {buffer : Block}
    (hbuf : 32 * k % 512 ≠ 0 → buffer = s.itemBlock dir k) :
    Directary.load (s.searchAt dir k buffer) = some (s.searchAt dir k (s.itemBlock dir k)) := by
  unfold Directary.load Builder.searchAt
  dsimp only
  by_cases hmod : 32 * k % 512 = 0
  · have hbmap := bmap_of_block (show (s.inodes dir).iAddr = s.view.addr dir from rfl)
      (h.lbn_lt hk) (h.mapped _ (by omega))
    rw [if_pos hmod, hbmap]
    rfl
  · rw [if_neg hmod, hbuf hmod]

/-- The item has the name if it is that name. -/
theorem HoldsItems.itemMatches (h : HoldsItems dir items s L) (hname : Accepted name)
    (hk : k < items.length) :
    Directary.itemMatches (fileName name) (s.searchAt dir k (s.itemBlock dir k)) =
      decide (items[k].1 = name) := by
  have hbyte : ∀ j < 28, s.itemBlock dir k (32 * k % 512 + j + 4) = fileName items[k].1 j := by
    intro j hj
    rw [Nat.add_assoc, h.blk_eq hk (by omega), itemByte, if_neg (by omega), Nat.add_sub_cancel]
  rw [Bool.eq_iff_iff, decide_eq_true_iff, Directary.itemMatches, List.all_eq_true]
  unfold Builder.searchAt
  dsimp only
  constructor
  · intro hall
    refine (eq_of_fileName hname (h.accepted _ (List.getElem_mem hk)) fun j hj => ?_).symm
    have hj' := hall j (List.mem_range.mpr hj)
    rw [beq_iff_eq, hbyte j hj] at hj'
    exact hj'
  · rintro rfl j hj
    rw [beq_iff_eq, hbyte j (List.mem_range.mp hj)]

/-- Another item is passed over; it has a name. -/
theorem HoldsItems.nextItem (h : HoldsItems dir items s L) (hk : k < items.length) :
    Directary.nextItem (s.searchAt dir k (s.itemBlock dir k)) =
      s.searchAt dir (k + 1) (s.itemBlock dir k) := by
  have hname := h.accepted _ (List.getElem_mem hk)
  have hbyte := h.blk_eq hk (show 4 < 32 by omega)
  have hfirst : itemByte items[k] 4 ≠ 0 :=
    fileName_ne (k := 0) hname (List.length_pos_of_ne_nil hname.ne_nil)
  exact if_neg fun hall => hfirst (hbyte.symm.trans hall.1)

/-- **What the builder finds**: whether one of the items has the name. -/
theorem HoldsItems.search (h : HoldsItems dir items s L) (hname : Accepted name)
    (hm : k + m = items.length) {buffer : Block}
    (hbuf : 32 * k % 512 ≠ 0 → buffer = s.itemBlock dir k) :
    ∃ k' buffer', Directary.search (fileName name) m (s.searchAt dir k buffer) =
      some (decide (name ∈ (items.drop k).map Prod.fst), s.searchAt dir k' buffer') := by
  induction m generalizing k buffer with
  | zero =>
    refine ⟨k, buffer, ?_⟩
    rw [List.drop_eq_nil_of_le (by omega)]
    rfl
  | succ m ih =>
    have hk : k < items.length := by omega
    rw [Directary.search, h.load hk hbuf, Option.bind_eq_bind, Option.bind_some,
      h.itemMatches hname hk, List.drop_eq_getElem_cons hk, List.map_cons]
    by_cases heq : items[k].1 = name
    · refine ⟨k, s.itemBlock dir k, ?_⟩
      rw [if_pos (by simpa using heq), decide_eq_true (List.mem_cons.mpr (.inl heq.symm))]
      rfl
    · have hnext : 32 * (k + 1) % 512 ≠ 0 → s.itemBlock dir k = s.itemBlock dir (k + 1) := by
        intro hmod
        have hdiv : 32 * (k + 1) / 512 = 32 * k / 512 := by omega
        rw [Builder.itemBlock, Builder.itemBlock, hdiv]
      obtain ⟨k', buffer', hrest⟩ := ih (k := k + 1) (by omega) hnext
      refine ⟨k', buffer', ?_⟩
      rw [if_neg (by simpa using heq), h.nextItem hk]
      refine hrest.trans ?_
      have hmem : name ∈ items[k].1 :: (items.drop (k + 1)).map Prod.fst ↔
          name ∈ (items.drop (k + 1)).map Prod.fst :=
        List.mem_cons.trans (or_iff_right fun heq' => heq heq'.symm)
      simp only [hmem]

/-- **Where the item of a new file goes.** -/
theorem HoldsItems.nameI (h : HoldsItems dir items s L) (hname : Accepted name) :
    Directary.nameI (fileName name) (s.inodes dir) s.disk =
      if name ∈ items.map Prod.fst then none
      else some (32 * items.length, s.inodes dir, s.disk) := by
  have hcount : ((s.inodes dir).iSize / 32).toNat = items.length := by
    rw [h.size_eq]
    omega
  have hbuf : 32 * 0 % 512 ≠ 0 → (fun _ => 0 : Block) = s.itemBlock dir 0 :=
    fun hmod => absurd rfl hmod
  obtain ⟨k', buffer', hsearch⟩ := h.search hname (m := items.length) (by omega) hbuf
  unfold Directary.nameI
  dsimp only
  rw [hcount]
  change (Directary.search (fileName name) items.length (s.searchAt dir 0 fun _ => 0) >>= _) = _
  rw [hsearch, Option.bind_eq_bind, Option.bind_some, List.drop_zero]
  by_cases hmem : name ∈ items.map Prod.fst
  · rw [if_pos hmem]
    exact if_pos (decide_eq_true hmem)
  · rw [if_neg hmem]
    refine (if_neg (by simpa using hmem)).trans ?_
    change some ((s.inodes dir).iSize.toNat, s.inodes dir, s.disk) = _
    rw [h.size_eq, Int.toNat_natCast]

end Search

/-! ### The steps of the builder -/

section Steps

variable {ι : Type} [DecidableEq ι] {dir i : ι} {items : List (List UInt8 × ℤ)} {s s' : Builder ι}
  {L : List ℤ} {name : List UInt8} {now number : ℤ} {mode : UInt32} {cin : ℕ → UInt8}
  {itemNum count : ℕ} {inodeBlock : InodeBlock}

theorem addr_update (inodes : ι → InodeStr) (i : ι) (inode : InodeStr) :
    (fun j => (Function.update inodes i inode j).iAddr) =
      Function.update (fun j => (inodes j).iAddr) i inode.iAddr :=
  Function.comp_update InodeStr.iAddr inodes i inode

/-- **The item of a new file** is put behind the others. -/
theorem HoldsItems.exists_createFile (h : HoldsItems dir items s L) (now : ℤ)
    (hname : Accepted name) (hmode : mode ≠ 0) (hnew : name ∉ items.map Prod.fst)
    (hfetch : s.inodeBlock.fetchFreeInode = some (number, inodeBlock))
    (hlbn : 32 * items.length / 512 < 33030) (hroom : s.Room dir (32 * items.length / 512)) :
    ∃ s' L', s.createFile now name mode dir = some (number, s') ∧
      HoldsItems dir (items ++ [(name, number)]) s' L' := by
  obtain ⟨hpos, hlt, hrooted⟩ := InodeBlock.fetchFreeInode_spec h.rooted hfetch
  set cin : ℕ → UInt8 := fun k => if k < 4 then byteOf number k else fileName name (k - 4) with hcin
  obtain ⟨inode', d', L', hwrite, hsame, hsound, hlast, hkept, hbyte⟩ :=
    writeStream_spec cin (i := dir) h.sound rfl hlbn
      (show 32 * items.length % 512 + 32 ≤ 512 by omega) (hroom L h.sound.freeList)
  set s' : Builder ι := ⟨d', inodeBlock.updateInodeToDisk number mode,
    Function.update s.inodes dir (updateFatherDirInode now inode')⟩ with hs'
  have haddr : s'.view = ⟨d'.blk, Function.update s.view.addr dir inode'.iAddr⟩ :=
    congrArg (View.mk d'.blk) (addr_update s.inodes dir (updateFatherDirInode now inode'))
  have hinode : s'.inodes dir = updateFatherDirInode now inode' := Function.update_self ..
  have hlength : (items ++ [(name, number)]).length = items.length + 1 := List.length_append
  have hbound : maxFileSize = 33030 * 512 := rfl
  refine ⟨s', L', ?_, ?_⟩
  · unfold Builder.createFile
    rw [h.nameI hname, if_neg hnew, Option.bind_eq_bind, Option.bind_some, hfetch]
    change (writeStream s.disk (s.inodes dir) cin (32 * items.length) 32 >>= _) = _
    rw [hwrite]
    rfl
  · refine ⟨?_, ?_, ?_, ?_, ?_, ?_, ?_, ?_, ?_, ?_⟩
    · rw [haddr]
      exact hsound
    · rw [hinode]
      change inode'.iMode = _
      rw [hsame]
      exact h.mode_eq
    · rw [hinode]
      change inode'.iSize + 32 = _
      rw [hsame, hlength]
      change (s.inodes dir).iSize + 32 = _
      rw [h.size_eq]
      omega
    · rw [hlength]
      omega
    · intro lbn hlt'
      rw [hlength] at hlt'
      rw [haddr]
      by_cases hold : 512 * lbn < 32 * items.length
      · have hne := h.mapped lbn hold
        exact (hkept dir lbn (by omega) hne).trans_ne hne
      · have hthis : lbn = 32 * items.length / 512 := by omega
        rw [hthis]
        exact hlast
    · intro o ho
      rw [hlength] at ho
      rw [haddr, dirBytes_append ho, hbyte dir o (by omega)]
      by_cases hold : 32 * items.length ≤ o ∧ o < 32 * items.length + 32
      · rw [if_pos ⟨rfl, hold⟩, if_pos hold]
        rfl
      · rw [if_neg fun hall => hold hall.2, if_neg hold]
        exact h.byte_eq o (by omega)
    · exact hrooted.updateInodeToDisk hmode
    · intro item hitem
      rcases List.mem_append.mp hitem with hitem | hitem
      · exact h.accepted item hitem
      · rw [List.mem_singleton.mp hitem]
        exact hname
    · intro item hitem
      rcases List.mem_append.mp hitem with hitem | hitem
      · exact h.number item hitem
      · rw [List.mem_singleton.mp hitem]
        exact ⟨hpos, hlt⟩
    · rw [List.map_append]
      exact h.nodup.append (List.nodup_singleton name) (List.disjoint_singleton.mpr hnew)

/-- A file that gets its item has a new name, a free inode and a block for the item. -/
theorem HoldsItems.of_createFile (h : HoldsItems dir items s L) (hname : Accepted name)
    (hcreate : s.createFile now name mode dir = some (number, s')) :
    name ∉ items.map Prod.fst ∧
      (∃ inodeBlock, s.inodeBlock.fetchFreeInode = some (number, inodeBlock)) ∧
      32 * items.length / 512 < 33030 := by
  unfold Builder.createFile at hcreate
  rw [h.nameI hname] at hcreate
  by_cases hnew : name ∈ items.map Prod.fst
  · rw [if_pos hnew] at hcreate
    cases hcreate
  · rw [if_neg hnew, Option.bind_eq_bind, Option.bind_some] at hcreate
    obtain ⟨⟨no, inodeBlock⟩, hfetch, hcreate⟩ := Option.bind_eq_some_iff.mp hcreate
    obtain ⟨⟨inode', d'⟩, hwrite, hcreate⟩ := Option.bind_eq_some_iff.mp hcreate
    cases hcreate
    refine ⟨hnew, ⟨inodeBlock, hfetch⟩, ?_⟩
    by_contra hlong
    unfold writeDirItem writeStream at hwrite
    rw [bmap_eq_none (by omega)] at hwrite
    cases hwrite

theorem HoldsItems.createFile (h : HoldsItems dir items s L) (hname : Accepted name)
    (hmode : mode ≠ 0) (hcreate : s.createFile now name mode dir = some (number, s'))
    (hroom : s.Room dir ((s.inodes dir).iSize.toNat / 512)) :
    ∃ L', HoldsItems dir (items ++ [(name, number)]) s' L' := by
  obtain ⟨hnew, ⟨inodeBlock, hfetch⟩, hlbn⟩ := h.of_createFile hname hcreate
  have hsize : (s.inodes dir).iSize.toNat = 32 * items.length := by
    rw [h.size_eq, Int.toNat_natCast]
  rw [hsize] at hroom
  obtain ⟨s'', L', hcreate', h'⟩ :=
    h.exists_createFile now hname hmode hnew hfetch hlbn hroom
  cases hcreate.symm.trans hcreate'
  exact ⟨L', h'⟩

/-- **Writing to another file** leaves the items alone. -/
theorem HoldsItems.writeFile (h : HoldsItems dir items s L) (hi : i ≠ dir)
    (hcount : itemNum % 512 + count ≤ 512) (hwrite : s.writeFile i cin itemNum count = some s')
    (hroom : s.Room i (itemNum / 512)) : ∃ L', HoldsItems dir items s' L' := by
  unfold Builder.writeFile at hwrite
  obtain ⟨⟨inode', d'⟩, hstream, hwrite⟩ := Option.bind_eq_some_iff.mp hwrite
  cases hwrite
  have hlbn : itemNum / 512 < 33030 := by
    by_contra hlong
    unfold writeStream at hstream
    rw [bmap_eq_none (by omega)] at hstream
    cases hstream
  obtain ⟨inode'', d'', L', hstream', -, hsound, -, hkept, hbyte⟩ :=
    writeStream_spec cin (i := i) h.sound rfl hlbn hcount (hroom L h.sound.freeList)
  cases hstream.symm.trans hstream'
  have haddr : Builder.view ⟨d', s.inodeBlock, Function.update s.inodes i inode'⟩ =
      ⟨d'.blk, Function.update s.view.addr i inode'.iAddr⟩ :=
    congrArg (View.mk d'.blk) (addr_update s.inodes i inode')
  have hinode : Function.update s.inodes i inode' dir = s.inodes dir :=
    Function.update_of_ne hi.symm ..
  have hle := h.size_le
  have hbound : maxFileSize = 33030 * 512 := rfl
  refine ⟨L', ?_, ?_, ?_, hle, ?_, ?_, h.rooted, h.accepted, h.number, h.nodup⟩
  · rw [haddr]
    exact hsound
  · exact (congrArg InodeStr.iMode hinode).trans h.mode_eq
  · exact (congrArg InodeStr.iSize hinode).trans h.size_eq
  · intro lbn hlt
    have hne := h.mapped lbn hlt
    rw [haddr]
    exact (hkept dir lbn (by omega) hne).trans_ne hne
  · intro o ho
    rw [haddr, hbyte dir o (by omega), if_neg fun hall => hi hall.1.symm]
    exact h.byte_eq o ho

omit [DecidableEq ι] in
theorem HoldsItems.takeInode (h : HoldsItems dir items s L) (hmode : mode ≠ 0)
    (htake : s.takeInode mode = some s') : HoldsItems dir items s' L := by
  unfold Builder.takeInode at htake
  obtain ⟨⟨no, inodeBlock⟩, hfetch, htake⟩ := Option.bind_eq_some_iff.mp htake
  cases htake
  obtain ⟨-, -, hrooted⟩ := InodeBlock.fetchFreeInode_spec h.rooted hfetch
  exact { h with rooted := hrooted.updateInodeToDisk hmode }

omit [DecidableEq ι] in
/-- Nothing is stored at the start. -/
theorem holdsItems_start (hready : s.Ready) (hmode : (s.inodes dir).iMode = DirFile.mode)
    (hsize : (s.inodes dir).iSize = 0) : ∃ L, HoldsItems dir [] s L := by
  obtain ⟨⟨L, hfree⟩, hne, haddr, ⟨sIsize, hmany, hlt, hroot⟩⟩ := hready
  refine ⟨L, sound_new hfree hne haddr, hmode, hsize, Nat.zero_le _, ?_, ?_,
    InodeBlock.rooted_createRoot hmany hlt hroot, by simp, by simp, List.nodup_nil⟩
  · exact fun lbn hlt => absurd hlt (Nat.not_lt_zero _)
  · exact fun o ho => absurd ho (Nat.not_lt_zero _)

/-- **The items are in the image** after every run. -/
theorem Built.holds (h : Built dir items s) : ∃ L, HoldsItems dir items s L := by
  induction h with
  | start hready hmode hsize => exact holdsItems_start hready hmode hsize
  | item _ hname hmode hcreate hroom ih =>
    obtain ⟨L, hitems⟩ := ih
    exact hitems.createFile hname hmode hcreate hroom
  | write _ hi hcount hwrite hroom ih =>
    obtain ⟨L, hitems⟩ := ih
    exact hitems.writeFile hi hcount hwrite hroom
  | take _ hmode htake ih =>
    obtain ⟨L, hitems⟩ := ih
    exact ⟨L, hitems.takeInode hmode htake⟩

omit [DecidableEq ι] in
/-- The kernel finds the items in a file without a hole. -/
theorem HoldsItems.located (h : HoldsItems dir items s L) (number : ℤ) :
    Located s.disk.fs ((s.inodes dir).load number) (dirFile items) := by
  have hle := h.size_le
  have hbound : maxFileSize = 33030 * 512 := rfl
  refine ⟨h.size_eq, hle, h.mapped, fun o ho => ?_, fun lbn lbn' hlt hlt' heq => ?_⟩
  · change o < 32 * items.length at ho
    have hbyte := h.byte_eq o ho
    rw [View.byte, if_neg (h.mapped _ (by omega))] at hbyte
    exact hbyte
  · change 512 * lbn < 32 * items.length at hlt
    change 512 * lbn' < 32 * items.length at hlt'
    obtain ⟨htree, hpath⟩ := h.sound.apart.owned (dir, (lbnPath lbn).1) _ (dir, (lbnPath lbn').1) _
      (isPath_lbnPath (by omega)).1 (isPath_lbnPath (by omega)).1 (h.mapped lbn hlt) heq
    exact lbnPath_inj (by omega) (by omega) (Prod.ext (Prod.mk.inj htree).2 hpath)

end Steps

end Build
end UnixV6pp
