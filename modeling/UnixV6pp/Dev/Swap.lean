import Mathlib.Algebra.Group.Nat.Defs
import Mathlib.Tactic.Common

/-!
# Swapping

A process image goes to the swap area and comes back in one request each.  The number
of bytes passes through two registers that are too small for it: the number of sectors
has eight bits, and the number of bytes in the descriptor for the DMA controller sixteen.

* `DeviceRegisters`, `devStart` — what the disk and the DMA controller are told.
* `transfer` — what they do then.
* `swap`, `xSwap`, `swapIn` — the requests.
* `roundTrip_iff` — **which images come back.**
-/

namespace UnixV6pp

/-- The physical memory, and the bytes on the disk. -/
structure Storage where
  memory : ℕ → UInt8
  sectors : ℕ → UInt8

namespace Swapping

/-- `BufferManager::BUFFER_SIZE`. -/
def BUFFER_SIZE : ℕ := 512

/-- The fields of `SwBuf` that are looked at; the address is physical. -/
structure Request where
  bBlkno : ℕ
  bAddr : ℕ
  bWcount : ℕ
  /-- `B_READ`. -/
  read : Bool

/-- What the driver writes to the disk, and to the descriptor. -/
structure DeviceRegisters where
  /-- `NSECTOR_PORT`, eight bits. -/
  nsector : ℕ
  /-- The block number, 28 bits. -/
  lba : ℕ
  /-- `m_MemoryRegionPhysicalBaseAddress`, 31 bits. -/
  memoryRegionPhysicalBaseAddress : ℕ
  /-- `m_ByteCount`, 15 bits. -/
  byteCount : ℕ
  read : Bool

/-- `ATADriver::DevStart`. -/
def devStart (bp : Request) : DeviceRegisters where
  nsector := bp.bWcount / BUFFER_SIZE % 2 ^ 8
  lba := bp.bBlkno % 2 ^ 28
  -- the two upper bits are those of the kernel's addresses
  memoryRegionPhysicalBaseAddress := bp.bAddr % 2 ^ 30 / 2
  byteCount := bp.bWcount % 2 ^ 16 / 2
  read := bp.read

namespace DeviceRegisters

variable (r : DeviceRegisters)

/-- The bytes that the disk transfers: zero stands for 256 sectors. -/
def diskBytes : ℕ := (if r.nsector = 0 then 256 else r.nsector) * 512

/-- The bytes that the DMA controller transfers: zero stands for 65536. -/
def dmaBytes : ℕ := if r.byteCount = 0 then 65536 else 2 * r.byteCount

/-- A byte moves if both the disk and the controller transfer it. -/
def bytes : ℕ := min r.diskBytes r.dmaBytes

/-- The first byte in memory, and on the disk. -/
def base : ℕ := 2 * r.memoryRegionPhysicalBaseAddress

def start : ℕ := r.lba * 512

end DeviceRegisters

/-- The bytes from `from₀` on are copied to `to₀`. -/
def copy (src dst : ℕ → UInt8) (from₀ to₀ n : ℕ) : ℕ → UInt8 := fun a =>
  if to₀ ≤ a ∧ a < to₀ + n then src (from₀ + (a - to₀)) else dst a

/-- What the disk and the DMA controller do. -/
def transfer (s : Storage) (r : DeviceRegisters) : Storage :=
  if r.read then { s with memory := copy s.sectors s.memory r.start r.base r.bytes }
  else { s with sectors := copy s.memory s.sectors r.base r.start r.bytes }

/-- `BufferManager::Swap`. -/
def swap (s : Storage) (blkno addr count : ℕ) (read : Bool) : Storage :=
  transfer s (devStart ⟨blkno, addr, count, read⟩)

/-- The fields of a process that are looked at; `pAddr` is a block number when it is swapped out. -/
structure Image where
  pAddr : ℕ
  pSize : ℕ

/-- `ProcessManager::XSwap`, when `AllocSwap` has returned `blkno`. -/
def xSwap (s : Storage) (p : Image) (size blkno : ℕ) : Storage × Image :=
  let size := if size = 0 then p.pSize else size
  (swap s blkno p.pAddr size false, { p with pAddr := blkno })

/-- A shared text segment in the swap area. -/
structure SwappedText where
  xDaddr : ℕ
  xSize : ℕ

/-- What `Sched` allocates to swap the process in. -/
def neededSize (p : Image) (text : Option SwappedText) : ℕ :=
  p.pSize + (text.map SwappedText.xSize).getD 0

/-- The text segment is read, when there is one and it is not in memory; the second component is
where the rest of the image will be. -/
def readText (s : Storage) (text : Option SwappedText) (desAddress : ℕ) : Storage × ℕ :=
  match text with
  | some t => (swap s t.xDaddr desAddress t.xSize true, desAddress + t.xSize)
  | none => (s, desAddress)

/-- The part of `ProcessManager::Sched` that swaps a process in, when `AllocMemory` has returned
`desAddress`. -/
def swapIn (s : Storage) (p : Image) (text : Option SwappedText) (desAddress : ℕ) :
    Storage × Image :=
  let (s, desAddress) := readText s text desAddress
  (swap s p.pAddr desAddress p.pSize true, { p with pAddr := desAddress })

/-! ### How much is transferred -/

variable {blkno addr count k n : ℕ} {read : Bool}

/-- The bytes that move for a request of `count` bytes. -/
def moved (count : ℕ) : ℕ := (devStart ⟨0, 0, count, true⟩).bytes

theorem moved_le (hcount : 2 ≤ count) : moved count ≤ count := by
  refine Nat.le_trans (Nat.min_le_right _ _) ?_
  unfold DeviceRegisters.dmaBytes devStart
  dsimp only
  split <;> omega

/-- **All bytes move** exactly if the number of bytes is one of whole sectors that fits in both
registers. -/
theorem moved_eq_iff (hcount : 512 ≤ count) : moved count = count ↔ 512 ∣ count ∧ count ≤ 65536 := by
  unfold moved DeviceRegisters.bytes DeviceRegisters.diskBytes DeviceRegisters.dmaBytes devStart
    BUFFER_SIZE
  dsimp only
  constructor
  · intro h
    have hdma := Nat.le_trans (Nat.le_of_eq h.symm) (Nat.min_le_right _ _)
    have hdisk := Nat.le_trans (Nat.le_of_eq h.symm) (Nat.min_le_left _ _)
    have hle : count ≤ 65536 := by
      split at hdma <;> omega
    refine ⟨?_, hle⟩
    split at hdisk
    · omega
    · omega
  · rintro ⟨⟨m, rfl⟩, hle⟩
    have hm : 512 * m / 512 = m := Nat.mul_div_cancel_left m (by decide)
    rw [hm, if_neg (by omega)]
    split <;> omega

/-! ### What comes back -/

section

variable {src dst : ℕ → UInt8} {from₀ to₀ a : ℕ}

theorem copy_inside (hk : k < n) : copy src dst from₀ to₀ n (to₀ + k) = src (from₀ + k) := by
  unfold copy
  rw [if_pos ⟨Nat.le_add_right _ _, by omega⟩, Nat.add_sub_cancel_left]

theorem copy_outside (ha : a < to₀ ∨ to₀ + n ≤ a) : copy src dst from₀ to₀ n a = dst a := by
  unfold copy
  rw [if_neg (by omega)]

end

variable {s : Storage}

theorem sectors_swap (hblk : blkno < 2 ^ 28) (haddr : addr < 2 ^ 30) :
    (swap s blkno addr count false).sectors =
      copy s.memory s.sectors (addr / 2 * 2) (blkno * 512) (moved count) := by
  change copy s.memory s.sectors (2 * (addr % 2 ^ 30 / 2)) (blkno % 2 ^ 28 * 512) _ = _
  rw [Nat.mod_eq_of_lt hblk, Nat.mod_eq_of_lt haddr, Nat.mul_comm 2]
  rfl

theorem memory_swap (hblk : blkno < 2 ^ 28) (haddr : addr < 2 ^ 30) :
    (swap s blkno addr count true).memory =
      copy s.sectors s.memory (blkno * 512) (addr / 2 * 2) (moved count) := by
  change copy s.sectors s.memory (blkno % 2 ^ 28 * 512) (2 * (addr % 2 ^ 30 / 2)) _ = _
  rw [Nat.mod_eq_of_lt hblk, Nat.mod_eq_of_lt haddr, Nat.mul_comm 2]
  rfl

/-- The image comes back and nothing else is written, whatever has happened in the meantime to the
memory and to the other blocks of the disk. -/
def RoundTrip (p : Image) (xSize : Option ℕ) (desAddress : ℕ) : Prop :=
  ∀ (s s' : Storage) (blkno xDaddr : ℕ), blkno < 2 ^ 28 → xDaddr < 2 ^ 28 →
    (∀ k < p.pSize, s'.sectors (blkno * 512 + k) =
      (xSwap s p 0 blkno).1.sectors (blkno * 512 + k)) →
    let text := xSize.map (SwappedText.mk xDaddr)
    let back := swapIn s' (xSwap s p 0 blkno).2 text desAddress
    (∀ k < p.pSize, back.1.memory (back.2.pAddr + k) = s.memory (p.pAddr + k)) ∧
      ∀ a, a < desAddress ∨ desAddress + neededSize p text ≤ a → back.1.memory a = s'.memory a

/-- Where the image will be. -/
def imageAddress (xSize : Option ℕ) (desAddress : ℕ) : ℕ := desAddress + xSize.getD 0

/-- The memory after swapping in. -/
theorem memory_swapIn (s : Storage) (p : Image) (xSize : Option ℕ) {desAddress : ℕ} (xDaddr : ℕ)
    (hblk : p.pAddr < 2 ^ 28) (haddr : imageAddress xSize desAddress < 2 ^ 30) :
    let text := xSize.map (SwappedText.mk xDaddr)
    (swapIn s p text desAddress).2.pAddr = imageAddress xSize desAddress ∧
      (swapIn s p text desAddress).1.memory =
        copy s.sectors (readText s text desAddress).1.memory (p.pAddr * 512)
          (imageAddress xSize desAddress / 2 * 2) (moved p.pSize) := by
  cases xSize with
  | none => exact ⟨rfl, memory_swap hblk haddr⟩
  | some x => exact ⟨rfl, memory_swap hblk haddr⟩

/-- The text segment is read into the memory allocated for it, if it is not empty. -/
theorem memory_readText {xSize : Option ℕ} {desAddress xDaddr a : ℕ} (hx : xDaddr < 2 ^ 28)
    (hdes : desAddress < 2 ^ 30) (heven : 2 ∣ desAddress)
    (ha : a < desAddress ∨ ∀ x, xSize = some x → desAddress + moved x ≤ a) :
    (readText s (xSize.map (SwappedText.mk xDaddr)) desAddress).1.memory a = s.memory a := by
  cases xSize with
  | none => rfl
  | some x =>
    change (swap s xDaddr desAddress x true).memory a = _
    rw [memory_swap hx hdes, Nat.div_mul_cancel heven]
    exact copy_outside (ha.imp_right fun h => h x rfl)

/-- The image on the disk. -/
theorem sectors_xSwap {p : Image} (hblk : blkno < 2 ^ 28) (haddr : p.pAddr < 2 ^ 30) :
    (xSwap s p 0 blkno).1.sectors =
      copy s.memory s.sectors (p.pAddr / 2 * 2) (blkno * 512) (moved p.pSize) :=
  sectors_swap hblk haddr

/-- The sizes for which an image comes back. -/
structure Fits (p : Image) (xSize : Option ℕ) : Prop where
  sectors : 512 ∣ p.pSize
  bytes : p.pSize ≤ 65536
  even : 2 ∣ p.pAddr
  text : ∀ x, xSize = some x → 2 ∣ x ∧ (x = 0 → p.pSize = 65536)

variable {p : Image} {xSize : Option ℕ} {desAddress : ℕ}

theorem Fits.moved_eq (h : Fits p xSize) (hsize : 4096 ≤ p.pSize) : moved p.pSize = p.pSize :=
  (moved_eq_iff (by omega)).2 ⟨h.sectors, h.bytes⟩

theorem Fits.even_image (h : Fits p xSize) (hdes : 4096 ∣ desAddress) :
    2 ∣ imageAddress xSize desAddress := by
  unfold imageAddress
  cases xSize with
  | none => exact Nat.dvd_add (Nat.dvd_trans (by decide) hdes) (Nat.dvd_zero 2)
  | some x => exact Nat.dvd_add (Nat.dvd_trans (by decide) hdes) (h.text x rfl).1

/-- What is read for the text segment stays in the memory that was allocated. -/
theorem Fits.moved_text_le (h : Fits p xSize) {x : ℕ} (hx : xSize = some x) :
    moved x ≤ p.pSize + x := by
  obtain ⟨heven, hzero⟩ := h.text x hx
  by_cases h0 : x = 0
  · rw [hzero h0]
    subst h0
    decide
  · have := moved_le (show 2 ≤ x by omega)
    omega

/-- **These images come back.** -/
theorem Fits.roundTrip (h : Fits p xSize) (hsize : 4096 ≤ p.pSize) (haddr : p.pAddr < 2 ^ 30)
    (hdes : 4096 ∣ desAddress) (hroom : desAddress + p.pSize + xSize.getD 0 < 2 ^ 30) :
    RoundTrip p xSize desAddress := by
  intro s s' blkno xDaddr hblk hx hsame text back
  have himage : imageAddress xSize desAddress < 2 ^ 30 := by
    unfold imageAddress
    omega
  have heven : 2 ∣ desAddress := Nat.dvd_trans (by decide) hdes
  have hdown := Nat.div_mul_cancel (h.even_image hdes)
  have hback := memory_swapIn s' (xSwap s p 0 blkno).2 xSize xDaddr hblk himage
  obtain ⟨hat, hmemory⟩ := hback
  change _ = copy s'.sectors _ (blkno * 512) _ (moved p.pSize) at hmemory
  rw [hdown, h.moved_eq hsize] at hmemory
  constructor
  · intro k hk
    rw [show back.2.pAddr = _ from hat, show back.1.memory = _ from hmemory, copy_inside hk,
      hsame k hk, sectors_xSwap hblk haddr, h.moved_eq hsize, Nat.div_mul_cancel h.even]
    exact copy_inside hk
  · intro a ha
    rw [show back.1.memory = _ from hmemory, copy_outside]
    · apply memory_readText hx (by omega) heven
      refine ha.imp_right fun ha x hxs => ?_
      subst hxs
      have htext := h.moved_text_le rfl
      change desAddress + (p.pSize + x) ≤ a at ha
      omega
    · unfold imageAddress
      cases xSize with
      | none =>
        change a < desAddress ∨ desAddress + (p.pSize + 0) ≤ a at ha
        change a < desAddress + 0 ∨ desAddress + 0 + p.pSize ≤ a
        omega
      | some x =>
        change a < desAddress ∨ desAddress + (p.pSize + x) ≤ a at ha
        change a < desAddress + x ∨ desAddress + x + p.pSize ≤ a
        omega

/-! ### What does not come back -/

/-- A disk whose swap area holds the image, and all other bytes of which are `fill`. -/
def swappedOut (s : Storage) (p : Image) (fill : UInt8) : Storage where
  memory := fun _ => 0
  sectors := fun a =>
    if 512 ≤ a ∧ a < 512 + p.pSize then (xSwap s p 0 1).1.sectors a else fill

/-- The block at which the text segment is taken to be, far behind the image. -/
def farBlock : ℕ := 2 ^ 20

theorem moved_le_max : moved count ≤ 65536 := by
  refine Nat.le_trans (Nat.min_le_right _ _) ?_
  unfold DeviceRegisters.dmaBytes devStart
  dsimp only
  split <;> omega

theorem swappedOut_same {fill : UInt8} (k : ℕ) (hk : k < p.pSize) :
    (swappedOut s p fill).sectors (1 * 512 + k) = (xSwap s p 0 1).1.sectors (1 * 512 + k) := by
  unfold swappedOut
  dsimp only
  rw [if_pos (by omega)]

/-- What is read for the text segment then. -/
theorem readText_swappedOut {fill : UInt8} (hsize : p.pSize ≤ 2 ^ 23) (hdes : desAddress < 2 ^ 30)
    (a : ℕ) :
    (readText (swappedOut s p fill) (xSize.map (SwappedText.mk farBlock)) desAddress).1.memory a =
      if ∃ x, xSize = some x ∧ desAddress / 2 * 2 ≤ a ∧ a < desAddress / 2 * 2 + moved x then fill
      else 0 := by
  cases xSize with
  | none =>
    rw [if_neg (by simp)]
    rfl
  | some x =>
    change (swap _ farBlock desAddress x true).memory a = _
    rw [memory_swap (by decide) hdes]
    unfold copy
    simp only [Option.some.injEq, exists_eq_left']
    split
    · next hin =>
      unfold swappedOut farBlock
      have hmoved : moved x ≤ 65536 := moved_le_max
      dsimp only
      rw [if_neg (by omega)]
    · rfl

section

variable (h : RoundTrip p xSize desAddress) (hsize : 4096 ≤ p.pSize) (hmax : p.pSize ≤ 2 ^ 23)
  (haddr : p.pAddr < 2 ^ 30) (hroom : desAddress + p.pSize + xSize.getD 0 < 2 ^ 30)

include h hsize hmax hroom

/-- What the image is read back to. -/
theorem roundTrip_byte (fill : UInt8) {k : ℕ} (hk : k < p.pSize) :
    copy (swappedOut s p fill).sectors
      (readText (swappedOut s p fill) (xSize.map (SwappedText.mk farBlock)) desAddress).1.memory
      (1 * 512) (imageAddress xSize desAddress / 2 * 2) (moved p.pSize)
      (imageAddress xSize desAddress + k) = s.memory (p.pAddr + k) := by
  have himage : imageAddress xSize desAddress < 2 ^ 30 := by
    unfold imageAddress
    omega
  have hblock : (1 : ℕ) < 2 ^ 28 := by decide
  have hfar : farBlock < 2 ^ 28 := by decide
  have hcome := (h s (swappedOut s p fill) 1 farBlock hblock hfar swappedOut_same).1 k hk
  have hback := memory_swapIn (swappedOut s p fill) (xSwap s p 0 1).2 xSize farBlock hblock himage
  rw [hback.1, hback.2] at hcome
  exact hcome

/-- Only an image all of whose bytes move comes back. -/
theorem RoundTrip.moved_eq : moved p.pSize = p.pSize ∧ 2 ∣ imageAddress xSize desAddress := by
  have hbyte := roundTrip_byte (s := ⟨fun _ => 1, fun _ => 0⟩) h hsize hmax hroom 0
    (k := p.pSize - 1) (by omega)
  have hle := moved_le (show 2 ≤ p.pSize by omega)
  by_cases hin : imageAddress xSize desAddress + (p.pSize - 1) <
      imageAddress xSize desAddress / 2 * 2 + moved p.pSize
  · constructor <;> omega
  · rw [copy_outside (.inr (by omega)), readText_swappedOut hmax (by omega), ite_self] at hbyte
    cases hbyte

include haddr in
/-- It lies at an even address. -/
theorem RoundTrip.even : 2 ∣ p.pAddr := by
  obtain ⟨hmoved, heven⟩ := h.moved_eq hsize hmax hroom
  have hbyte := roundTrip_byte (s := ⟨fun a => if a = p.pAddr then 1 else 0, fun _ => 0⟩) h hsize
    hmax hroom 0 (k := 0) (by omega)
  rw [Nat.div_mul_cancel heven, copy_inside (by omega)] at hbyte
  unfold swappedOut at hbyte
  dsimp only at hbyte
  rw [if_pos (by omega), sectors_xSwap (by decide) haddr, copy_inside (by omega)] at hbyte
  dsimp only at hbyte
  rw [if_pos (Nat.add_zero _)] at hbyte
  by_contra hodd
  rw [if_neg (by omega)] at hbyte
  cases hbyte

/-- An empty text segment is read as 65536 bytes. -/
theorem RoundTrip.text_zero (hdes : 4096 ∣ desAddress) (hx : xSize = some 0) :
    65536 ≤ p.pSize := by
  subst hx
  by_contra hlt
  have hblock : (1 : ℕ) < 2 ^ 28 := by decide
  have hfar : farBlock < 2 ^ 28 := by decide
  have hdes' : desAddress / 2 * 2 = desAddress := Nat.div_mul_cancel (Nat.dvd_trans (by decide) hdes)
  have himage : imageAddress (some 0) desAddress < 2 ^ 30 :=
    Nat.lt_of_le_of_lt (Nat.add_le_add_right (Nat.le_add_right _ _) 0) hroom
  have hstay := (h ⟨fun _ => 0, fun _ => 0⟩ (swappedOut ⟨fun _ => 0, fun _ => 0⟩ p 1) 1 farBlock
    hblock hfar swappedOut_same).2 (desAddress + p.pSize) (.inr (Nat.le_refl _))
  have hback := memory_swapIn (swappedOut ⟨fun _ => 0, fun _ => 0⟩ p 1)
    (xSwap ⟨fun _ => 0, fun _ => 0⟩ p 0 1).2 (some 0) farBlock hblock himage
  obtain ⟨hmoved, -⟩ := h.moved_eq hsize hmax hroom
  have hzero : moved 0 = 65536 := by decide
  rw [hback.2, copy_outside, readText_swappedOut hmax (by omega), if_pos] at hstay
  · cases hstay
  · exact ⟨0, rfl, by omega, by omega⟩
  · refine .inr ?_
    change (desAddress + 0) / 2 * 2 + moved p.pSize ≤ _
    rw [hmoved]
    omega

end

/-- **Which images come back.**  A process image is restored by swapping it out and in, at its new
address and without touching other memory, exactly if it consists of whole sectors and has at most
65536 bytes, lies at an even address, and a text segment read before it has an even size and, when
it is empty, is followed by an image of 65536 bytes. -/
theorem roundTrip_iff (hsize : 4096 ≤ p.pSize) (hmax : p.pSize ≤ 2 ^ 23) (haddr : p.pAddr < 2 ^ 30)
    (hdes : 4096 ∣ desAddress) (hroom : desAddress + p.pSize + xSize.getD 0 < 2 ^ 30) :
    RoundTrip p xSize desAddress ↔ 512 ∣ p.pSize ∧ p.pSize ≤ 65536 ∧ 2 ∣ p.pAddr ∧
      ∀ x, xSize = some x → 2 ∣ x ∧ (x = 0 → p.pSize = 65536) := by
  constructor
  · intro h
    obtain ⟨hmoved, heven⟩ := h.moved_eq hsize hmax hroom
    obtain ⟨hsectors, hbytes⟩ := (moved_eq_iff (by omega)).1 hmoved
    refine ⟨hsectors, hbytes, h.even hsize hmax haddr hroom, ?_⟩
    rintro x rfl
    constructor
    · unfold imageAddress at heven
      change 2 ∣ desAddress + x at heven
      omega
    · rintro rfl
      have := h.text_zero hsize hmax hroom hdes rfl
      omega
  · rintro ⟨hsectors, hbytes, heven, htext⟩
    exact Fits.roundTrip ⟨hsectors, hbytes, heven, htext⟩ hsize haddr hdes hroom

/-- Two pages come back. -/
theorem roundTrip_twoPages : RoundTrip ⟨0x400000, 8192⟩ none 0x500000 :=
  (roundTrip_iff (p := ⟨0x400000, 8192⟩) (by decide) (by decide) (by decide) (by decide)
    (by decide)).2 ⟨by decide, by decide, by decide, nofun⟩

/-- Of an image of seventeen pages only one is restored. -/
theorem not_roundTrip_seventeenPages : ¬RoundTrip ⟨0x400000, 69632⟩ none 0x500000 := by
  intro h
  have hmoved := (h.moved_eq (by decide) (by decide) (by decide)).1
  have hless : moved 69632 = 4096 := by decide
  exact absurd (hless.symm.trans hmoved) (by decide)

end Swapping
end UnixV6pp
