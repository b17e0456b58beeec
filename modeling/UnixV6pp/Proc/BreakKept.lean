import UnixV6pp.Proc.BreakData

/-!
# When a change of the break keeps everything

The four ways of a change: the data keeps its size, it grows, it shrinks, or the new end
is below the data altogether.  For each of them, what follows if the sizes are whole
pages, and what is lost if they are not.

* `Keeps` — the condition.
* `preserves_iff` — **when a change of the break keeps the data and the stack.**
-/

namespace UnixV6pp
namespace Break

open Words Paging Copy

variable {p q : Process} {newEnd n f D S c cs : ℕ} {g : Grant} {entrys : Oos2.UserPageTableArray}

/-- The process after the page tables have been established and the image has changed. -/
def Process.after (p : Process) (entrys : Oos2.UserPageTableArray) (n : ℕ) (g : Grant) : Process :=
  (p.established entrys).resize Process.mapToPageTable n g

/-- Nothing is lost. -/
def Fine (p : Process) (newEnd : ℕ) (q : Process) : Prop := Inside q ∧ Kept p newEnd q

theorem Shape.established (h : Shape p) : Shape (p.established entrys) :=
  ⟨h.aligned, h.below, h.size, h.pages, h.low, h.stackLe, h.dataBelow, h.textBelow, h.text⟩

/-- The text is where it was. -/
theorem text_of_resized (h : Image p) (hq : Resized p n q) (hx : q.xCaddr = p.xCaddr) :
    entryCnt q.md.mTextSize ≠ 0 →
      ∃ x, q.xCaddr = some x ∧ x / PAGE_SIZE + entryCnt q.md.mTextSize ≤ 2 ^ 20 := by
  rw [hq.textSize, hx]
  exact h.text

/-- The data and the stack have at most one page more than the image. -/
theorem Numbers.fits (hnum : Numbers p f D S c cs) : f + c + cs < 2 ^ 20 := by
  have hd := hnum.data
  have hs := hnum.stack
  have hsize := hnum.size
  have hcnt := hnum.sizeCnt
  have hbelow := hnum.below
  omega

/-- The data ends below the stack. -/
theorem Numbers.room (hnum : Numbers p f D S c cs) : D + c ≤ S := by
  have hd := hnum.data
  have hstart := hnum.startLe
  have hend := hnum.dataEnd
  omega

/-- A memory with a single cell that is not zero. -/
def single (x : ℕ) : ℕ → UInt8 := fun y => if y = x then 1 else 0

theorem single_self (x : ℕ) : single x x = 1 := if_pos rfl

theorem single_ne {x y : ℕ} (h : single x y = 1) : y = x := by
  by_contra hne
  rw [single, if_neg hne] at h
  exact absurd h (by decide)

/-! ### The data keeps its size -/

theorem equal_iff (h : Image p) (hnum : Numbers p f D S c cs)
    (hsome : p.segments p.md.mDataSize p.md.mStackSize = some entrys) (g : Grant) :
    Fine p newEnd (p.after entrys p.md.mDataSize g) ↔
      c + cs ≤ entryCnt (p.md.mDataSize + p.md.mStackSize) := by
  have hq : Resized p p.md.mDataSize (p.after entrys p.md.mDataSize g) := resized hsome g
  obtain ⟨hmem, haddr, hx, hpages⟩ := resize_equal (p.established entrys) g
  change (p.after entrys p.md.mDataSize g).mem = p.mem at hmem
  change (p.after entrys p.md.mDataSize g).pAddr = p.pAddr at haddr
  change (p.after entrys p.md.mDataSize g).xCaddr = p.xCaddr at hx
  change (p.after entrys p.md.mDataSize g).pages = p.pages at hpages
  set q := p.after entrys p.md.mDataSize g
  have hfits := hnum.fits
  have hroom := hnum.room
  have hkept : Kept p newEnd q := by
    refine (kept_iff h hnum hq (haddr.trans hnum.addr) hnum.cnt hfits hfits).mpr ⟨?_, ?_⟩
    · intro k _ _
      rw [hmem]
    · intro a _ _ _ ha
      exact ⟨ha, by rw [hmem]⟩
  have hframe : q.pAddr / PAGE_SIZE = f := by rw [haddr, hnum.frame]
  have hsum := entryCnt_bounds (x := p.md.mDataSize + p.md.mStackSize) (by
    have := h.toShape.small
    omega)
  have hmemPages : ∀ r, f + r ∈ p.pages ↔ r < entryCnt p.pSize := by
    intro r
    rw [h.pages, frames, hnum.frame, Finset.mem_Ico]
    omega
  have hsize := hnum.size
  have hcnt := hnum.sizeCnt
  have hd := hnum.data
  have hs := hnum.stack
  constructor
  · rintro ⟨hin, -⟩
    by_contra hlt
    -- the last page of the stack is behind the image
    have hpage := page_of_inside hq.view hin (by rw [hq.dataStart, hnum.start]) hnum.one hnum.page
      (by rw [hnum.cnt]; exact hroom) (by rw [hnum.stackCnt]; exact hnum.top)
      (by rw [hframe, hnum.cnt, hnum.stackCnt]; exact hfits) (r := c + cs) (by omega)
      (by rw [hnum.cnt, hnum.stackCnt])
    rw [hframe, hpages, hmemPages] at hpage
    omega
  · intro hle
    refine ⟨inside_of_view hq.view (text_of_resized h hq hx) ?_ fun r hr hr' => ?_, hkept⟩
    · rw [hframe, hnum.cnt, hnum.stackCnt]
      exact hfits
    · rw [hnum.cnt, hnum.stackCnt] at hr'
      rw [hframe, hpages, hmemPages]
      omega

/-! ### The data grows -/

/-- The memory after the image has been swapped out and in again, with nothing else in it. -/
def Process.swappedIn (p : Process) : Grant :=
  .swapped 4096 p.xCaddr fun x =>
    if 4096 ≤ x ∧ x < 4096 + p.pSize then p.mem (p.pAddr + (x - 4096)) else 0

theorem swappedIn_valid {size : ℕ} (h : Shape p) (hsize : size ≤ 2 ^ 31) : p.swappedIn.Valid p size := by
  have hcnt := entryCnt_bounds (x := size) (by omega)
  have hin : ∀ i < p.pSize, (if 4096 ≤ 4096 + i ∧ 4096 + i < 4096 + p.pSize then
      p.mem (p.pAddr + (4096 + i - 4096)) else 0) = p.mem (p.pAddr + i) := by
    intro i hi
    rw [if_pos (by omega), Nat.add_sub_cancel_left]
  refine ⟨Nat.succ_pos _, Nat.mod_self PAGE_SIZE, ?_, hin, h.text⟩
  unfold Process.swappedIn Grant.address PAGE_SIZE
  dsimp only
  omega

theorem swappedIn_outside {x : ℕ} (h : 4096 + p.pSize ≤ x) : p.swappedIn.memory p x = 0 :=
  if_neg fun hin => absurd hin.2 (by omega)

theorem swappedIn_inside {i : ℕ} (h : i < p.pSize) :
    p.swappedIn.memory p (4096 + i) = p.mem (p.pAddr + i) := by
  refine (if_pos (by omega)).trans ?_
  rw [Nat.add_sub_cancel_left]

/-- What a growth that keeps everything needs. -/
def KeepsGrowth (p : Process) (n : ℕ) : Prop :=
  p.md.mStackSize = 0 ∧ (4096 ∣ p.md.mDataStartAddress ∨ 4096 ∣ p.md.mDataSize) ∨
    4096 ∣ p.md.mDataSize ∧ 4096 ∣ n ∧ 4096 ∣ p.md.mStackSize

/-- The numbers of the larger image. -/
theorem grown_numbers (h : Shape p) (hn : n ≤ 2 ^ 30) (hvalid : g.Valid p (4096 + n + p.md.mStackSize))
    (hnum : Numbers p f D S c cs) : ∃ f' c', g.address = 4096 * f' ∧ g.address / PAGE_SIZE = f' ∧
      entryCnt n = c' ∧ n ≤ 4096 * c' ∧ 4096 * c' < n + 4096 ∧
      4096 + n + p.md.mStackSize ≤ 4096 * entryCnt (4096 + n + p.md.mStackSize) ∧
      f' + c' + cs < 2 ^ 20 := by
  obtain ⟨hpos, haligned, hfits, -⟩ := hvalid
  obtain ⟨-, hsmall, -, -⟩ := h.small
  have hs := hnum.stack
  have hcnt := entryCnt_bounds (x := 4096 + n + p.md.mStackSize) (by omega)
  have hcnt' := entryCnt_bounds (x := n) (by omega)
  unfold PAGE_SIZE at *
  exact ⟨g.address / 4096, _, by omega, rfl, rfl, hcnt'.1, hcnt'.2, hcnt.1, by omega⟩

/-- A growth by whole pages keeps everything. -/
theorem grown_fine (h : Image p) (hnum : Numbers p f D S c cs)
    (hsome : p.segments n p.md.mStackSize = some entrys) (hn : n ≤ 2 ^ 30) (hlt : p.md.mDataSize < n)
    (hvalid : g.Valid p (4096 + n + p.md.mStackSize)) (hkeeps : KeepsGrowth p n) :
    Fine p newEnd (p.after entrys n g) := by
  have hq : Resized p n (p.after entrys n g) := resized hsome g
  obtain ⟨hmem, haddr, hx, hpages⟩ :=
    resize_grown (p := p.established entrys) h.toShape.established hn hlt hvalid
  change (p.after entrys n g).mem = copyDown (g.memory p) (g.address + 4096 + p.md.mDataSize +
    p.md.mStackSize) (g.address + 4096 + n + p.md.mStackSize) p.md.mStackSize at hmem
  change (p.after entrys n g).pAddr = g.address at haddr
  change (p.after entrys n g).xCaddr = g.textAddress p at hx
  change ∀ x ∈ frames (4096 + n + p.md.mStackSize) g.address, x ∈ (p.after entrys n g).pages at hpages
  set q := p.after entrys n g
  have hold := hvalid.memory h.toShape hn
  obtain ⟨f', c', haddr', hframe, hcnt, hc, hc', hsizeCnt, hbelow⟩ := grown_numbers h.toShape hn hvalid hnum
  have hd := hnum.data
  have hs := hnum.stack
  have hstart := hnum.startLe
  have hsize := hnum.size
  have hpaddr := hnum.addr
  have hcopy : ∀ a, q.mem a = _ := fun a => by
    rw [hmem, copyDown_apply (by omega) (by omega)]
  refine ⟨inside_of_view hq.view ?_ ?_ fun r hr hr' => hpages _ ?_, ?_⟩
  · rw [hq.textSize, hx]
    cases g with
    | moved newAddress => exact h.text
    | swapped newAddress xCaddr mem => exact hvalid.2.2.2.2
  · rw [haddr, hframe, hcnt, hnum.stackCnt]
    exact hbelow
  · rw [hcnt, hnum.stackCnt] at hr'
    rw [haddr, frames, hframe, Finset.mem_Ico]
    rcases hkeeps with ⟨hzero, -⟩ | ⟨-, hna, hsa⟩
    · omega
    · omega
  · refine (kept_iff h hnum hq (haddr.trans haddr') hcnt hnum.fits hbelow).mpr ⟨?_, ?_⟩
    · intro k hk hks
      rcases hkeeps with ⟨hzero, -⟩ | ⟨hda, hna, hsa⟩
      · omega
      · -- the stack has moved by whole pages
        have hto : 4096 * (f' + 1 + c' + cs) - k - (g.address + 4096 + n + p.md.mStackSize -
            (g.address + 4096 + p.md.mDataSize + p.md.mStackSize)) =
            g.address + (4096 + p.md.mDataSize + p.md.mStackSize - k) := by omega
        have hfrom : p.pAddr + (4096 + p.md.mDataSize + p.md.mStackSize - k) =
            4096 * (f + 1 + c + cs) - k := by omega
        rw [hcopy, if_pos (by omega), hto, hold _ (by omega), hfrom]
    · intro a ha hdataLt hnewLt hpage
      have hoffset : a - 4096 * D < p.md.mDataSize := by
        rcases hkeeps with ⟨-, hzero⟩ | ⟨hda, -, -⟩
        · omega
        · omega
      have hto : 4096 * (f' + 1) + (a - 4096 * D) = g.address + (4096 + (a - 4096 * D)) := by omega
      have hfrom : p.pAddr + (4096 + (a - 4096 * D)) = 4096 * (f + 1) + (a - 4096 * D) := by omega
      refine ⟨by omega, ?_⟩
      rw [hcopy, if_neg (by omega), hto, hold _ (by omega), hfrom]

/-- The last byte of the stack. -/
def Numbers.last (_ : Numbers p f D S c cs) : ℕ := 4096 * (f + 1 + c + cs) - 1

/-- The memory of a larger image that has been swapped in. -/
theorem grown_swapped (h : Image p) (hnum : Numbers p f D S c cs)
    (hsome : p.segments n p.md.mStackSize = some entrys) (hn : n ≤ 2 ^ 30) (hlt : p.md.mDataSize < n)
    (hfine : Fine p newEnd (p.after entrys n p.swappedIn)) :
    ∃ q : Process, ∃ c', entryCnt n = c' ∧ n ≤ 4096 * c' ∧
      (∀ a, q.mem a = if 8192 + n ≤ a ∧ a < 8192 + n + p.md.mStackSize then
        p.swappedIn.memory p (a - (n - p.md.mDataSize)) else p.swappedIn.memory p a) ∧
      (∀ k, 1 ≤ k → k ≤ p.md.mStackSize →
        q.mem (4096 * (2 + c' + cs) - k) = p.mem (4096 * (f + 1 + c + cs) - k)) ∧
      ∀ a, p.md.mDataStartAddress ≤ a → a < p.md.mDataStartAddress + p.md.mDataSize → a < newEnd →
        a < 4096 * (D + c) → q.mem (8192 + (a - 4096 * D)) = p.mem (4096 * (f + 1) + (a - 4096 * D)) := by
  obtain ⟨-, hsmall, -, -⟩ := h.toShape.small
  have hvalid : p.swappedIn.Valid p (4096 + n + p.md.mStackSize) := swappedIn_valid h.toShape (by omega)
  have hq : Resized p n (p.after entrys n p.swappedIn) := resized hsome p.swappedIn
  obtain ⟨hmem, haddr, -, -⟩ :=
    resize_grown (p := p.established entrys) h.toShape.established hn hlt hvalid
  change (p.after entrys n p.swappedIn).mem = copyDown (p.swappedIn.memory p) (4096 + 4096 +
    p.md.mDataSize + p.md.mStackSize) (4096 + 4096 + n + p.md.mStackSize) p.md.mStackSize at hmem
  change (p.after entrys n p.swappedIn).pAddr = 4096 at haddr
  set q := p.after entrys n p.swappedIn
  have hcnt := entryCnt_bounds (x := n) (by omega)
  have hs := hnum.stack
  have hbelow : 1 + entryCnt n + cs < 2 ^ 20 := by omega
  obtain ⟨hstack, hdata⟩ := (kept_iff h hnum hq haddr rfl hnum.fits hbelow).mp hfine.2
  refine ⟨q, entryCnt n, rfl, hcnt.1, fun a => ?_, hstack, fun a ha ha' hnew hpage => (hdata a ha ha' hnew hpage).2⟩
  have hback : 4096 + 4096 + n + p.md.mStackSize - (4096 + 4096 + p.md.mDataSize + p.md.mStackSize) =
      n - p.md.mDataSize := by omega
  have hfrom : 4096 + 4096 + n + p.md.mStackSize - p.md.mStackSize = 8192 + n := by omega
  rw [hmem, copyDown_apply (by omega) (by omega), hback, hfrom]

/-- If the stack is kept by a growth, all sizes are whole pages. -/
theorem grown_stack (h : Image p) (hnum : Numbers p f D S c cs)
    (hsome : p.segments n p.md.mStackSize = some entrys) (hn : n ≤ 2 ^ 30) (hlt : p.md.mDataSize < n)
    (hmem : p.mem = single hnum.last) (hfine : Fine p newEnd (p.after entrys n p.swappedIn)) :
    p.md.mStackSize = 0 ∨ 4096 ∣ p.md.mDataSize ∧ 4096 ∣ n ∧ 4096 ∣ p.md.mStackSize := by
  obtain ⟨q, c', -, hc', hcopy, hstack, -⟩ := grown_swapped h hnum hsome hn hlt hfine
  have hd := hnum.data
  have hs := hnum.stack
  have hsize := hnum.size
  have haddr := hnum.addr
  by_contra hno
  -- the last byte of the stack is read from elsewhere
  have hlast := hstack 1 (by omega) (by omega)
  rw [hmem, hcopy] at hlast
  change _ = single hnum.last hnum.last at hlast
  rw [single_self] at hlast
  split at hlast
  · next hin =>
    have hto : 4096 * (2 + c' + cs) - 1 - (n - p.md.mDataSize) =
        4096 + (4096 + p.md.mDataSize + p.md.mStackSize - 1) := by omega
    rw [hto, swappedIn_inside (by omega), hmem] at hlast
    have heq := single_ne hlast
    unfold Numbers.last at heq
    omega
  · next hout =>
    rw [swappedIn_outside (by omega)] at hlast
    exact absurd hlast (by decide)

/-- If the data is kept by a growth without a stack, it begins or ends with a page. -/
theorem grown_data (h : Image p) (hnum : Numbers p f D S c cs)
    (hsome : p.segments n p.md.mStackSize = some entrys) (hn : n ≤ 2 ^ 30) (hlt : p.md.mDataSize < n)
    (hend : newEnd = p.md.mDataStartAddress + n) (hzero : p.md.mStackSize = 0)
    (hmem : p.mem = single (4096 * (f + 1) + max (p.md.mDataStartAddress - 4096 * D) p.md.mDataSize))
    (hfine : Fine p newEnd (p.after entrys n p.swappedIn)) :
    4096 ∣ p.md.mDataStartAddress ∨ 4096 ∣ p.md.mDataSize := by
  obtain ⟨q, c', -, hc', hcopy, -, hdata⟩ := grown_swapped h hnum hsome hn hlt hfine
  have hd := hnum.data
  have hstart := hnum.startLe
  have hsize := hnum.size
  by_contra hno
  -- the first byte behind the image that is still in the last page of the data
  have hbyte := hdata (4096 * D + max (p.md.mDataStartAddress - 4096 * D) p.md.mDataSize) (by omega)
    (by omega) (by omega) (by omega)
  rw [Nat.add_sub_cancel_left, hmem, single_self, hcopy, if_neg (by omega),
    swappedIn_outside (by omega)] at hbyte
  exact absurd hbyte (by decide)

/-! ### The data shrinks -/

/-- What a shrinkage that keeps everything needs. -/
def KeepsShrinkage (p : Process) (n : ℕ) : Prop :=
  4096 ∣ n ∧ 4096 ∣ p.md.mStackSize ∧ (p.md.mStackSize = 0 ∨ 4096 ∣ p.md.mDataSize) ∧
    (4096 ∣ p.md.mDataStartAddress ∨ n = 0)

/-- The smaller image. -/
structure Shrunk (p : Process) (n k : ℕ) (q : Process) : Prop where
  pos : 0 < k
  le : k < p.md.mDataSize + 4096
  resized : Resized p n q
  mem : ∀ a, q.mem a = if p.pAddr + 4096 + p.md.mDataSize - k ≤ a ∧
    a < p.pAddr + 4096 + p.md.mDataSize - k + p.md.mStackSize then p.mem (a + k) else p.mem a
  addr : q.pAddr = p.pAddr
  xCaddr : q.xCaddr = p.xCaddr
  pages : q.pages = p.pages \ frames k (p.pAddr + 4096 + p.md.mDataSize + p.md.mStackSize - k)

theorem shrunk {k : ℕ} (h : Image p) (hsome : p.segments n p.md.mStackSize = some entrys)
    (hk : (n + k) % 2 ^ 32 = p.md.mDataSize) (hpos : 0 < k) (hle : k < p.md.mDataSize + 4096)
    (g : Grant) : Shrunk p n k (p.after entrys n g) := by
  obtain ⟨hmem, haddr, hx, hpages⟩ :=
    resize_shrunk (p := p.established entrys) h.toShape.established hk hpos hle g
  refine ⟨hpos, hle, Break.resized hsome g, fun a => ?_, haddr, hx, hpages⟩
  refine (congrFun hmem a).trans ?_
  change copyUp p.mem (p.pAddr + 4096 + p.md.mDataSize) (p.pAddr + 4096 + p.md.mDataSize - k)
    p.md.mStackSize a = _
  rw [copyUp_apply (by omega)]
  split
  · next hin =>
    congr 1
    omega
  · rfl

namespace Shrunk

variable {k : ℕ}

/-- Which pages of the image are left. -/
theorem mem_pages (hq : Shrunk p n k q) (h : Image p) (hnum : Numbers p f D S c cs) (r : ℕ) :
    f + r ∈ q.pages ↔ r < entryCnt p.pSize ∧
      ¬((4096 + p.md.mDataSize + p.md.mStackSize - k) / 4096 ≤ r ∧
        r < (4096 + p.md.mDataSize + p.md.mStackSize - k) / 4096 + entryCnt k) := by
  have hle := hq.le
  have haddr := hnum.addr
  rw [hq.pages, h.pages, frames, frames, Finset.mem_sdiff, Finset.mem_Ico, Finset.mem_Ico, hnum.frame]
  unfold PAGE_SIZE
  omega

/-- What is kept by an image that becomes smaller. -/
theorem kept (hq : Shrunk p n k q) (h : Image p) (hnum : Numbers p f D S c cs) {c' : ℕ}
    (hc' : entryCnt n = c') (hle : c' ≤ c) : Kept p newEnd q ↔
      (∀ i, 1 ≤ i → i ≤ p.md.mStackSize →
        q.mem (4096 * (f + 1 + c' + cs) - i) = p.mem (4096 * (f + 1 + c + cs) - i)) ∧
      ∀ a, p.md.mDataStartAddress ≤ a → a < p.md.mDataStartAddress + p.md.mDataSize → a < newEnd →
        a < 4096 * (D + c) → a < 4096 * (D + c') ∧
          q.mem (4096 * (f + 1) + (a - 4096 * D)) = p.mem (4096 * (f + 1) + (a - 4096 * D)) := by
  have hfits := hnum.fits
  exact kept_iff h hnum hq.resized (hq.addr.trans hnum.addr) hc' hfits (by omega)

/-- All that is mapped is inside exactly if the pages of the image are left. -/
theorem inside (hq : Shrunk p n k q) (h : Image p) (hnum : Numbers p f D S c cs) {c' : ℕ}
    (hc' : entryCnt n = c') (hle : c' ≤ c) : Inside q ↔ ∀ r, 1 ≤ r → r ≤ c' + cs → f + r ∈ q.pages := by
  have hfits := hnum.fits
  have hroom := hnum.room
  have hframe : q.pAddr / PAGE_SIZE = f := by rw [hq.addr, hnum.frame]
  constructor
  · intro hin r hr hr'
    have hmem := page_of_inside hq.resized.view hin (by rw [hq.resized.dataStart, hnum.start]) hnum.one
      hnum.page (by rw [hc']; omega) (by rw [hnum.stackCnt]; exact hnum.top)
      (by rw [hframe, hc', hnum.stackCnt]; omega) hr (by rw [hc', hnum.stackCnt]; exact hr')
    rwa [hframe] at hmem
  · intro hpages
    refine inside_of_view hq.resized.view (text_of_resized h hq.resized hq.xCaddr) ?_ fun r hr hr' => ?_
    · rw [hframe, hc', hnum.stackCnt]
      omega
    · rw [hframe]
      rw [hc', hnum.stackCnt] at hr'
      exact hpages r hr hr'

/-- A shrinkage by whole pages keeps everything. -/
theorem fine (hq : Shrunk p n k q) (h : Image p) (hnum : Numbers p f D S c cs)
    (hk : n + k = p.md.mDataSize) (hend : newEnd = p.md.mDataStartAddress + n)
    (hkeeps : KeepsShrinkage p n) : Fine p newEnd q := by
  obtain ⟨hn, hstackPages, hdata, hstart⟩ := hkeeps
  obtain ⟨hsmall, -, -, -⟩ := h.toShape.small
  have hcnt := entryCnt_bounds (x := n) (by omega)
  have hd := hnum.data
  have hs := hnum.stack
  have hstartLe := hnum.startLe
  have hsize := hnum.size
  have hsizeCnt := hnum.sizeCnt
  have haddr := hnum.addr
  have hle : entryCnt n ≤ c := by omega
  refine ⟨(hq.inside h hnum rfl hle).mpr fun r hr hr' => ?_, (hq.kept h hnum rfl hle).mpr ⟨?_, ?_⟩⟩
  · rw [hq.mem_pages h hnum]
    omega
  · intro i hi his
    rcases hdata with hzero | hdata
    · omega
    · have hto : 4096 * (f + 1 + entryCnt n + cs) - i + k = 4096 * (f + 1 + c + cs) - i := by omega
      rw [hq.mem, if_pos (by omega), hto]
  · intro a ha hdataLt hnewLt hpage
    refine ⟨by omega, ?_⟩
    rw [hq.mem, if_neg (by omega)]

/-- If all that is mapped is still inside after a shrinkage, the new end and the stack are whole
pages. -/
theorem aligned (hq : Shrunk p n k q) (h : Image p) (hnum : Numbers p f D S c cs)
    (hk : n + k = p.md.mDataSize) (hin : Inside q) : 4096 ∣ n ∧ 4096 ∣ p.md.mStackSize := by
  obtain ⟨hsmall, -, -, -⟩ := h.toShape.small
  have hcnt := entryCnt_bounds (x := n) (by omega)
  have hcnt' := entryCnt_bounds (x := k) (by omega)
  have hd := hnum.data
  have hs := hnum.stack
  have hpos := hq.pos
  by_contra hno
  -- the page in which the image ends is given back
  have hmem := (hq.inside h hnum rfl (by omega)).mp hin (1 + (n + p.md.mStackSize) / 4096) (by omega)
    (by omega)
  rw [hq.mem_pages h hnum] at hmem
  omega

/-- If the stack is kept by a shrinkage, the old data was whole pages. -/
theorem data_aligned (hq : Shrunk p n k q) (h : Image p) (hnum : Numbers p f D S c cs)
    (hk : n + k = p.md.mDataSize) (hmem : p.mem = single hnum.last) (hfine : Fine p newEnd q) :
    p.md.mStackSize = 0 ∨ 4096 ∣ p.md.mDataSize := by
  obtain ⟨hn, hstackPages⟩ := hq.aligned h hnum hk hfine.1
  obtain ⟨hsmall, -, -, -⟩ := h.toShape.small
  have hcnt := entryCnt_bounds (x := n) (by omega)
  have hd := hnum.data
  have hs := hnum.stack
  have haddr := hnum.addr
  by_contra hno
  have hlast := ((hq.kept h hnum rfl (by omega)).mp hfine.2).1 1 (by omega) (by omega)
  rw [hq.mem, if_pos (by omega), hmem] at hlast
  change _ = single hnum.last hnum.last at hlast
  rw [single_self] at hlast
  have heq := single_ne hlast
  unfold Numbers.last at heq
  omega

/-- If the data is kept by a shrinkage, it began with a page. -/
theorem start_aligned (hq : Shrunk p n k q) (h : Image p) (hnum : Numbers p f D S c cs)
    (hk : n + k = p.md.mDataSize) (hend : newEnd = p.md.mDataStartAddress + n) (hfine : Fine p newEnd q) :
    4096 ∣ p.md.mDataStartAddress ∨ n = 0 := by
  obtain ⟨hn, -⟩ := hq.aligned h hnum hk hfine.1
  obtain ⟨hsmall, -, -, -⟩ := h.toShape.small
  have hcnt := entryCnt_bounds (x := n) (by omega)
  have hd := hnum.data
  have hstart := hnum.startLe
  have hpos := hq.pos
  by_contra hno
  -- the last byte of the data is in a page that is no longer mapped
  have hbyte := ((hq.kept h hnum rfl (by omega)).mp hfine.2).2 (p.md.mDataStartAddress + n - 1)
    (by omega) (by omega) (by omega) (by omega)
  omega

end Shrunk

/-! ### The new end is below the data -/

/-- What an end below the data needs to keep everything. -/
def KeepsBelow (p : Process) (newEnd : ℕ) : Prop :=
  p.md.mStackSize = 0 ∨
    p.md.mDataSize = 0 ∧ p.md.mStackSize < p.md.mDataStartAddress - newEnd

namespace Shrunk

variable {k x : ℕ}

/-- An end below the data that keeps everything. -/
theorem below_fine (hq : Shrunk p n k q) (h : Image p) (hnum : Numbers p f D S c cs)
    (hcnt : entryCnt n = 0) (hk : k = p.md.mDataSize + x) (hx : p.md.mDataStartAddress = newEnd + x)
    (hkeeps : KeepsBelow p newEnd) : Fine p newEnd q := by
  have hd := hnum.data
  have hs := hnum.stack
  have hsize := hnum.size
  have hsizeCnt := hnum.sizeCnt
  have haddr := hnum.addr
  have hle := hq.le
  obtain ⟨hsmall, -, -, -⟩ := h.toShape.small
  have hfreed := entryCnt_bounds (x := k) (by omega)
  unfold KeepsBelow at hkeeps
  refine ⟨(hq.inside h hnum hcnt (by omega)).mpr fun r hr hr' => ?_,
    (hq.kept h hnum hcnt (by omega)).mpr ⟨?_, ?_⟩⟩
  · rw [hq.mem_pages h hnum]
    omega
  · intro i hi his
    rcases hkeeps with hzero | ⟨hzero, hlt⟩
    · omega
    · -- the bytes that move are in the kernel's page
      have hsame : 4096 * (f + 1 + c + cs) - i = 4096 * (f + 1 + 0 + cs) - i := by omega
      rw [hq.mem, if_neg (by omega), hsame]
  · intro a ha hdataLt hnewLt
    omega

/-- If an end below the data keeps everything, there is no stack, or no data and little stack. -/
theorem below_keeps (hq : Shrunk p n k q) (h : Image p) (hnum : Numbers p f D S c cs)
    (hcnt : entryCnt n = 0) (hk : k = p.md.mDataSize + x) (hx : p.md.mDataStartAddress = newEnd + x)
    (hbelow : 0 < x) (hmem : p.mem = single hnum.last) (hfine : Fine p newEnd q) : KeepsBelow p newEnd := by
  have hd := hnum.data
  have hs := hnum.stack
  have haddr := hnum.addr
  have hle := hq.le
  have hpos := hq.pos
  obtain ⟨hsmall, -, -, -⟩ := h.toShape.small
  have hfreed := entryCnt_bounds (x := k) (by omega)
  have hpage := (hq.inside h hnum hcnt (by omega)).mp hfine.1
  have hlast := ((hq.kept h hnum hcnt (by omega)).mp hfine.2).1 1
  unfold KeepsBelow
  by_contra hno
  by_cases hlarge : x ≤ p.md.mStackSize
  · -- a page of the stack is given back
    have hkept := hpage ((4096 + p.md.mStackSize - x) / 4096) (by omega) (by omega)
    rw [hq.mem_pages h hnum] at hkept
    omega
  · by_cases htwo : 4096 < k
    · -- the only page of the stack is given back with the kernel's
      have hkept := hpage 1 (by omega) (by omega)
      rw [hq.mem_pages h hnum] at hkept
      omega
    · -- the stack is read from the page of the data
      have hbyte := hlast (by omega) (by omega)
      rw [hq.mem, if_neg (by omega), hmem] at hbyte
      change _ = single hnum.last hnum.last at hbyte
      rw [single_self] at hbyte
      have heq := single_ne hbyte
      unfold Numbers.last at heq
      omega

end Shrunk

/-! ### All changes -/

def Process.withMemory (p : Process) (mem : ℕ → UInt8) : Process := { p with mem := mem }

theorem Image.withMemory (h : Image p) (mem : ℕ → UInt8) : Image (p.withMemory mem) :=
  ⟨⟨h.aligned, h.below, h.size, h.pages, h.low, h.stackLe, h.dataBelow, h.textBelow, h.text⟩, h.shows⟩

theorem Numbers.withMemory (h : Numbers p f D S c cs) (mem : ℕ → UInt8) :
    Numbers (p.withMemory mem) f D S c cs :=
  ⟨h.addr, h.frame, h.start, h.startLe, h.one, h.page, h.cnt, h.stackCnt, h.data, h.stack, h.top,
    h.size, h.dataEnd, h.sizeCnt, h.below⟩

/-- What should be so after a change of the break: the new page tables have room, and whatever is in
the memory and wherever more of it is found, nothing is lost. -/
structure Preserves (p : Process) (newEnd : ℕ) : Prop where
  inTable : p.segments (p.requested newEnd) p.md.mStackSize ≠ none
  fine : ∀ mem g,
    g.Valid (p.withMemory mem) ((p.requested newEnd + (USIZE + p.md.mStackSize)) % 2 ^ 32) →
      ∃ q, (p.withMemory mem).sBreak newEnd g = some q ∧ Fine (p.withMemory mem) newEnd q

/-- The condition.  All data is in the user space; data that keeps its size has as many pages with
the stack as the image; and data and stack come and go by whole pages. -/
def Keeps (p : Process) (newEnd : ℕ) : Prop :=
  p.md.mDataStartAddress / PAGE_SIZE + entryCnt (p.requested newEnd) ≤ 2048 ∧
    if newEnd < p.md.mDataStartAddress then KeepsBelow p newEnd
    else if p.requested newEnd = p.md.mDataSize then
      entryCnt p.md.mDataSize + entryCnt p.md.mStackSize ≤
        entryCnt (p.md.mDataSize + p.md.mStackSize)
    else if p.md.mDataSize < p.requested newEnd then KeepsGrowth p (p.requested newEnd)
    else KeepsShrinkage p (p.requested newEnd)

/-- `SBreak` with another end for which there is room. -/
theorem sBreak_some (hne : newEnd ≠ 0)
    (haccepts : accepts p.md.mTextStartAddress p.md.mTextSize (p.requested newEnd) p.md.mStackSize = true)
    (hsome : p.segments (p.requested newEnd) p.md.mStackSize = some entrys) (g : Grant) :
    p.sBreak newEnd g = some (p.after entrys (p.requested newEnd) g) := by
  unfold Process.sBreak
  dsimp only
  rw [if_neg hne, Process.establish_accepted haccepts, hsome]
  rfl

/-- The table has room exactly if the data ends in the user space. -/
theorem segments_iff (h : Shape p) (hnum : Numbers p f D S c cs) :
    p.segments n p.md.mStackSize ≠ none ↔ D + entryCnt n ≤ 2048 := by
  have htext := h.textBelow
  have htop := hnum.top
  have hend := hnum.dataEnd
  have hstart := hnum.startLe
  rw [hnum.start] at htext
  unfold Process.segments
  rw [mapSegments_eq, hnum.start, hnum.page, hnum.stackCnt]
  split
  · next hfits =>
    refine ⟨fun _ => by omega, fun _ hno => by cases hno⟩
  · next hno =>
    refine ⟨fun hne => absurd rfl hne, fun hle => absurd ?_ hno⟩
    exact ⟨by omega, by omega, by omega⟩

/-- The numbers of a new end that is in the table. -/
theorem requested_cases (hnum : Numbers p f D S c cs) (hlt : newEnd < 2 ^ 32)
    (hfits : D + entryCnt (p.requested newEnd) ≤ 2048) :
    (newEnd = p.md.mDataStartAddress + p.requested newEnd ∧ p.requested newEnd ≤ 2 ^ 23) ∨
      ∃ x, 0 < x ∧ x < 4096 ∧ p.md.mDataStartAddress = newEnd + x ∧ p.requested newEnd + x = 2 ^ 32 ∧
        entryCnt (p.requested newEnd) = 0 := by
  have hend := hnum.dataEnd
  have htop := hnum.top
  have hone := hnum.one
  have hstart := hnum.startLe
  unfold entryCnt PAGE_SIZE at hfits
  have hn : p.requested newEnd = (newEnd + 2 ^ 32 - p.md.mDataStartAddress) % 2 ^ 32 := rfl
  generalize p.requested newEnd = n at *
  by_cases hbelow : newEnd < p.md.mDataStartAddress
  · right
    refine ⟨p.md.mDataStartAddress - newEnd, by omega, by omega, by omega, by omega, ?_⟩
    unfold entryCnt PAGE_SIZE
    omega
  · left
    omega

/-- **When a change of the break keeps the data and the stack.** -/
theorem preserves_iff (h : Image p) (hne : newEnd ≠ 0) (hlt : newEnd < 2 ^ 32)
    (haccepts : accepts p.md.mTextStartAddress p.md.mTextSize (p.requested newEnd) p.md.mStackSize = true) :
    Preserves p newEnd ↔ Keeps p newEnd := by
  obtain ⟨f, D, S, c, cs, hnum⟩ := h.toShape.numbers
  obtain ⟨hd, hs, -, -⟩ := h.toShape.small
  have hroom : Preserves p newEnd → D + entryCnt (p.requested newEnd) ≤ 2048 :=
    fun hp => (segments_iff h.toShape hnum).mp hp.inTable
  unfold Keeps
  rw [hnum.start]
  suffices D + entryCnt (p.requested newEnd) ≤ 2048 → (Preserves p newEnd ↔ _) from
    ⟨fun hp => ⟨hroom hp, (this (hroom hp)).mp hp⟩, fun hk => (this hk.1).mpr hk.2⟩
  intro hfits
  have hin := (segments_iff h.toShape hnum).mpr hfits
  obtain ⟨entrys, hsome⟩ := Option.ne_none_iff_exists'.mp hin
  have hcases := requested_cases hnum hlt hfits
  -- the process that the call ends with, and a grant that always can be had
  have hfine : Preserves p newEnd ↔ ∀ mem g, g.Valid (p.withMemory mem)
      ((p.requested newEnd + (USIZE + p.md.mStackSize)) % 2 ^ 32) →
        Fine (p.withMemory mem) newEnd ((p.withMemory mem).after entrys (p.requested newEnd) g) := by
    have hend : ∀ mem g, (p.withMemory mem).sBreak newEnd g =
        some ((p.withMemory mem).after entrys (p.requested newEnd) g) :=
      fun mem => sBreak_some hne haccepts hsome
    constructor
    · rintro ⟨-, hp⟩ mem g hvalid
      obtain ⟨q, hq, hkept⟩ := hp mem g hvalid
      obtain rfl := Option.some.inj ((hend mem g).symm.trans hq)
      exact hkept
    · exact fun hp => ⟨hin, fun mem g hvalid => ⟨_, hend mem g, hp mem g hvalid⟩⟩
  have hgrant : ∀ mem, (p.withMemory mem).swappedIn.Valid (p.withMemory mem)
      ((p.requested newEnd + (USIZE + p.md.mStackSize)) % 2 ^ 32) := by
    intro mem
    refine swappedIn_valid (h.withMemory mem).toShape ?_
    unfold USIZE
    clear hfine hsome haccepts hroom
    generalize p.requested newEnd = n at *
    omega
  rw [hfine]
  generalize p.requested newEnd = n at *
  rcases hcases with ⟨hend, hn⟩ | ⟨x, hpos, hpage, hx, hwrap, hcnt⟩
  · rw [if_neg (by omega)]
    have hsize : (n + (USIZE + p.md.mStackSize)) % 2 ^ 32 = 4096 + n + p.md.mStackSize := by
      unfold USIZE
      clear hfine hsome haccepts hroom
      omega
    rw [hsize] at hgrant ⊢
    split
    · next heq =>
      subst heq
      rw [hnum.cnt, hnum.stackCnt]
      refine ⟨fun hp => ?_, fun hle mem g _ => ?_⟩
      · exact (equal_iff (h.withMemory p.mem) (hnum.withMemory p.mem) hsome _).mp (hp _ _ (hgrant p.mem))
      · exact (equal_iff (h.withMemory mem) (hnum.withMemory mem) hsome g).mpr hle
    · split
      · next hgrows =>
        refine ⟨fun hp => ?_, fun hk mem g hvalid => ?_⟩
        · rcases grown_stack (h.withMemory _) (hnum.withMemory (single hnum.last)) hsome (by omega) hgrows rfl
            (hp _ _ (hgrant _)) with hzero | hpages
          · have hnum' := hnum.withMemory
              (single (4096 * (f + 1) + max (p.md.mDataStartAddress - 4096 * D) p.md.mDataSize))
            have hdata := grown_data (h.withMemory _) hnum' hsome (by omega) hgrows hend hzero rfl
              (hp _ _ (hgrant _))
            exact .inl ⟨hzero, hdata⟩
          · exact .inr hpages
        · exact grown_fine (h.withMemory mem) (hnum.withMemory mem) hsome (by omega) hgrows hvalid hk
      · next hshrinks =>
        have hk : n + (p.md.mDataSize - n) = p.md.mDataSize := by omega
        have hshrunk : ∀ mem g, Shrunk (p.withMemory mem) n (p.md.mDataSize - n)
            ((p.withMemory mem).after entrys n g) := by
          intro mem g
          refine shrunk (h.withMemory mem) hsome ?_ (by omega) ?_ g
          · rw [hk]
            exact Nat.mod_eq_of_lt (by omega)
          · change _ < p.md.mDataSize + 4096
            omega
        refine ⟨fun hp => ?_, fun hkeeps mem g _ => ?_⟩
        · have hp' := hp (single hnum.last) _ (hgrant _)
          have hq := hshrunk (single hnum.last) (p.withMemory (single hnum.last)).swappedIn
          have h' := h.withMemory (single hnum.last)
          have hnum' := hnum.withMemory (single hnum.last)
          obtain ⟨hna, hsa⟩ := hq.aligned h' hnum' hk hp'.1
          exact ⟨hna, hsa, hq.data_aligned h' hnum' hk rfl hp', hq.start_aligned h' hnum' hk hend hp'⟩
        · exact (hshrunk mem g).fine (h.withMemory mem) (hnum.withMemory mem) hk hend hkeeps
  · rw [if_pos (by omega)]
    have hshrunk : ∀ mem g, Shrunk (p.withMemory mem) n (p.md.mDataSize + x)
        ((p.withMemory mem).after entrys n g) := by
      intro mem g
      refine shrunk (h.withMemory mem) hsome ?_ (by omega) ?_ g
      · change _ = p.md.mDataSize
        omega
      · change _ < p.md.mDataSize + 4096
        omega
    refine ⟨fun hp => ?_, fun hkeeps mem g _ => ?_⟩
    · have hq := hshrunk (single hnum.last) (p.withMemory (single hnum.last)).swappedIn
      exact hq.below_keeps (h.withMemory _) (hnum.withMemory _) hcnt rfl hx hpos rfl (hp _ _ (hgrant _))
    · exact (hshrunk mem g).below_fine (h.withMemory mem) (hnum.withMemory mem) hcnt rfl hx hkeeps

/-! ### Three pages of data -/

theorem image_loaded : Image (loaded 0x3000 0x1000) where
  aligned := by decide
  below := by decide
  size := by decide
  pages := rfl
  low := by decide
  stackLe := by decide
  dataBelow := by decide
  textBelow := fun _ => by decide
  text := fun _ => ⟨0x2000000, rfl, by decide⟩
  shows := (loaded_loaded ⟨by decide, by decide, by decide, by decide⟩).view

/-- A fourth page is added. -/
theorem preserves_iff_page : Preserves (loaded 0x3000 0x1000) 0x406000 :=
  (preserves_iff image_loaded (by decide) (by decide) (by decide)).mpr
    ⟨by decide, .inr ⟨by decide, by decide, by decide⟩⟩

/-- **The last page of the stack is given back** when the data shrinks by half a page. -/
theorem not_preserves : ∃ (p : Process) (newEnd : ℕ), Image p ∧ newEnd < p.md.mDataStartAddress + p.md.mDataSize ∧
    ∀ g, ∃ q, p.sBreak newEnd g = some q ∧ ¬Inside q := by
  refine ⟨loaded 0x3000 0x1000, 0x404800, image_loaded, by decide, fun g => ?_⟩
  obtain ⟨f, D, S, c, cs, hnum⟩ := image_loaded.toShape.numbers
  have hfits : D + entryCnt 0x2800 ≤ 2048 := by
    rw [← hnum.start]
    decide
  obtain ⟨entrys, hsome⟩ :=
    Option.ne_none_iff_exists'.mp ((segments_iff image_loaded.toShape hnum).mpr hfits)
  have hrequested : (loaded 0x3000 0x1000).requested 0x404800 = 0x2800 := by decide
  rw [← hrequested] at hsome
  refine ⟨_, sBreak_some (by decide) (by decide) hsome g, fun hin => ?_⟩
  rw [hrequested] at hsome hin
  have hq := shrunk (k := 0x800) image_loaded hsome (by decide) (by decide) (by decide) g
  exact absurd (hq.aligned image_loaded hnum (by decide) hin).1 (by decide)

end Break
end UnixV6pp
