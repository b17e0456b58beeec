import UnixV6pp.Proc.BreakRun
import UnixV6pp.Proc.Layouts

/-!
# What a change of the break keeps

In the image the stack follows the data byte by byte; in the page tables it begins with
a page of its own.  `SBreak` moves the stack by as many bytes as the data grows or
shrinks, and gives back all pages from the one on in which the image ends.  This fits the
page tables only as long as whole pages come and go.

* `Image` — the image of a process, and what is read from it through the page tables.
* `resize_equal`, `resize_shrunk`, `resize_grown` — what becomes of the image.
* `kept_iff` — what is kept of the data and the stack, in terms of the memory.
-/

namespace UnixV6pp
namespace Break

open Words Paging Copy

variable {p q : Process} {newEnd n d s a page : ℕ} {g : Grant}

/-! ### The page tables -/

/-- The page tables show data and stack of these sizes. -/
def Process.View (p : Process) (d s : ℕ) : Prop :=
  ∃ t, p.tables = Oos2.mapToPageTable
    (layout p.md.mTextStartAddress p.md.mTextSize p.md.mDataStartAddress d s) p.located t

/-- The entries behind the kernel's page are those of the table. -/
theorem entryOf_mapToPageTable (entrys : Oos2.UserPageTableArray) (l : Located) (t : Tables)
    (hpos : 0 < page) (hlt : page < 2048) :
    ∃ old, entryOf (Oos2.mapToPageTable entrys l t) page = Oos2.loadEntry (entrys page) l old := by
  have hpage : (Fin.ofNat 2 (page / 1024)).val * 1024 + (Fin.ofNat 1024 page).val = page := by
    rw [Fin.val_ofNat, Fin.val_ofNat]
    omega
  refine ⟨t (Fin.ofNat 2 (page / 1024)) (Fin.ofNat 1024 page), ?_⟩
  unfold entryOf Oos2.mapToPageTable withRuntime
  by_cases hi : Fin.ofNat 2 (page / 1024) = 0
  · have hj : Fin.ofNat 1024 page ≠ 0 := by
      intro hj
      rw [hi, hj] at hpage
      simp only [Fin.val_zero] at hpage
      omega
    rw [hi, Function.update_self, Function.update_of_ne hj]
    rw [hi] at hpage
    dsimp only
    rw [hpage]
  · rw [Function.update_of_ne hi, hpage]

namespace Process.View

variable (hv : p.View d s) (hpos : 0 < page) (hlt : page < 2048)

include hv hpos hlt

theorem stack (hpage : page ∈ pagesOf (stackPage s) s) : entryOf p.tables page =
    ⟨true, true, ((1 + entryCnt d + (page - stackPage s)) % 2 ^ 20 + p.pAddr / PAGE_SIZE) % 2 ^ 20⟩ := by
  obtain ⟨t, ht⟩ := hv
  obtain ⟨old, heq⟩ := entryOf_mapToPageTable (layout p.md.mTextStartAddress p.md.mTextSize
    p.md.mDataStartAddress d s) p.located t hpos hlt
  rw [ht, heq, layout_stack hpage, Oos2.loadEntry_image]
  rfl

theorem data (hpage : page ∈ pagesOf (p.md.mDataStartAddress / PAGE_SIZE) d)
    (hnot : page ∉ pagesOf (stackPage s) s) : entryOf p.tables page =
    ⟨true, true, ((1 + (page - p.md.mDataStartAddress / PAGE_SIZE)) % 2 ^ 20 + p.pAddr / PAGE_SIZE) %
      2 ^ 20⟩ := by
  obtain ⟨t, ht⟩ := hv
  obtain ⟨old, heq⟩ := entryOf_mapToPageTable (layout p.md.mTextStartAddress p.md.mTextSize
    p.md.mDataStartAddress d s) p.located t hpos hlt
  rw [ht, heq, layout_data hpage hnot, Oos2.loadEntry_image]
  rfl

theorem text (hpage : page ∈ pagesOf (p.md.mTextStartAddress / PAGE_SIZE) p.md.mTextSize)
    (hdata : page ∉ pagesOf (p.md.mDataStartAddress / PAGE_SIZE) d)
    (hnot : page ∉ pagesOf (stackPage s) s) : entryOf p.tables page =
    ⟨true, false, ((page - p.md.mTextStartAddress / PAGE_SIZE) % 2 ^ 20 + p.located.textEntry) %
      2 ^ 20⟩ := by
  obtain ⟨t, ht⟩ := hv
  obtain ⟨old, heq⟩ := entryOf_mapToPageTable (layout p.md.mTextStartAddress p.md.mTextSize
    p.md.mDataStartAddress d s) p.located t hpos hlt
  rw [ht, heq, layout_text hpage hdata hnot, Oos2.loadEntry_text]

theorem absent (htext : page ∉ pagesOf (p.md.mTextStartAddress / PAGE_SIZE) p.md.mTextSize)
    (hdata : page ∉ pagesOf (p.md.mDataStartAddress / PAGE_SIZE) d)
    (hnot : page ∉ pagesOf (stackPage s) s) : (entryOf p.tables page).mPresent = false := by
  obtain ⟨t, ht⟩ := hv
  obtain ⟨old, heq⟩ := entryOf_mapToPageTable (layout p.md.mTextStartAddress p.md.mTextSize
    p.md.mDataStartAddress d s) p.located t hpos hlt
  rw [ht, heq, layout_absent htext hdata hnot]
  rfl

end Process.View

/-! ### The image -/

/-- The shape of an image.  The kernel's page, the data and the stack are one behind the other in
whole pages of memory; in the user space the text is below the data and the data below the stack. -/
structure Shape (p : Process) : Prop where
  aligned : p.pAddr % PAGE_SIZE = 0
  below : p.pAddr / PAGE_SIZE + entryCnt p.pSize < 2 ^ 20
  size : p.pSize = USIZE + p.md.mDataSize + p.md.mStackSize
  pages : p.pages = frames p.pSize p.pAddr
  low : PAGE_SIZE ≤ p.md.mDataStartAddress
  stackLe : p.md.mStackSize ≤ USER_SPACE_SIZE
  dataBelow : p.md.mDataStartAddress + p.md.mDataSize ≤ stackPage p.md.mStackSize * PAGE_SIZE
  textBelow : entryCnt p.md.mTextSize ≠ 0 →
    p.md.mTextStartAddress / PAGE_SIZE + entryCnt p.md.mTextSize ≤ p.md.mDataStartAddress / PAGE_SIZE
  text : entryCnt p.md.mTextSize ≠ 0 →
    ∃ x, p.xCaddr = some x ∧ x / PAGE_SIZE + entryCnt p.md.mTextSize ≤ 2 ^ 20

/-- The image of a process, as the page tables show it. -/
structure Image (p : Process) : Prop extends Shape p where
  shows : p.View p.md.mDataSize p.md.mStackSize

/-- How many pages a size that does not wrap counts for. -/
theorem entryCnt_bounds {x : ℕ} (hx : x ≤ 2 ^ 31) :
    x ≤ 4096 * entryCnt x ∧ 4096 * entryCnt x < x + 4096 := by
  unfold entryCnt PAGE_SIZE
  omega

/-- The numbers by which an image is described. -/
structure Numbers (p : Process) (f D S c cs : ℕ) : Prop where
  addr : p.pAddr = 4096 * f
  frame : p.pAddr / PAGE_SIZE = f
  start : p.md.mDataStartAddress / PAGE_SIZE = D
  startLe : 4096 * D ≤ p.md.mDataStartAddress ∧ p.md.mDataStartAddress < 4096 * D + 4096
  one : 1 ≤ D
  page : stackPage p.md.mStackSize = S
  cnt : entryCnt p.md.mDataSize = c
  stackCnt : entryCnt p.md.mStackSize = cs
  data : p.md.mDataSize ≤ 4096 * c ∧ 4096 * c < p.md.mDataSize + 4096
  stack : p.md.mStackSize ≤ 4096 * cs ∧ 4096 * cs < p.md.mStackSize + 4096
  top : S + cs = 2048
  size : p.pSize = 4096 + p.md.mDataSize + p.md.mStackSize
  dataEnd : p.md.mDataStartAddress + p.md.mDataSize ≤ 4096 * S
  sizeCnt : p.pSize ≤ 4096 * entryCnt p.pSize ∧ 4096 * entryCnt p.pSize < p.pSize + 4096
  below : f + entryCnt p.pSize < 2 ^ 20

theorem Shape.numbers (h : Shape p) : ∃ f D S c cs, Numbers p f D S c cs := by
  obtain ⟨haligned, hbelow, hsize, -, hlow, hstack, hdata, -, -⟩ := h
  have htop := stackPage_add hstack
  unfold PAGE_SIZE USER_SPACE_SIZE USIZE at *
  have hs := entryCnt_bounds (x := p.md.mStackSize) (by omega)
  have hd := entryCnt_bounds (x := p.md.mDataSize) (by omega)
  have hp := entryCnt_bounds (x := p.pSize) (by omega)
  refine ⟨p.pAddr / 4096, p.md.mDataStartAddress / 4096, stackPage p.md.mStackSize, _, _, ?_, rfl,
    rfl, ⟨by omega, by omega⟩, by omega, rfl, rfl, rfl, hd, hs, htop, by omega, by omega, hp, hbelow⟩
  omega

/-- All of it is small, and below the end of the memory. -/
theorem Shape.small (h : Shape p) : p.md.mDataSize ≤ 2 ^ 23 ∧ p.md.mStackSize ≤ 2 ^ 23 ∧
    p.pAddr + p.pSize < 2 ^ 32 ∧ p.pSize = 4096 + p.md.mDataSize + p.md.mStackSize := by
  obtain ⟨f, D, S, c, cs, hnum⟩ := h.numbers
  obtain ⟨haddr, -, -, -, -, -, -, -, -, -, htop, hsize, hend, hsizeCnt, hbelow⟩ := hnum
  have hstack := h.stackLe
  unfold USER_SPACE_SIZE at hstack
  refine ⟨by omega, by omega, by omega, hsize⟩

/-! ### What is read -/

/-- The stack ends with the last page of the image. -/
theorem readUser_stack {f S cs c : ℕ} (hv : p.View d s) (haddr : p.pAddr = 4096 * f)
    (hs : s ≤ 4096 * cs) (hcs : entryCnt s = cs) (hc : entryCnt d = c) (hS : stackPage s = S)
    (htop : S + cs = 2048) (hbelow : f + c + cs < 2 ^ 20) (hlow : PAGE_SIZE ≤ a)
    (ha : USER_SPACE_SIZE ≤ a + s) (hlt : a < USER_SPACE_SIZE) :
    readUser p a = some (p.mem (4096 * (f + 1 + c + cs) - (USER_SPACE_SIZE - a))) := by
  unfold USER_SPACE_SIZE PAGE_SIZE at *
  have hpage : a / 4096 ∈ pagesOf (stackPage s) s := by
    rw [pagesOf, hcs, hS, Set.mem_Ico]
    omega
  have hentry := hv.stack (by omega) (by omega) hpage
  rw [hS, hc] at hentry
  unfold readUser USER_SPACE_SIZE PAGE_SIZE
  dsimp only
  rw [hentry, if_pos ⟨hlt, rfl⟩]
  dsimp only
  congr 2
  have hmem := hpage.1
  unfold PAGE_SIZE
  omega

/-- The data begins with the second page of the image. -/
theorem readUser_data {f D S c : ℕ} (hv : p.View d s) (haddr : p.pAddr = 4096 * f)
    (hD : p.md.mDataStartAddress / PAGE_SIZE = D) (hc : entryCnt d = c) (hS : stackPage s = S)
    (hbelow : f + c < 2 ^ 20) (hlow : PAGE_SIZE ≤ a) (hlt : a < USER_SPACE_SIZE)
    (ha : 4096 * D ≤ a) (ha' : a < 4096 * (D + c)) (hnot : a < 4096 * S) :
    readUser p a = some (p.mem (4096 * (f + 1) + (a - 4096 * D))) := by
  have hpage : a / 4096 ∈ pagesOf (p.md.mDataStartAddress / PAGE_SIZE) d := by
    rw [pagesOf, hD, hc, Set.mem_Ico]
    omega
  have hnot' : a / 4096 ∉ pagesOf (stackPage s) s := by
    rw [pagesOf, hS, Set.mem_Ico]
    omega
  unfold USER_SPACE_SIZE at hlt
  unfold PAGE_SIZE at hlow
  have hentry := hv.data (by omega) (by omega) hpage hnot'
  rw [hD] at hentry
  unfold readUser USER_SPACE_SIZE
  unfold PAGE_SIZE at *
  dsimp only
  rw [hentry, if_pos ⟨hlt, rfl⟩]
  dsimp only
  congr 2
  omega

/-! ### What the call does -/

/-- Where the image is after it has found more memory, what the memory holds then, and where the
text is. -/
def Grant.address : Grant → ℕ
  | .moved newAddress => newAddress
  | .swapped newAddress _ _ => newAddress

def Grant.memory (p : Process) : Grant → ℕ → UInt8
  | .moved newAddress => copyUp p.mem p.pAddr newAddress p.pSize
  | .swapped _ _ mem => mem

def Grant.textAddress (p : Process) : Grant → Option ℕ
  | .moved _ => p.xCaddr
  | .swapped _ xCaddr _ => xCaddr

/-- Memory that `Expand` may get: whole pages that are free, or, by way of the swap area, pages that
hold what was in the image, and a text that is in memory again. -/
def Grant.Valid (p : Process) (newSize : ℕ) (g : Grant) : Prop :=
  0 < g.address ∧ g.address % PAGE_SIZE = 0 ∧ g.address / PAGE_SIZE + entryCnt newSize < 2 ^ 20 ∧
    match g with
    | .moved newAddress => Disjoint (frames newSize newAddress) p.pages
    | .swapped newAddress xCaddr mem =>
      (∀ i < p.pSize, mem (newAddress + i) = p.mem (p.pAddr + i)) ∧
        (entryCnt p.md.mTextSize ≠ 0 →
          ∃ x, xCaddr = some x ∧ x / PAGE_SIZE + entryCnt p.md.mTextSize ≤ 2 ^ 20)

/-- What the second half of `SBreak` leaves alone, and the page tables that it loads. -/
structure Resized (p : Process) (n : ℕ) (q : Process) : Prop where
  textStart : q.md.mTextStartAddress = p.md.mTextStartAddress
  textSize : q.md.mTextSize = p.md.mTextSize
  dataStart : q.md.mDataStartAddress = p.md.mDataStartAddress
  view : q.View n p.md.mStackSize

/-- The table of the segments is the layout. -/
theorem layout_of_segments {entrys : Oos2.UserPageTableArray} (hsome : p.segments n s = some entrys) :
    entrys = layout p.md.mTextStartAddress p.md.mTextSize p.md.mDataStartAddress n s := by
  unfold Process.segments at hsome
  rw [mapSegments_eq] at hsome
  split at hsome
  · exact (Option.some.inj hsome).symm
  · cases hsome

/-- What is loaded shows the sizes of the descriptor. -/
theorem Loaded.view (h : Loaded p) : p.View p.md.mDataSize p.md.mStackSize := by
  obtain ⟨t, ht⟩ := h.shows
  rw [layout_of_segments h.entrys] at ht
  exact ⟨t, ht⟩

theorem resized {entrys : Oos2.UserPageTableArray}
    (hsome : p.segments n p.md.mStackSize = some entrys) (g : Grant) :
    Resized p n ((p.established entrys).resize Process.mapToPageTable n g) := by
  obtain ⟨hmd, hkept⟩ := Process.resize_kept (p.established entrys) n g
  have hshows : ((p.established entrys).resize Process.mapToPageTable n g).Shows :=
    Process.resize_shows ⟨p.tables, rfl⟩
  set q := (p.established entrys).resize Process.mapToPageTable n g
  have hentrys := layout_of_segments hsome
  obtain ⟨t, ht⟩ := hshows
  rw [hkept] at ht
  refine ⟨by rw [hmd]; rfl, by rw [hmd]; rfl, by rw [hmd]; rfl, t, ?_⟩
  rw [ht, hmd]
  exact congrArg (fun e => Oos2.mapToPageTable e q.located t) hentrys

/-- **The data keeps its size.** -/
theorem resize_equal (p : Process) (g : Grant) :
    let q := p.resize Process.mapToPageTable p.md.mDataSize g
    q.mem = p.mem ∧ q.pAddr = p.pAddr ∧ q.xCaddr = p.xCaddr ∧ q.pages = p.pages := by
  intro q
  have hq : q = _ := Process.resize_same Process.mapToPageTable p g
  rw [hq]
  exact ⟨rfl, rfl, rfl, rfl⟩

theorem minus_neg {x k : ℕ} (h : x + k < 2 ^ 32) : minus x (-k) = x + k := by
  unfold minus
  omega

theorem minus_sub {x k m : ℕ} (hx : x < 2 ^ 32) (hk : k ≤ x) (hm : m ≤ k) :
    minus x ((k : ℤ) - m) = x - (k - m) := by
  unfold minus
  omega

/-- **The image shrinks** by `k` bytes: the stack moves down, and pages are given back. -/
theorem resize_shrunk {k : ℕ} (h : Shape p)
    (hk : (n + k) % 2 ^ 32 = p.md.mDataSize) (hpos : 0 < k) (hle : k < p.md.mDataSize + 4096)
    (g : Grant) :
    let q := p.resize Process.mapToPageTable n g
    q.mem = copyUp p.mem (p.pAddr + 4096 + p.md.mDataSize) (p.pAddr + 4096 + p.md.mDataSize - k)
      p.md.mStackSize ∧
    q.pAddr = p.pAddr ∧ q.xCaddr = p.xCaddr ∧
    q.pages = p.pages \ frames k (p.pAddr + 4096 + p.md.mDataSize + p.md.mStackSize - k) := by
  obtain ⟨hd, hs, hend, hsize⟩ := h.small
  have hchange : int32 ((n : ℤ) - p.md.mDataSize) = -k := by
    rw [int32_eq]
    omega
  have hnew : (n + (USIZE + p.md.mStackSize)) % 2 ^ 32 = p.pSize - k := by
    unfold USIZE
    omega
  have hdst : (p.pAddr + (p.pSize - k) + 2 ^ 32 - p.md.mStackSize) % 2 ^ 32 =
      p.pAddr + 4096 + p.md.mDataSize - k := by
    clear hk hchange hnew
    omega
  have hsrc : minus (p.pAddr + 4096 + p.md.mDataSize - k) (-k) =
      p.pAddr + 4096 + p.md.mDataSize := by
    have hsum : p.pAddr + 4096 + p.md.mDataSize - k + k = p.pAddr + 4096 + p.md.mDataSize := by omega
    rw [minus_neg (by omega), hsum]
  have hfree : (p.pAddr + (p.pSize - k)) % 2 ^ 32 =
      p.pAddr + 4096 + p.md.mDataSize + p.md.mStackSize - k := by
    clear hk hchange hnew
    omega
  have hdiff : p.pSize - (p.pSize - k) = k := by omega
  unfold Process.resize
  dsimp only
  rw [hchange, hnew, if_pos (by omega), hdst, hsrc]
  unfold Process.expand
  dsimp only
  rw [if_pos (by omega), hfree, hdiff]
  exact ⟨rfl, rfl, rfl, rfl⟩

/-- **The image grows:** it finds other memory, and the stack moves up. -/
theorem resize_grown (h : Shape p) (hn : n ≤ 2 ^ 30) (hlt : p.md.mDataSize < n)
    (hvalid : g.Valid p (4096 + n + p.md.mStackSize)) :
    let q := p.resize Process.mapToPageTable n g
    q.mem = copyDown (g.memory p) (g.address + 4096 + p.md.mDataSize + p.md.mStackSize)
      (g.address + 4096 + n + p.md.mStackSize) p.md.mStackSize ∧
    q.pAddr = g.address ∧ q.xCaddr = g.textAddress p ∧
    ∀ x ∈ frames (4096 + n + p.md.mStackSize) g.address, x ∈ q.pages := by
  obtain ⟨hd, hs, -, hsize⟩ := h.small
  obtain ⟨hpos, haligned, hfits, hkind⟩ := hvalid
  unfold PAGE_SIZE at haligned hfits
  have hcnt := entryCnt_bounds (x := 4096 + n + p.md.mStackSize) (by omega)
  have hend : g.address + (4096 + n + p.md.mStackSize) < 2 ^ 32 := by omega
  have hchange : int32 ((n : ℤ) - p.md.mDataSize) = (n : ℤ) - p.md.mDataSize := by
    rw [int32_eq]
    omega
  have hnew : (n + (USIZE + p.md.mStackSize)) % 2 ^ 32 = 4096 + n + p.md.mStackSize := by
    unfold USIZE
    omega
  have hdst : (g.address + (4096 + n + p.md.mStackSize)) % 2 ^ 32 =
      g.address + 4096 + n + p.md.mStackSize := by
    rw [Nat.mod_eq_of_lt hend]
    omega
  have hsrc : minus (g.address + 4096 + n + p.md.mStackSize) ((n : ℤ) - p.md.mDataSize) =
      g.address + 4096 + p.md.mDataSize + p.md.mStackSize := by
    rw [minus_sub (by omega) (by omega) hlt.le]
    omega
  unfold Process.resize
  dsimp only
  rw [hchange, hnew, if_neg (by omega), if_pos (by omega)]
  unfold Process.expand
  dsimp only
  rw [if_neg (by omega)]
  cases g with
  | moved newAddress =>
    unfold Grant.address at hdst hsrc
    change (_ = _ ∧ _ = _ ∧ _ = _ ∧ _)
    dsimp only [Process.mapToPageTable]
    rw [hdst, hsrc]
    refine ⟨rfl, rfl, rfl, fun x hx => ?_⟩
    rw [Finset.mem_sdiff, Finset.mem_union]
    refine ⟨.inr hx, fun hold => ?_⟩
    rw [← h.pages] at hold
    exact Finset.disjoint_left.mp hkind hx hold
  | swapped newAddress xCaddr mem =>
    unfold Grant.address at hdst hsrc
    dsimp only [Process.mapToPageTable]
    rw [hdst, hsrc]
    exact ⟨rfl, rfl, rfl, fun x hx => Finset.mem_union_right _ hx⟩

/-- The memory that is found holds what was in the image. -/
theorem Grant.Valid.memory (h : Shape p) (hvalid : g.Valid p (4096 + n + p.md.mStackSize))
    (hn : n ≤ 2 ^ 30) (i : ℕ) (hi : i < p.pSize) :
    g.memory p (g.address + i) = p.mem (p.pAddr + i) := by
  obtain ⟨f, D, S, c, cs, hnum⟩ := h.numbers
  obtain ⟨haddr, hframe, -, -, -, -, -, -, -, -, -, hsize, -, hsizeCnt, -⟩ := hnum
  obtain ⟨hpos, haligned, hfits, hkind⟩ := hvalid
  cases g with
  | moved newAddress =>
    -- free pages do not overlap with the image
    have hstack := h.stackLe
    unfold USER_SPACE_SIZE at hstack
    have hcnt := entryCnt_bounds (x := 4096 + n + p.md.mStackSize) (by omega)
    unfold Grant.address PAGE_SIZE at *
    dsimp only at hkind hpos haligned
    rw [h.pages] at hkind
    unfold frames PAGE_SIZE at hkind
    have hapart : newAddress / 4096 + entryCnt (4096 + n + p.md.mStackSize) ≤ p.pAddr / 4096 ∨
        p.pAddr / 4096 + entryCnt p.pSize ≤ newAddress / 4096 := by
      by_contra hno
      have hmem : max (newAddress / 4096) (p.pAddr / 4096) ∈ Finset.Ico (newAddress / 4096)
          (newAddress / 4096 + entryCnt (4096 + n + p.md.mStackSize)) := by
        rw [Finset.mem_Ico]
        omega
      have hnot := Finset.disjoint_left.mp hkind hmem
      rw [Finset.mem_Ico] at hnot
      omega
    change copyUp p.mem p.pAddr newAddress p.pSize (newAddress + i) = _
    rw [copyUp_apply (by omega), if_pos (by omega), Nat.add_sub_cancel_left]
  | swapped newAddress xCaddr mem => exact hkind.1 i hi

/-! ### What is mapped -/

/-- The page numbers do not wrap. -/
theorem mod_sum {f r : ℕ} (h : f + r < 2 ^ 20) : (r % 2 ^ 20 + f) % 2 ^ 20 = f + r := by omega

/-- All pages are inside if those of the image are. -/
theorem inside_of_view (hq : q.View n s)
    (htext : entryCnt q.md.mTextSize ≠ 0 →
      ∃ x, q.xCaddr = some x ∧ x / PAGE_SIZE + entryCnt q.md.mTextSize ≤ 2 ^ 20)
    (hbelow : q.pAddr / PAGE_SIZE + entryCnt n + entryCnt s < 2 ^ 20)
    (hpages : ∀ r, 1 ≤ r → r ≤ entryCnt n + entryCnt s → q.pAddr / PAGE_SIZE + r ∈ q.pages) :
    Inside q := by
  intro page hpos hlt hpresent
  by_cases hstack : page ∈ pagesOf (stackPage s) s
  · rw [hq.stack hpos hlt hstack, InImage, if_pos rfl]
    obtain ⟨h1, h2⟩ := hstack
    dsimp only
    rw [mod_sum (by omega)]
    exact hpages _ (by omega) (by omega)
  · by_cases hdata : page ∈ pagesOf (q.md.mDataStartAddress / PAGE_SIZE) n
    · rw [hq.data hpos hlt hdata hstack, InImage, if_pos rfl]
      obtain ⟨h1, h2⟩ := hdata
      dsimp only
      rw [mod_sum (by omega)]
      exact hpages _ (by omega) (by omega)
    · by_cases htextPage : page ∈ pagesOf (q.md.mTextStartAddress / PAGE_SIZE) q.md.mTextSize
      · rw [hq.text hpos hlt htextPage hdata hstack, InImage, if_neg Bool.false_ne_true]
        obtain ⟨h1, h2⟩ := htextPage
        obtain ⟨x, hx, hfits⟩ := htext (by omega)
        have hentry : q.located.textEntry = x / PAGE_SIZE := by
          rw [Located.textEntry, Process.located, hx, Option.getD_some]
        refine ⟨x, hx, ?_⟩
        rw [frames, Finset.mem_Ico, hentry]
        dsimp only
        omega
      · rw [hq.absent hpos hlt htextPage hdata hstack] at hpresent
        cases hpresent

/-- Every page of the image is mapped somewhere, unless the stack lies on the data. -/
theorem page_of_inside {D S : ℕ} (hq : q.View n s) (hin : Inside q)
    (hD : q.md.mDataStartAddress / PAGE_SIZE = D) (hone : 1 ≤ D) (hS : stackPage s = S)
    (hroom : D + entryCnt n ≤ S) (htop : S + entryCnt s = 2048)
    (hbelow : q.pAddr / PAGE_SIZE + entryCnt n + entryCnt s < 2 ^ 20) {r : ℕ} (hr : 1 ≤ r)
    (hr' : r ≤ entryCnt n + entryCnt s) : q.pAddr / PAGE_SIZE + r ∈ q.pages := by
  by_cases hdata : r ≤ entryCnt n
  · -- a page of the data
    have hpage : D + (r - 1) ∈ pagesOf (q.md.mDataStartAddress / PAGE_SIZE) n := by
      rw [pagesOf, hD, Set.mem_Ico]
      omega
    have hnot : D + (r - 1) ∉ pagesOf (stackPage s) s := by
      rw [pagesOf, hS, Set.mem_Ico]
      omega
    have hentry := hq.data (by omega) (by omega) hpage hnot
    have hmem := hin (D + (r - 1)) (by omega) (by omega) (by rw [hentry])
    rw [hentry, InImage, if_pos rfl, hD] at hmem
    dsimp only at hmem
    have hpage' : 1 + (D + (r - 1) - D) = r := by omega
    rwa [hpage', mod_sum (by omega)] at hmem
  · -- a page of the stack
    have hpage : S + (r - 1 - entryCnt n) ∈ pagesOf (stackPage s) s := by
      rw [pagesOf, hS, Set.mem_Ico]
      omega
    have hentry := hq.stack (by omega) (by omega) hpage
    have hmem := hin (S + (r - 1 - entryCnt n)) (by omega) (by omega) (by rw [hentry])
    rw [hentry, InImage, if_pos rfl, hS] at hmem
    dsimp only at hmem
    have hpage' : 1 + entryCnt n + (S + (r - 1 - entryCnt n) - S) = r := by omega
    rwa [hpage', mod_sum (by omega)] at hmem

/-! ### What is kept -/

/-- An address of the data below the old and the new end, or an address of the stack. -/
def IsKept (p : Process) (newEnd a : ℕ) : Prop :=
  (p.md.mDataStartAddress ≤ a ∧ a < p.md.mDataStartAddress + p.md.mDataSize ∧ a < newEnd) ∨
    (USER_SPACE_SIZE ≤ a + p.md.mStackSize ∧ a < USER_SPACE_SIZE)

/-- What was read there is read again. -/
def Kept (p : Process) (newEnd : ℕ) (q : Process) : Prop :=
  ∀ a b, IsKept p newEnd a → readUser p a = some b → readUser q a = some b

/-- Behind the last page of the data nothing is mapped. -/
theorem readUser_absent {D S : ℕ} (hv : p.View d s) (hD : p.md.mDataStartAddress / PAGE_SIZE = D)
    (hS : stackPage s = S) (htext : entryCnt p.md.mTextSize ≠ 0 →
      p.md.mTextStartAddress / PAGE_SIZE + entryCnt p.md.mTextSize ≤ D)
    (hone : 1 ≤ D) (hlt : S ≤ 2048) (ha : 4096 * (D + entryCnt d) ≤ a) (ha' : a < 4096 * S) :
    readUser p a = none := by
  have hstack : a / 4096 ∉ pagesOf (stackPage s) s := by
    rw [pagesOf, hS, Set.mem_Ico]
    omega
  have hdata : a / 4096 ∉ pagesOf (p.md.mDataStartAddress / PAGE_SIZE) d := by
    rw [pagesOf, hD, Set.mem_Ico]
    omega
  have htextPage : a / 4096 ∉ pagesOf (p.md.mTextStartAddress / PAGE_SIZE) p.md.mTextSize := by
    rw [pagesOf, Set.mem_Ico]
    omega
  have habsent := hv.absent (by omega) (by omega) htextPage hdata hstack
  unfold readUser
  unfold PAGE_SIZE at *
  dsimp only
  rw [habsent, if_neg]
  rintro ⟨-, h⟩
  cases h

/-- **What is kept, in terms of the memory.**  The stack is read at the end of the image, from its
last page down, and the data from its second page up. -/
theorem kept_iff {f D S c cs f' c' : ℕ} (h : Image p) (hnum : Numbers p f D S c cs)
    (hq : Resized p n q) (haddr : q.pAddr = 4096 * f') (hc' : entryCnt n = c')
    (hbelow : f + c + cs < 2 ^ 20) (hbelow' : f' + c' + cs < 2 ^ 20) :
    Kept p newEnd q ↔
      (∀ k, 1 ≤ k → k ≤ p.md.mStackSize →
        q.mem (4096 * (f' + 1 + c' + cs) - k) = p.mem (4096 * (f + 1 + c + cs) - k)) ∧
      ∀ a, p.md.mDataStartAddress ≤ a → a < p.md.mDataStartAddress + p.md.mDataSize → a < newEnd →
        a < 4096 * (D + c) → a < 4096 * (D + c') ∧
          q.mem (4096 * (f' + 1) + (a - 4096 * D)) = p.mem (4096 * (f + 1) + (a - 4096 * D)) := by
  have hD' : q.md.mDataStartAddress / PAGE_SIZE = D := by
    rw [hq.dataStart]
    exact hnum.start
  have htext : entryCnt q.md.mTextSize ≠ 0 →
      q.md.mTextStartAddress / PAGE_SIZE + entryCnt q.md.mTextSize ≤ D := by
    rw [hq.textSize, hq.textStart, ← hnum.start]
    exact h.textBelow
  have htext₀ : entryCnt p.md.mTextSize ≠ 0 →
      p.md.mTextStartAddress / PAGE_SIZE + entryCnt p.md.mTextSize ≤ D := by
    rw [← hnum.start]
    exact h.textBelow
  obtain ⟨haddr₀, -, hstart, hstartLe, hone, hpage, hcnt, hstackCnt, hdata, hstack, htop, -, hend, -,
    -⟩ := hnum
  have hstackLe := h.stackLe
  have hlow : ∀ a, USER_SPACE_SIZE ≤ a + p.md.mStackSize → PAGE_SIZE ≤ a := by
    intro a ha
    unfold USER_SPACE_SIZE PAGE_SIZE at *
    omega
  -- both ways of reading the stack
  have hold : ∀ a, USER_SPACE_SIZE ≤ a + p.md.mStackSize → a < USER_SPACE_SIZE →
      readUser p a = some (p.mem (4096 * (f + 1 + c + cs) - (USER_SPACE_SIZE - a))) :=
    fun a ha hlt => readUser_stack h.shows haddr₀ hstack.1 hstackCnt hcnt hpage htop hbelow (hlow a ha) ha
      hlt
  have hnew : ∀ a, USER_SPACE_SIZE ≤ a + p.md.mStackSize → a < USER_SPACE_SIZE →
      readUser q a = some (q.mem (4096 * (f' + 1 + c' + cs) - (USER_SPACE_SIZE - a))) :=
    fun a ha hlt => readUser_stack hq.view haddr hstack.1 hstackCnt hc' hpage htop hbelow' (hlow a ha) ha
      hlt
  have huser : ∀ a, a < 4096 * S → a < USER_SPACE_SIZE := by
    intro a ha
    unfold USER_SPACE_SIZE
    omega
  have hpos := h.low
  unfold PAGE_SIZE at hpos
  constructor
  · intro hkept
    constructor
    · intro k hk hks
      have ha : USER_SPACE_SIZE ≤ USER_SPACE_SIZE - k + p.md.mStackSize := by omega
      have hlt : USER_SPACE_SIZE - k < USER_SPACE_SIZE := by
        unfold USER_SPACE_SIZE
        omega
      have hread := hkept _ _ (.inr ⟨ha, hlt⟩) (hold _ ha hlt)
      have hback : USER_SPACE_SIZE - (USER_SPACE_SIZE - k) = k := by omega
      rw [hnew _ ha hlt, hback] at hread
      exact Option.some.inj hread
    · intro a ha hdataLt hnewLt hpages
      have hread := hkept _ _ (.inl ⟨ha, hdataLt, hnewLt⟩) (readUser_data h.shows haddr₀ hstart hcnt hpage
        (by omega) (by unfold PAGE_SIZE; omega) (huser a (by omega)) (by omega) hpages (by omega))
      by_cases hin : a < 4096 * (D + c')
      · rw [readUser_data hq.view haddr hD' hc' hpage (by omega) (by unfold PAGE_SIZE; omega)
          (huser a (by omega)) (by omega) hin (by omega)] at hread
        exact ⟨hin, Option.some.inj hread⟩
      · rw [readUser_absent hq.view hD' hpage htext hone (by omega) (by rw [hc']; omega) (by omega)] at hread
        cases hread
  · rintro ⟨hstackMem, hdataMem⟩ a b hkept hread
    rcases hkept with ⟨ha, hdataLt, hnewLt⟩ | ⟨ha, hlt⟩
    · by_cases hin : a < 4096 * (D + c)
      · obtain ⟨hin', hmem⟩ := hdataMem a ha hdataLt hnewLt hin
        rw [readUser_data h.shows haddr₀ hstart hcnt hpage (by omega) (by unfold PAGE_SIZE; omega)
          (huser a (by omega)) (by omega) hin (by omega), ← hmem] at hread
        rw [readUser_data hq.view haddr hD' hc' hpage (by omega) (by unfold PAGE_SIZE; omega)
          (huser a (by omega)) (by omega) hin' (by omega), hread]
      · rw [readUser_absent h.shows hstart hpage htext₀ hone (by omega) (by rw [hcnt]; omega) (by omega)] at hread
        cases hread
    · have hk : USER_SPACE_SIZE - a ≤ p.md.mStackSize := by omega
      rw [hold a ha hlt, ← hstackMem _ (by omega) hk] at hread
      rw [hnew a ha hlt, hread]

end Break
end UnixV6pp
