import UnixV6pp.Proc.PageTable

/-!
# The two versions of the page tables

As long as the pages of the segments fit below the end of the user space, both versions
load the same page tables.  The test for this adds up the sizes in 32 bits, and lets
some pass for which the newer version writes behind its table.

* `Placed` — the pages of the segments fit.
* `Placed.agree` — **then both versions agree.**
* `agree_iff` — **and when they do.**
-/

namespace UnixV6pp
namespace Paging

variable {md : Descriptor} {l : Located} {rw : Bool} {cnt i phy k : ℕ}

/-! ### The table of the newer version -/

namespace Oos2

variable {entrys : UserPageTableArray}

/-- The segment is in the table. -/
def withSegment (i cnt phy : ℕ) (rw : Bool) (entrys : UserPageTableArray) : UserPageTableArray :=
  fun k => if i ≤ k ∧ k < i + cnt then ⟨true, rw, (phy + (k - i)) % 2 ^ 20⟩ else entrys k

theorem mapLoop_some (hfit : i + cnt ≤ arraySize) :
    mapLoop rw cnt i phy entrys = some (withSegment i cnt phy rw entrys) := by
  induction cnt generalizing i phy entrys with
  | zero =>
    unfold mapLoop withSegment
    congr 1
    funext k
    rw [if_neg (by omega)]
  | succ cnt ih =>
    unfold mapLoop
    rw [if_pos (by omega), ih (by omega)]
    congr 1
    funext k
    unfold withSegment
    by_cases hk : k = i
    · subst hk
      rw [if_neg (by omega), Function.update_self, if_pos (by omega), Nat.sub_self]
      rfl
    · rw [Function.update_of_ne hk]
      by_cases hin : i + 1 ≤ k ∧ k < i + 1 + cnt
      · rw [if_pos hin, if_pos (by omega)]
        congr 2
        omega
      · rw [if_neg hin, if_neg (by omega)]

/-- A segment that does not fit is written behind the table. -/
theorem mapLoop_none (hpos : 0 < cnt) (hfit : arraySize < i + cnt) :
    mapLoop rw cnt i phy entrys = none := by
  induction cnt generalizing i phy entrys with
  | zero => exact absurd hpos (Nat.lt_irrefl 0)
  | succ cnt ih =>
    unfold mapLoop
    split
    · next hi => exact ih (by unfold arraySize at *; omega) (by omega)
    · rfl

theorem mapEntry_some {size : ℕ} (hfit : i + entryCnt size ≤ arraySize) :
    mapEntry i size phy rw entrys =
      some (withSegment i (entryCnt size) phy rw entrys, phy + entryCnt size) := by
  unfold mapEntry
  rw [mapLoop_some hfit]
  rfl

theorem loadEntry_text (base : ℕ) (old : Entry) : loadEntry ⟨true, false, base⟩ l old =
    ⟨true, false, (base + l.textEntry) % 2 ^ 20⟩ := rfl

theorem loadEntry_image (base : ℕ) (old : Entry) : loadEntry ⟨true, true, base⟩ l old =
    ⟨true, true, (base + l.dataEntry) % 2 ^ 20⟩ := rfl

theorem mapEntry_none {size : ℕ} (hpos : 0 < entryCnt size) (hfit : arraySize < i + entryCnt size) :
    mapEntry i size phy rw entrys = none := by
  unfold mapEntry
  rw [mapLoop_none hpos hfit]
  rfl

end Oos2

/-! ### Segments that fit -/

/-- The text, the data and the stack have pages of their own, in this order. -/
structure Placed (md : Descriptor) : Prop where
  lo : 1024 ≤ md.mTextStartAddress / PAGE_SIZE
  data : md.mDataStartAddress / PAGE_SIZE =
    md.mTextStartAddress / PAGE_SIZE + entryCnt md.mTextSize
  room : md.mDataStartAddress / PAGE_SIZE + entryCnt md.mDataSize + entryCnt md.mStackSize ≤ 2048
  stack : entryCnt md.mStackSize ≠ 0 → stackPage md.mStackSize + entryCnt md.mStackSize = 2048

namespace Placed

/-- The table of the newer version then. -/
def segments (md : Descriptor) : Oos2.UserPageTableArray :=
  Oos2.withSegment (stackPage md.mStackSize) (entryCnt md.mStackSize) (1 + entryCnt md.mDataSize) true
    (Oos2.withSegment (md.mDataStartAddress / PAGE_SIZE) (entryCnt md.mDataSize) 1 true
      (Oos2.withSegment (md.mTextStartAddress / PAGE_SIZE) (entryCnt md.mTextSize) 0 false
        Oos2.clearUserPageTable))

theorem mapSegments_eq (h : Placed md) : Oos2.mapSegments md.mTextStartAddress md.mTextSize
    md.mDataStartAddress md.mDataSize md.mStackSize = some (segments md) := by
  obtain ⟨hlo, hdata, hroom, hstack⟩ := h
  unfold Oos2.mapSegments
  rw [Oos2.mapEntry_some (by unfold Oos2.arraySize; omega)]
  dsimp only [Option.bind_eq_bind, Option.bind_some]
  rw [Oos2.mapEntry_some (by unfold Oos2.arraySize; omega)]
  dsimp only [Option.bind_some]
  by_cases hzero : entryCnt md.mStackSize = 0
  · unfold Oos2.mapEntry
    rw [hzero]
    change some _ = some _
    congr 1
    funext k
    unfold segments Oos2.withSegment
    rw [hzero, if_neg (by omega)]
  · rw [Oos2.mapEntry_some (by unfold Oos2.arraySize; have := hstack hzero; omega)]
    rfl

/-- The pages of the segments. -/
def inText (md : Descriptor) (k : ℕ) : Prop :=
  md.mTextStartAddress / PAGE_SIZE ≤ k ∧
    k < md.mTextStartAddress / PAGE_SIZE + entryCnt md.mTextSize

def inData (md : Descriptor) (k : ℕ) : Prop :=
  md.mDataStartAddress / PAGE_SIZE ≤ k ∧
    k < md.mDataStartAddress / PAGE_SIZE + entryCnt md.mDataSize

def inStack (md : Descriptor) (k : ℕ) : Prop :=
  stackPage md.mStackSize ≤ k ∧ k < stackPage md.mStackSize + entryCnt md.mStackSize

instance : DecidablePred (inText md) := fun _ => inferInstanceAs (Decidable (_ ∧ _))
instance : DecidablePred (inData md) := fun _ => inferInstanceAs (Decidable (_ ∧ _))
instance : DecidablePred (inStack md) := fun _ => inferInstanceAs (Decidable (_ ∧ _))

/-- They do not overlap. -/
theorem not_inData (h : Placed md) {k : ℕ} (hk : inText md k) : ¬inData md k := by
  obtain ⟨hlo, hdata, hroom, hstack⟩ := h
  unfold inText at hk
  unfold inData
  omega

theorem not_inStack (h : Placed md) {k : ℕ} (hk : inText md k ∨ inData md k) : ¬inStack md k := by
  obtain ⟨hlo, hdata, hroom, hstack⟩ := h
  unfold inText inData at hk
  unfold inStack
  by_cases hzero : entryCnt md.mStackSize = 0
  · omega
  · have := hstack hzero
    omega

/-- The entries of the newer version, in the order in which the older one looks for them. -/
theorem segments_eq (h : Placed md) (k : ℕ) : segments md k =
    if inText md k then ⟨true, false, (k - md.mTextStartAddress / PAGE_SIZE) % 2 ^ 20⟩
    else if inData md k then ⟨true, true, (1 + (k - md.mDataStartAddress / PAGE_SIZE)) % 2 ^ 20⟩
    else if inStack md k then
      ⟨true, true, (1 + entryCnt md.mDataSize + (k - stackPage md.mStackSize)) % 2 ^ 20⟩
    else ⟨false, false, 0⟩ := by
  change (if inStack md k then _ else if inData md k then _ else if inText md k then _ else _) = _
  by_cases htext : inText md k
  · rw [if_neg (h.not_inStack (.inl htext)), if_neg (h.not_inData htext), if_pos htext, if_pos htext,
      Nat.zero_add]
  · rw [if_neg htext, if_neg htext]
    by_cases hdata : inData md k
    · rw [if_neg (h.not_inStack (.inr hdata)), if_pos hdata, if_pos hdata]
    · rw [if_neg hdata, if_neg hdata]
      rfl

/-- The older version counts from the beginning of the second page table. -/
theorem startIdx_iff {x n j : ℕ} (hx : n ≠ 0 → 1024 ≤ x ∧ x + n ≤ 2048) :
    Oos1.startIdx x ≤ j ∧ j < (Oos1.startIdx x + n) % 2 ^ 32 ↔
      x ≤ 1024 + j ∧ 1024 + j < x + n := by
  unfold Oos1.startIdx
  by_cases hn : n = 0
  · omega
  · have := hx hn
    omega

theorem sub_startIdx {x j : ℕ} (hlo : 1024 ≤ x) (hhi : x ≤ 2048) (hx : x ≤ 1024 + j) :
    Oos1.startIdx x ≤ j ∧ j - Oos1.startIdx x = 1024 + j - x := by
  unfold Oos1.startIdx
  omega

/-- The entries of the older version. -/
theorem mapPage_eq (h : Placed md) (old : Entry) (j : ℕ) :
    Oos1.mapPage md l old j =
      if inText md (1024 + j) then
        ⟨true, false, (1024 + j - md.mTextStartAddress / PAGE_SIZE + l.textEntry) % 2 ^ 20⟩
      else if inData md (1024 + j) then
        ⟨true, true, (1 + (1024 + j - md.mDataStartAddress / PAGE_SIZE) + l.dataEntry) % 2 ^ 20⟩
      else if inStack md (1024 + j) then
        ⟨true, true, (1 + entryCnt md.mDataSize + (1024 + j - stackPage md.mStackSize) + l.dataEntry) %
          2 ^ 20⟩
      else { old with mPresent := false } := by
  obtain ⟨hlo, hdata, hroom, hstack⟩ := h
  have htextIff := startIdx_iff (x := md.mTextStartAddress / PAGE_SIZE) (n := entryCnt md.mTextSize)
    (j := j) fun _ => ⟨hlo, by omega⟩
  have hdataIff := startIdx_iff (x := md.mDataStartAddress / PAGE_SIZE) (n := entryCnt md.mDataSize)
    (j := j) fun _ => ⟨by omega, by omega⟩
  have hstackIff := startIdx_iff (x := stackPage md.mStackSize) (n := entryCnt md.mStackSize)
    (j := j) fun hne => by have := hstack hne; omega
  unfold Oos1.mapPage
  dsimp only
  by_cases ht : inText md (1024 + j)
  · obtain ⟨-, hsub⟩ := sub_startIdx hlo (by omega) ht.1
    rw [if_pos (htextIff.2 ht), if_pos ht, hsub]
  · rw [if_neg fun hk => ht (htextIff.1 hk), if_neg ht]
    by_cases hd : inData md (1024 + j)
    · obtain ⟨-, hsub⟩ := sub_startIdx (by omega) (by omega) hd.1
      rw [if_pos (hdataIff.2 hd), if_pos hd, hsub, Nat.add_comm 1]
    · rw [if_neg fun hk => hd (hdataIff.1 hk), if_neg hd]
      by_cases hk : inStack md (1024 + j)
      · have hne : entryCnt md.mStackSize ≠ 0 := by
          intro h0
          have := hk.2
          have := hk.1
          omega
        have hc := hstack hne
        obtain ⟨hle, hsub⟩ := sub_startIdx (by omega) (by omega) hk.1
        have hsum : j + entryCnt md.mDataSize - Oos1.startIdx (stackPage md.mStackSize) + 1 =
            1 + entryCnt md.mDataSize + (1024 + j - stackPage md.mStackSize) := by omega
        rw [if_pos (hstackIff.2 hk), if_pos hk, hsum]
      · rw [if_neg fun h => hk (hstackIff.1 h), if_neg hk]

/-- The two versions of one entry. -/
theorem same_entry (h : Placed md) (old old' : Entry) (j : ℕ) :
    let e := Oos1.mapPage md l old j
    let e' := Oos2.loadEntry (segments md (1024 + j)) l old'
    e.mPresent = e'.mPresent ∧ (e.mPresent = true → e.mReadWriter = e'.mReadWriter ∧
      e.mPageBaseAddress = e'.mPageBaseAddress) := by
  intro e e'
  have he : e = _ := h.mapPage_eq old j
  have he' : e' = Oos2.loadEntry _ l old' := congrArg (Oos2.loadEntry · l old') (h.segments_eq (1024 + j))
  rw [he, he']
  by_cases ht : inText md (1024 + j)
  · rw [if_pos ht, if_pos ht, Oos2.loadEntry_text, Nat.mod_add_mod]
    exact ⟨rfl, fun _ => ⟨rfl, rfl⟩⟩
  · rw [if_neg ht, if_neg ht]
    by_cases hd : inData md (1024 + j)
    · rw [if_pos hd, if_pos hd, Oos2.loadEntry_image, Nat.mod_add_mod]
      exact ⟨rfl, fun _ => ⟨rfl, rfl⟩⟩
    · rw [if_neg hd, if_neg hd]
      by_cases hk : inStack md (1024 + j)
      · rw [if_pos hk, if_pos hk, Oos2.loadEntry_image, Nat.mod_add_mod]
        exact ⟨rfl, fun _ => ⟨rfl, rfl⟩⟩
      · rw [if_neg hk, if_neg hk]
        exact ⟨rfl, nofun⟩

/-- Below the text nothing is mapped. -/
theorem segments_below (h : Placed md) {j : ℕ} (hj : j < 1024) :
    (segments md j).mPresent = false := by
  obtain ⟨hlo, hdata, hroom, hstack⟩ := h
  unfold segments Oos2.withSegment
  by_cases hzero : entryCnt md.mStackSize = 0
  · rw [if_neg (by omega), if_neg (by omega), if_neg (by omega)]
    rfl
  · have := hstack hzero
    rw [if_neg (by omega), if_neg (by omega), if_neg (by omega)]
    rfl

/-- Two entries that are the same for the processor. -/
theorem same_withRuntime {t t' : Tables} (h : Same t t') : Same (withRuntime t) (withRuntime t') := by
  intro i j
  unfold withRuntime
  by_cases hi : i = 0
  · rw [hi, Function.update_self, Function.update_self]
    by_cases hj : j = 0
    · rw [hj, Function.update_self, Function.update_self]
      exact ⟨rfl, fun _ => ⟨rfl, rfl⟩⟩
    · rw [Function.update_of_ne hj, Function.update_of_ne hj]
      exact h 0 j
  · rw [Function.update_of_ne hi, Function.update_of_ne hi]
    exact h i j

theorem same_tables (h : Placed md) (t t' : Tables) :
    Same (Oos1.mapToPageTable md l t) (Oos2.mapToPageTable (segments md) l t') := by
  apply same_withRuntime
  intro i j
  dsimp only
  by_cases hi : i = 1
  · have hval : (i : ℕ) * 1024 + j = 1024 + j := by
      rw [hi, Fin.val_one, Nat.one_mul]
    rw [if_pos hi, hval]
    exact h.same_entry (t i j) (t' i j) j
  · have hval : (i : ℕ) * 1024 + j = j := by omega
    rw [if_neg hi, hval]
    unfold Oos2.loadEntry
    rw [h.segments_below j.isLt, if_neg Bool.false_ne_true]
    exact ⟨rfl, nofun⟩

/-- **Both versions load the same page tables.** -/
theorem agree (h : Placed md) : Agree md := by
  intro l t t'
  refine ⟨segments md, _, ?_, h.same_tables t t', fun l' u u' => h.same_tables u u'⟩
  unfold Oos2.establishUserPageTable
  rw [h.mapSegments_eq]
  rfl

end Placed

/-! ### What is accepted -/

section

variable (hstart : 4096 ∣ md.mTextStartAddress) (hlo : 0x400000 ≤ md.mTextStartAddress)
  (hhi : md.mTextStartAddress < 0x800000) (htext : 4096 ∣ md.mTextSize)
  (hdata : md.mDataStartAddress = (md.mTextStartAddress + md.mTextSize) % 2 ^ 32)
  (hsum : md.mTextSize + md.mDataSize + md.mStackSize < 2 ^ 32)
  (haccepts : accepts md.mTextStartAddress md.mTextSize md.mDataSize md.mStackSize = true)

include hstart hlo hhi htext hdata hsum

include haccepts in
/-- The segments fit if the sum in the test does not wrap, or if it wraps because of one segment
that is counted as no page. -/
theorem placed_of_accepts (h : md.mTextSize + md.mDataSize + md.mStackSize + 4096 < 2 ^ 32 ∨
    2 ^ 32 - 4096 < md.mDataSize ∨ 2 ^ 32 - 4096 < md.mStackSize) : Placed md := by
  unfold accepts USER_SPACE_SIZE PAGE_SIZE at haccepts
  simp only [decide_eq_true_eq] at haccepts
  obtain ⟨a, ha⟩ := hstart
  obtain ⟨T, hT⟩ := htext
  have hcnt : entryCnt md.mTextSize = T := by
    unfold entryCnt PAGE_SIZE
    omega
  have hpage : md.mTextStartAddress / PAGE_SIZE = a := by
    unfold PAGE_SIZE
    omega
  have hdataPage : md.mDataStartAddress / PAGE_SIZE = a + T := by
    unfold PAGE_SIZE
    rw [hdata]
    omega
  constructor
  · omega
  · omega
  · rw [hdataPage]
    unfold entryCnt PAGE_SIZE
    omega
  · unfold entryCnt stackPage USER_SPACE_SIZE PAGE_SIZE
    omega

/-- Otherwise the newer version writes behind its table. -/
theorem mapSegments_none (hwrap : 2 ^ 32 ≤ md.mTextSize + md.mDataSize + md.mStackSize + 4096)
    (hdataLe : md.mDataSize ≤ 2 ^ 32 - 4096) (hstackLe : md.mStackSize ≤ 2 ^ 32 - 4096) :
    Oos2.mapSegments md.mTextStartAddress md.mTextSize md.mDataStartAddress md.mDataSize
      md.mStackSize = none := by
  obtain ⟨a, ha⟩ := hstart
  obtain ⟨T, hT⟩ := htext
  have hcnt : entryCnt md.mTextSize = T := by
    unfold entryCnt PAGE_SIZE
    omega
  have hpage : md.mTextStartAddress / PAGE_SIZE = a := by
    unfold PAGE_SIZE
    omega
  unfold Oos2.mapSegments
  rw [hpage]
  by_cases htextFits : a + T ≤ 2048
  · have hdataPage : md.mDataStartAddress / PAGE_SIZE = a + T := by
      unfold PAGE_SIZE
      rw [hdata]
      omega
    rw [Oos2.mapEntry_some (by rw [hcnt]; exact htextFits), hdataPage]
    dsimp only [Option.bind_eq_bind, Option.bind_some]
    by_cases hdataFits : a + T + entryCnt md.mDataSize ≤ 2048
    · rw [Oos2.mapEntry_some hdataFits]
      dsimp only [Option.bind_some]
      -- the stack is nearly the whole address space, and its beginning is behind the table
      have hstackCnt : 0 < entryCnt md.mStackSize ∧
          2048 < stackPage md.mStackSize + entryCnt md.mStackSize := by
        unfold entryCnt stackPage PAGE_SIZE USER_SPACE_SIZE at *
        omega
      rw [Oos2.mapEntry_none hstackCnt.1 hstackCnt.2]
      rfl
    · rw [Oos2.mapEntry_none (by omega) (by unfold Oos2.arraySize; omega)]
      rfl
  · rw [Oos2.mapEntry_none (by omega) (by unfold Oos2.arraySize; omega)]
    rfl

end

theorem not_agree_of_none (h : Oos2.mapSegments md.mTextStartAddress md.mTextSize
    md.mDataStartAddress md.mDataSize md.mStackSize = none) : ¬Agree md := by
  intro hagree
  obtain ⟨entrys, tables, heq, -⟩ := hagree ⟨0, none⟩ (fun _ _ => runtimeEntry) fun _ _ => runtimeEntry
  unfold Oos2.establishUserPageTable at heq
  rw [h] at heq
  cases heq

/-- **When both versions agree.**  For segments whose sizes do not wrap and which are accepted, both
versions load the same page tables exactly if the sum in the test does not wrap either, or if the
data or the stack is so large that it is counted as no page at all. -/
theorem agree_iff (hstart : 4096 ∣ md.mTextStartAddress) (hlo : 0x400000 ≤ md.mTextStartAddress)
    (hhi : md.mTextStartAddress < 0x800000) (htext : 4096 ∣ md.mTextSize)
    (hdata : md.mDataStartAddress = (md.mTextStartAddress + md.mTextSize) % 2 ^ 32)
    (hsum : md.mTextSize + md.mDataSize + md.mStackSize < 2 ^ 32)
    (haccepts : accepts md.mTextStartAddress md.mTextSize md.mDataSize md.mStackSize = true) :
    Agree md ↔ md.mTextSize + md.mDataSize + md.mStackSize + 4096 < 2 ^ 32 ∨
      2 ^ 32 - 4096 < md.mDataSize ∨ 2 ^ 32 - 4096 < md.mStackSize := by
  constructor
  · intro h
    by_contra hwrap
    refine not_agree_of_none ?_ h
    exact mapSegments_none hstart hlo hhi htext hdata hsum (by omega) (by omega) (by omega)
  · intro h
    exact (placed_of_accepts hstart hlo hhi htext hdata hsum haccepts h).agree

/-- A program of one page of text, three pages of data and one of stack. -/
def onePageText : Descriptor := ⟨0x401000, 0x1000, 0x402000, 0x2100, 0x1000⟩

theorem agree_onePageText : Agree onePageText :=
  (agree_iff (by decide) (by decide) (by decide) (by decide) (by decide) (by decide)
    (by decide)).2 (.inl (by decide))

/-- Data of nearly the whole address space is accepted. -/
def hugeData : Descriptor := ⟨0x400000, 0, 0x400000, 0xFFFFE000, 0x1000⟩

theorem not_agree_hugeData : accepts hugeData.mTextStartAddress hugeData.mTextSize hugeData.mDataSize
    hugeData.mStackSize = true ∧ ¬Agree hugeData := by
  refine ⟨by decide, not_agree_of_none ?_⟩
  exact mapSegments_none (by decide) (by decide) (by decide) (by decide) (by decide) (by decide)
    (by decide) (by decide) (by decide)

end Paging
end UnixV6pp
