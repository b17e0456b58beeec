import UnixV6pp.Proc.Images

/-!
# Tables of images

What a change of one image does to the tables, and to the owners of pages and blocks.

* `Tables.set` — **one image changes**, and the texts with it.
* `memOwn_frame`, `swapOwn_frame` — everybody else keeps what it has.
* `memory_xccDecOf` — what `XccDec` gives back.
-/

namespace UnixV6pp
namespace Images

open Allocator Proc Tally Image

/-! ### The tables -/

section Tables

variable {ν : Type} {process : Proc.Slot → Image} {text text' : TextSlot → Text ν} {i j : Proc.Slot}
  {t : TextSlot} {x : Image}

theorem user_of_inMemory (h : x.inMemory = some t) : x.user = some t := by
  unfold inMemory at h
  unfold user
  split at h <;> simp_all

theorem tally_set (f : Image → Option TextSlot) (i : Proc.Slot) (x : Image) (t : TextSlot) :
    tally (fun j => f (Function.update process i x j)) t =
      tally (fun j => f (process j)) t - (if f (process i) = some t then 1 else 0) +
        (if f x = some t then 1 else 0) := by
  have heq : (fun j => f (Function.update process i x j)) =
      Function.update (fun j => f (process j)) i (f x) := by
    funext j
    by_cases hj : j = i
    · rw [hj, Function.update_self, Function.update_self]
    · rw [Function.update_of_ne hj, Function.update_of_ne hj]
  rw [heq, tally_update]

namespace Tables

variable (h : Tables process text)

include h

/-- A process that has a text counts. -/
theorem count_ne_zero (hi : (process i).user = some t) : (text t).xCount ≠ 0 := by
  have hone := one_le_tally (g := fun i => (process i).user) (x := i) hi
  have hcount := h.count t
  omega

theorem ccount_ne_zero (hi : (process i).inMemory = some t) : (text t).xCcount ≠ 0 := by
  have hone := one_le_tally (g := fun i => (process i).inMemory) (x := i) hi
  have hcount := h.ccount t
  omega

/-- Who needs a text in memory has it. -/
theorem count_of_ccount (hc : (text t).xCcount ≠ 0) : (text t).xCount ≠ 0 := by
  have hcc := h.ccount t
  by_contra hzero
  have hnone : tally (fun i => (process i).inMemory) t = 0 :=
    tally_eq_zero fun i hi => h.count_ne_zero (user_of_inMemory hi) hzero
  omega

/-- An image changes, and the texts with it. -/
theorem set (hx : x.Ok)
    (hsized : ∀ t, (text' t).xCount ≠ 0 →
      (text' t).xIptr ≠ none ∧ Sized (text' t).xSize ∧ Aligned (text' t).xSize)
    (hcount : ∀ t, ((text' t).xCount : ℤ) = (text t).xCount -
      (if (process i).user = some t then 1 else 0) + (if x.user = some t then 1 else 0))
    (hccount : ∀ t, ((text' t).xCcount : ℤ) = (text t).xCcount -
      (if (process i).inMemory = some t then 1 else 0) + (if x.inMemory = some t then 1 else 0))
    (hwaited : ∀ j, (process j).stage ≠ .waiting i)
    (hwaiting : ∀ j, x.stage = .waiting j → j ≠ i ∧ (process j).stage = .null)
    (hreading : System.Reading x = true → ∀ j, j ≠ i → System.Reading (process j) = false)
    (hreadingText : ∀ d, x.stage = .readingText d →
      ∃ t, x.pTextp = some t ∧ (text' t).xCcount = 0)
    (hread : ∀ j d t, j ≠ i → (process j).stage = .readingText d → (process j).pTextp = some t →
      (text t).xCcount = 0 → (text' t).xCcount = 0)
    (hiPut : x.stage = .iPut → ∃ t, x.pTextp = some t ∧ (text' t).xCount = 0 ∧
      (text' t).xIptr ≠ none ∧
        ∀ j, j ≠ i → (process j).stage = .iPut → (process j).pTextp ≠ some t)
    (hput : ∀ j t, j ≠ i → (process j).stage = .iPut → (process j).pTextp = some t →
      (text t).xCount = 0 → (text t).xIptr ≠ none →
        (text' t).xCount = 0 ∧ (text' t).xIptr ≠ none)
    (hsystem : i = 0 → x.pTextp = none ∧ (x.stage = .loaded ∨ ∃ c, x.stage = .forking c)) :
    Tables (Function.update process i x) text' where
  image j := by
    by_cases hj : j = i
    · rw [hj, Function.update_self]
      exact hx
    · rw [Function.update_of_ne hj]
      exact h.image j
  sized := hsized
  count t := by rw [tally_set user, hcount, h.count]
  ccount t := by rw [tally_set inMemory, hccount, h.ccount]
  waiting j k hj := by
    have := h.waiting j k
    have := hwaited j
    have := hwaiting k
    grind [Function.update_apply]
  reading j k hj hk := by
    have := h.reading j k
    grind [Function.update_apply]
  readingText j d hj := by
    have := h.readingText j d
    have := hreadingText d
    grind [Function.update_apply]
  iPut j hj := by
    have := h.iPut j
    grind [Function.update_apply]
  once j k t hj hk hjt hkt := by
    have := h.once j k t
    grind [Function.update_apply]
  system := by
    have := h.system
    by_cases hi : i = 0
    · subst hi
      rw [Function.update_self]
      exact hsystem rfl
    · rw [Function.update_of_ne (Ne.symm hi)]
      exact h.system

end Tables

end Tables

/-! ### Who has what, after a change -/

section Frames

variable {ν : Type} {s s' : System ν} {i j : Proc.Slot} {t : TextSlot} {map₀ : List MapNode}

/-- Only the image of `i` changes, for which nobody is in `Wait`, and texts that are used keep their
size. -/
structure Only (s s' : System ν) (i : Proc.Slot) : Prop where
  process : ∀ j, j ≠ i → s'.process j = s.process j
  size : ∀ t, (s.text t).xCount ≠ 0 → (s'.text t).xSize = (s.text t).xSize
  waited : ∀ j, (s.process j).stage ≠ .waiting i

theorem not_waited (h : Tables s.process s.text) (hi : (s.process i).stage ≠ .null)
    (j : Proc.Slot) : (s.process j).stage ≠ .waiting i := fun hj => hi (h.waiting j i hj)

theorem memOwn_frame (h : Tables s.process s.text) (ho : Only s s' i) (l : Proc.Slot ⊕ TextSlot)
    (hl : l ≠ .inl i) (ht : ∀ t, l = .inr t → (s'.text t).pages = (s.text t).pages) :
    s'.memOwn l = s.memOwn l := by
  rcases l with j | t
  · have hj := ho.process j fun heq => hl (congrArg Sum.inl heq)
    simp only [System.memOwn]
    split
    · rfl
    · rw [hj]
      cases hstage : (s.process j).stage with
      | readingText d =>
        -- the text is in use, and keeps its size
        obtain ⟨t, htext, -⟩ := h.readingText j d hstage
        have huser : (s.process j).user = some t := by simp only [Image.user, hstage, htext]
        simp only [System.textSize, hj, htext, ho.size t (h.count_ne_zero huser)]
      | _ => simp only [Image.pages, hstage]
  · exact ht t rfl

theorem swapOwn_frame (ho : Only s s' i) (l : Proc.Slot ⊕ TextSlot) (hl : l ≠ .inl i)
    (ht : ∀ t, l = .inr t → (s'.text t).blocks = (s.text t).blocks) :
    s'.swapOwn l = s.swapOwn l := by
  rcases l with j | t
  · have hj := ho.process j fun heq => hl (congrArg Sum.inl heq)
    simp only [System.swapOwn, hj]
    cases hstage : (s.process j).stage with
    | waiting c =>
      have hc := ho.process c fun heq => ho.waited j (heq ▸ hstage)
      simp only [Image.blocks, hstage, hc]
    | _ => simp only [Image.blocks, hstage]
  · exact ht t rfl

/-- Where a process other than the first one has its image. -/
theorem memOwn_image (hi : i ≠ 0) : s.memOwn (.inl i) = (s.process i).pages (s.textSize i) :=
  if_neg hi

end Frames

/-! ### One image changes -/

section Changes

variable {ν : Type} {s s' : System ν} {i j c : Proc.Slot} {t u : TextSlot} {map₀ : List MapNode}
  {x : Image} {newSize d : UInt32} {stage : Stage}

/-- As many owners as there are processes and texts, and one more. -/
abbrev OWNERS : ℕ := NPROC + NTEXT + 1

theorem card_owners : Fintype.card (Proc.Slot ⊕ TextSlot) < OWNERS := by
  simp [Fintype.card_sum, OWNERS]

@[simp] theorem process_setProcess :
    (s.setProcess i x).process = Function.update s.process i x := rfl

@[simp] theorem text_setProcess : (s.setProcess i x).text = s.text := rfl

@[simp] theorem memory_setProcess : (s.setProcess i x).memory = s.memory := rfl

@[simp] theorem swapper_setProcess : (s.setProcess i x).swapper = s.swapper := rfl

@[simp] theorem process_setStage : (s.setStage i stage).process =
    Function.update s.process i { s.process i with stage := stage } := rfl

@[simp] theorem text_setStage : (s.setStage i stage).text = s.text := rfl

@[simp] theorem memory_setStage : (s.setStage i stage).memory = s.memory := rfl

@[simp] theorem swapper_setStage : (s.setStage i stage).swapper = s.swapper := rfl

theorem pages_pos {n : UInt32} (hn : Sized n) : 0 < Allocator.pages n := by
  rw [UInt32.lt_iff_toNat_lt, toNat_pages (hn.2.trans (by omega)), UInt32.toNat_zero]
  have := hn.1
  omega

theorem blocks_pos {n : UInt32} (hn : Sized n) : 0 < Allocator.blocks n := by
  have hsum : (n + (BLOCK_SIZE - 1)).toNat = n.toNat + 511 := by
    rw [UInt32.toNat_add, show (BLOCK_SIZE - 1).toNat = 511 from rfl]
    have := hn.2
    omega
  rw [UInt32.lt_iff_toNat_lt, Allocator.blocks, UInt32.toNat_div, hsum, UInt32.toNat_zero,
    show BLOCK_SIZE.toNat = 512 from rfl]
  have := hn.1
  omega

/-- The texts stay as they are, and who has them. -/
theorem Tables.setImage (h : Tables s.process s.text) (hx : x.Ok)
    (huser : x.user = (s.process i).user) (hmem : x.inMemory = (s.process i).inMemory)
    (hwaited : ∀ j, (s.process j).stage ≠ .waiting i)
    (hwaiting : ∀ j, x.stage = .waiting j → j ≠ i ∧ (s.process j).stage = .null)
    (hreading : System.Reading x = false) (hiPut : x.stage ≠ .iPut)
    (hsystem : i = 0 → x.pTextp = none ∧ (x.stage = .loaded ∨ ∃ c, x.stage = .forking c)) :
    Tables (Function.update s.process i x) s.text := by
  refine h.set hx h.sized (fun t => ?_) (fun t => ?_) hwaited hwaiting (fun hr => ?_)
    (fun d hd => ?_) (fun _ _ _ _ _ _ => id) (fun hp => absurd hp hiPut)
    (fun _ _ _ _ _ hc hp => ⟨hc, hp⟩) hsystem
  · rw [huser]
    omega
  · rw [hmem]
    omega
  · exact absurd (hreading.symm.trans hr) Bool.false_ne_true
  · rw [System.Reading, hd] at hreading
    cases hreading

/-- A process that runs keeps its text when its image changes. -/
theorem Tables.resize (h : Tables s.process s.text) (hrun : s.Runs i) (hn : Sized newSize)
    {addr : UInt32} (haddr : Aligned addr) :
    Tables (Function.update s.process i
      { s.process i with pSize := newSize, pAddr := addr }) s.text := by
  obtain ⟨hi, hstage⟩ := hrun
  refine h.setImage ?_ rfl rfl (not_waited h (by rw [hstage]; decide)) (fun j hj => ?_) ?_ ?_
    (fun heq => absurd heq hi)
  · simp only [Image.Ok, hstage]
    exact ⟨hn, haddr⟩
  · rw [hstage] at hj
    cases hj
  · simp only [System.Reading, hstage]
  · rw [hstage]
    decide

theorem only_update (h : Tables s.process s.text) (hi : (s.process i).stage ≠ .null)
    (hp : s'.process = Function.update s.process i x)
    (hsize : ∀ t, (s'.text t).xSize = (s.text t).xSize) : Only s s' i where
  process j hj := by rw [hp, Function.update_of_ne hj]
  size t _ := hsize t
  waited := not_waited h hi

theorem Tables.ne_zero (h : Tables s.process s.text) (hl : (s.process i).stage ≠ .loaded)
    (hf : ∀ c, (s.process i).stage ≠ .forking c) : i ≠ 0 := by
  rintro rfl
  rcases h.system.2 with hstage | ⟨c, hstage⟩
  · exact hl hstage
  · exact hf c hstage

/-- A process other than the first one goes on with the same text. -/
theorem Tables.replace (h : Tables s.process s.text) (hx : x.Ok)
    (huser : x.user = (s.process i).user) (hmem : x.inMemory = (s.process i).inMemory)
    (hnull : (s.process i).stage ≠ .null) (hi : i ≠ 0) (hwaiting : ∀ j, x.stage ≠ .waiting j)
    (hreading : System.Reading x = false) (hiPut : x.stage ≠ .iPut) :
    Tables (Function.update s.process i x) s.text :=
  h.setImage hx huser hmem (not_waited h hnull) (fun j hj => absurd hj (hwaiting j)) hreading hiPut
    fun heq => absurd heq hi

/-- Who leaves the memory does not need its text there any more. -/
theorem Tables.leave (h : Tables s.process s.text) {o : Option TextSlot} {text' : TextSlot → Text ν}
    (htext : ∀ t, text' t =
      { s.text t with xCcount := (s.text t).xCcount - if o = some t then 1 else 0 })
    (hmem : (s.process i).inMemory = o) (hx : x.Ok) (huser : x.user = (s.process i).user)
    (hnone : x.inMemory = none) (hwaiting : ∀ j, x.stage ≠ .waiting j)
    (hreading : System.Reading x = false) (hiPut : x.stage ≠ .iPut)
    (hnull : (s.process i).stage ≠ .null) (hi : i ≠ 0) :
    Tables (Function.update s.process i x) text' := by
  refine h.set hx (fun t ht => ?_) (fun t => ?_) (fun t => ?_) (not_waited h hnull)
    (fun j hj => absurd hj (hwaiting j)) (fun hr => ?_) (fun d hd => ?_)
    (fun j d t _ _ _ hc => ?_) (fun hp => absurd hp hiPut) (fun j t _ _ _ hc hp => ?_)
    fun heq => absurd heq hi
  · rw [htext] at ht ⊢
    exact h.sized t ht
  · rw [htext, huser]
    simp
  · have hne := h.ccount_ne_zero (i := i) (t := t)
    rw [htext, hmem, hnone] at *
    split
    · next ho =>
      have hpos := hne ho
      simp
      omega
    · simp
  · exact absurd (hreading.symm.trans hr) Bool.false_ne_true
  · rw [System.Reading, hd] at hreading
    cases hreading
  · rw [htext]
    dsimp only
    omega
  · rw [htext]
    exact ⟨hc, hp⟩

/-- A new process has the text of its parent, in memory or on the swap area only. -/
theorem Tables.bear (h : Tables s.process s.text) (hstage : (s.process i).stage = .loaded)
    (hchild : (s.process c).stage = .null) (hwaited : ∀ j, (s.process j).stage ≠ .waiting c)
    {text' : TextSlot → Text ν} (hx : x.Ok) (htextp : x.pTextp = (s.process i).pTextp)
    (hnew : x.stage = .loaded ∨ ∃ blkno, x.stage = .born blkno)
    (htext : ∀ t, text' t = { s.text t with
      xCount := (s.text t).xCount + if (s.process i).pTextp = some t then 1 else 0
      xCcount := (s.text t).xCcount + if x.inMemory = some t then 1 else 0 }) :
    Tables (Function.update s.process c x) text' := by
  have huser : (s.process i).user = (s.process i).pTextp := by simp only [Image.user, hstage]
  have hmem : (s.process i).inMemory = (s.process i).pTextp := by simp only [Image.inMemory, hstage]
  have hcount : ∀ t, (s.process i).pTextp = some t → (s.text t).xCount ≠ 0 :=
    fun t ht => h.count_ne_zero (huser.trans ht)
  have hccount : ∀ t, (s.process i).pTextp = some t → (s.text t).xCcount ≠ 0 :=
    fun t ht => h.ccount_ne_zero (hmem.trans ht)
  have huserc : (s.process c).user = none := by simp only [Image.user, hchild]
  have hmemc : (s.process c).inMemory = none := by simp only [Image.inMemory, hchild]
  have huserx : x.user = (s.process i).pTextp := by
    rcases hnew with heq | ⟨blkno, heq⟩ <;> simp only [Image.user, heq, htextp]
  have hmemx : ∀ t, x.inMemory = some t → (s.process i).pTextp = some t :=
    fun t ht => huserx ▸ user_of_inMemory ht
  have hc : c ≠ 0 := h.ne_zero (by simp [hchild]) (by simp [hchild])
  refine h.set hx (fun t ht => ?_) (fun t => ?_) (fun t => ?_) hwaited (fun j hj => ?_)
    (fun hr => ?_) (fun d hd => ?_) (fun j d t _ _ _ hz => ?_) (fun hp => ?_)
    (fun j t _ _ _ hz hp => ?_) fun heq => absurd heq hc
  · rw [htext] at ht ⊢
    refine h.sized t ?_
    by_cases hit : (s.process i).pTextp = some t
    · exact hcount t hit
    · simpa [hit] using ht
  · rw [htext, huserc, huserx]
    grind
  · rw [htext, hmemc]
    grind
  · rcases hnew with heq | ⟨blkno, heq⟩ <;> rw [heq] at hj <;> cases hj
  · rcases hnew with heq | ⟨blkno, heq⟩ <;> simp [System.Reading, heq] at hr
  · rcases hnew with heq | ⟨blkno, heq⟩ <;> rw [heq] at hd <;> cases hd
  · have hxt : x.inMemory ≠ some t := fun heq => hccount t (hmemx t heq) hz
    simp [htext, hxt, hz]
  · rcases hnew with heq | ⟨blkno, heq⟩ <;> rw [heq] at hp <;> cases hp
  · have hit : (s.process i).pTextp ≠ some t := fun heq => hcount t heq hz
    simp [htext, hit, hz, hp]

/-- A text that a process which runs has is in memory, and stays there for one process more. -/
theorem Tables.pages_grown (h : Tables s.process s.text) (hstage : (s.process i).stage = .loaded)
    (t : TextSlot) (m : ℕ) : Text.pages { s.text t with
      xCount := m
      xCcount := (s.text t).xCcount + if (s.process i).pTextp = some t then 1 else 0 } =
        (s.text t).pages := by
  have hmem : (s.process i).inMemory = (s.process i).pTextp := by simp only [Image.inMemory, hstage]
  by_cases ht : (s.process i).pTextp = some t
  · have hcc := h.ccount_ne_zero (hmem.trans ht)
    simp [Text.pages, hcc]
  · simp [Text.pages, ht]

/-- So it is with its blocks. -/
theorem Tables.blocks_grown (h : Tables s.process s.text) (hstage : (s.process i).stage = .loaded)
    (t : TextSlot) (m : ℕ) : Text.blocks { s.text t with
      xCount := (s.text t).xCount + if (s.process i).pTextp = some t then 1 else 0
      xCcount := m } = (s.text t).blocks := by
  have huser : (s.process i).user = (s.process i).pTextp := by simp only [Image.user, hstage]
  by_cases ht : (s.process i).pTextp = some t
  · have hcount := h.count_ne_zero (huser.trans ht)
    simp [Text.blocks, hcount]
  · simp [Text.blocks, ht]

theorem user_of_readingText (hstage : (s.process j).stage = .readingText d)
    (htext : (s.process j).pTextp = some u) : (s.process j).user = some u := by
  simp only [Image.user, hstage, htext]

/-! ### `XccDec` and `XSwap` -/

@[simp] theorem process_xccDecOf (o : Option TextSlot) : (s.xccDecOf o).process = s.process := by
  cases o with
  | none => rfl
  | some t =>
    simp only [System.xccDecOf, System.xccDec]
    split
    · rfl
    · split <;> rfl

@[simp] theorem swapper_xccDecOf (o : Option TextSlot) : (s.xccDecOf o).swapper = s.swapper := by
  cases o with
  | none => rfl
  | some t =>
    simp only [System.xccDecOf, System.xccDec]
    split
    · rfl
    · split <;> rfl

theorem text_xccDecOf (o : Option TextSlot) (t : TextSlot) : (s.xccDecOf o).text t =
    { s.text t with xCcount := (s.text t).xCcount - if o = some t then 1 else 0 } := by
  cases o with
  | none => simp [System.xccDecOf]
  | some u =>
    by_cases hu : u = t
    · subst hu
      simp only [System.xccDecOf, System.xccDec, if_pos]
      split
      · next hzero =>
        have hsame : (s.text u).xCcount - 1 = (s.text u).xCcount := by omega
        rw [hsame]
      · split <;> simp [System.setText]
    · have hne : t ≠ u := Ne.symm hu
      simp only [System.xccDecOf, System.xccDec]
      split
      · simp [hu]
      · split <;> simp [System.setText, hu, hne]

/-- **The last process that leaves the memory gives its text back.** -/
theorem memory_xccDecOf (hm : Ample OWNERS map₀) {own own' : Proc.Slot ⊕ TextSlot → UInt32 × UInt32}
    (h : Owned map₀ s.memory own) (hown : ∀ t, own (.inr t) = (s.text t).pages)
    (o : Option TextSlot) (hl : ∀ i, own' (.inl i) = own (.inl i))
    (hr : ∀ t, own' (.inr t) = ((s.xccDecOf o).text t).pages) :
    Owned map₀ (s.xccDecOf o).memory own' := by
  have hsame : (∀ t, ((s.xccDecOf o).text t).pages = (s.text t).pages) →
      Owned map₀ s.memory own' := fun heq =>
    h.congr fun k => by
      cases k with
      | inl i => exact hl i
      | inr t => rw [hr, heq, hown]
  cases o with
  | none => exact hsame fun _ => rfl
  | some t =>
    have htext := text_xccDecOf (s := s) (some t)
    by_cases hone : (s.text t).xCcount = 1
    · have hmem : (s.xccDecOf (some t)).memory =
          s.memory.freeMemory (s.text t).xSize (s.text t).xCaddr := by
        simp [System.xccDecOf, System.xccDec, System.setText, hone]
      rw [hmem]
      refine h.free hm.wf (hm.hasRoom h card_owners.le) (k := .inr t) ?_ ?_ fun l hne => ?_
      · rw [hown, Text.pages, if_neg (by omega)]
      · rw [hr, htext, Text.pages, if_pos (by simp [hone])]
      · cases l with
        | inl i => exact hl i
        | inr u =>
          have hu : t ≠ u := fun heq => hne (congrArg Sum.inr heq.symm)
          rw [hr, htext, hown]
          simp [Text.pages, hu]
    · have hmem : (s.xccDecOf (some t)).memory = s.memory := by
        simp only [System.xccDecOf, System.xccDec]
        split
        · rfl
        · rw [if_neg (by omega)]
          rfl
      rw [hmem]
      refine hsame fun u => ?_
      rw [htext]
      by_cases hu : t = u
      · subst hu
        have hiff : (s.text t).xCcount - 1 = 0 ↔ (s.text t).xCcount = 0 := by omega
        simp [Text.pages, hiff]
      · simp [Text.pages, hu]

theorem xSwap_cases {f : UInt32 → Stage} (h : s.xSwap i f = some s') :
    (s.swapper.allocSwap (s.process i).pSize).1 ≠ 0 ∧
      s' = ({ s with swapper := (s.swapper.allocSwap (s.process i).pSize).2 }.xccDecOf
        (s.process i).pTextp).setStage i (f (s.swapper.allocSwap (s.process i).pSize).1) := by
  unfold System.xSwap at h
  dsimp only at h
  split at h
  · cases h
  · next hne => exact ⟨hne, (Option.some.inj h).symm⟩

/-! ### One text changes -/

@[simp] theorem process_setText {y : Text ν} : (s.setText t y).process = s.process := rfl

@[simp] theorem memory_setText {y : Text ν} : (s.setText t y).memory = s.memory := rfl

@[simp] theorem swapper_setText {y : Text ν} : (s.setText t y).swapper = s.swapper := rfl

theorem text_setText {y : Text ν} : (s.setText t y).text = Function.update s.text t y := rfl

theorem setText_keep {β : Type} (f : Text ν → β) {y : Text ν} (hy : f y = f (s.text t))
    (u : TextSlot) : f ((s.setText t y).text u) = f (s.text u) := by
  rw [text_setText, Function.update_apply]
  split
  · next hu => rw [hu, hy]
  · rfl

end Changes

end Images
end UnixV6pp
