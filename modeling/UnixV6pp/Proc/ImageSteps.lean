import UnixV6pp.Proc.ImageTables

/-!
# Processes and their images

What each step of a process, and of `Sched`, does to the owners, where no text is involved or only
its counts are.

* `Kept.change`, `Kept.changeText` — **an image changes**, with pages or blocks taken or given back.
* `Kept.expand`, `Kept.swappedOut` — an image gets another size, or has to leave the memory.
* `Kept.fork`, `Kept.forked` — the child has an image in memory, or on the swap area.
* `Kept.exit`, `Kept.wait` — the user area of a process that ends, from one process to the other.
* `Kept.swapIn` — an image comes back.
-/

namespace UnixV6pp
namespace Images

open Allocator Proc Tally Image

variable {ν : Type} {s s' : System ν} {i j c : Proc.Slot} {t u : TextSlot} {map₀ : List MapNode}
  {x : Image} {newSize size blkno d textSize : UInt32} {stage : Stage} {file : ν}

/-! ### Expand -/

/-- Where a process that runs has its image. -/
theorem Kept.running (h : Kept map₀ s) (hrun : s.Runs i) :
    Sized (s.process i).pSize ∧ Aligned (s.process i).pAddr ∧
      s.memOwn (.inl i) =
        ((s.process i).pAddr / PAGE_SIZE, Allocator.pages (s.process i).pSize) ∧
      (s.swapOwn (.inl i)).2 = 0 := by
  obtain ⟨hi, hstage⟩ := hrun
  have hok := h.tables.image i
  simp only [Image.Ok, hstage] at hok
  refine ⟨hok.1, hok.2, ?_, ?_⟩
  · rw [memOwn_image hi]
    simp only [Image.pages, hstage]
  · simp only [System.swapOwn, Image.blocks, hstage]

/-- An image changes, and the texts keep what they have. -/
theorem Kept.changeText (h : Kept map₀ s) (hnull : (s.process i).stage ≠ .null)
    {text' : TextSlot → Text ν} (hsize : ∀ t, (text' t).xSize = (s.text t).xSize)
    (hpages : ∀ t, (text' t).pages = (s.text t).pages)
    (hblocks : ∀ t, (text' t).blocks = (s.text t).blocks) {memory swapper : MapState}
    (hmem : ∀ own', own' (.inl i) =
        (System.mk memory swapper (Function.update s.process i x) text').memOwn (.inl i) →
      (∀ l, l ≠ .inl i → own' l = s.memOwn l) → Owned map₀ memory own')
    (hswap : ∀ own', own' (.inl i) =
        (System.mk memory swapper (Function.update s.process i x) text').swapOwn (.inl i) →
      (∀ l, l ≠ .inl i → own' l = s.swapOwn l) → Owned swapMap swapper own')
    (htables : Tables (Function.update s.process i x) text') :
    Kept map₀ ⟨memory, swapper, Function.update s.process i x, text'⟩ := by
  have honly : Only s ⟨memory, swapper, Function.update s.process i x, text'⟩ i :=
    only_update h.tables hnull rfl hsize
  refine ⟨hmem _ rfl fun l hl => ?_, hswap _ rfl fun l hl => ?_, htables⟩
  · exact memOwn_frame h.tables honly l hl fun t _ => hpages t
  · exact swapOwn_frame honly l hl fun t _ => hblocks t

/-- An image changes, and the texts stay as they are. -/
theorem Kept.change (h : Kept map₀ s) (hnull : (s.process i).stage ≠ .null)
    {memory swapper : MapState}
    (hmem : ∀ own', own' (.inl i) =
        (System.mk memory swapper (Function.update s.process i x) s.text).memOwn (.inl i) →
      (∀ l, l ≠ .inl i → own' l = s.memOwn l) → Owned map₀ memory own')
    (hswap : ∀ own', own' (.inl i) =
        (System.mk memory swapper (Function.update s.process i x) s.text).swapOwn (.inl i) →
      (∀ l, l ≠ .inl i → own' l = s.swapOwn l) → Owned swapMap swapper own')
    (htables : Tables (Function.update s.process i x) s.text) :
    Kept map₀ ⟨memory, swapper, Function.update s.process i x, s.text⟩ :=
  h.changeText hnull (fun _ => rfl) (fun _ => rfl) (fun _ => rfl) hmem hswap htables

/-- A process that runs changes its size, and has pages for it. -/
theorem Kept.resized (h : Kept map₀ s) (hrun : s.Runs i) (hn : Sized newSize) {addr : UInt32}
    (haddr : Aligned addr) {memory : MapState}
    (hmem : ∀ own', own' (.inl i) = (addr / PAGE_SIZE, Allocator.pages newSize) →
      (∀ l, l ≠ .inl i → own' l = s.memOwn l) → Owned map₀ memory own') :
    Kept map₀ ({ s with memory := memory }.setProcess i
      { s.process i with pSize := newSize, pAddr := addr }) := by
  refine h.change (by rw [hrun.2]; decide) (fun own' hown' => hmem own' ?_) (fun own' hown' => ?_)
    (h.tables.resize hrun hn haddr)
  · rw [hown', memOwn_image hrun.1]
    simp [Image.pages, hrun.2]
  · refine h.swapper.keep ?_
    rw [hown']
    simp [System.swapOwn, Image.blocks, hrun.2]

/-- The image of a process that runs is swapped out, with its text if nobody else needs that. -/
theorem Kept.swapOut (hm : Ample OWNERS map₀) (h : Kept map₀ s) (hrun : s.Runs i)
    (hn : Sized newSize) {memory : MapState} (hmem : Owned map₀ memory s.memOwn)
    (hstep : ({ s with memory := memory }.setProcess i
      { s.process i with pSize := newSize }).xSwap i (.swapping · (s.process i).pSize) = some s') :
    Kept map₀ s' := by
  obtain ⟨hsize, haddr, hown, hblocks⟩ := h.running hrun
  have hnull : (s.process i).stage ≠ .null := by
    rw [hrun.2]
    decide
  obtain ⟨hne, hs'⟩ := xSwap_cases hstep
  simp only [process_setProcess, swapper_setProcess, Function.update_self] at hne hs'
  have hproc : s'.process = Function.update s.process i { s.process i with
      pSize := newSize
      stage := .swapping (s.swapper.allocSwap newSize).1 (s.process i).pSize } := by
    rw [hs']
    simp
  have htext : ∀ t, s'.text t = { s.text t with
      xCcount := (s.text t).xCcount - if (s.process i).pTextp = some t then 1 else 0 } := by
    intro t
    rw [hs', text_setStage, text_xccDecOf]
    rfl
  have hthis : s'.process i = { s.process i with
      pSize := newSize
      stage := .swapping (s.swapper.allocSwap newSize).1 (s.process i).pSize } := by
    rw [hproc, Function.update_self]
  have honly : Only s s' i := only_update h.tables hnull hproc fun t => by rw [htext]
  refine ⟨?_, ?_, ?_⟩
  · -- the image keeps its pages until it has been written; the text may lose its own
    rw [hs', memory_setStage]
    refine memory_xccDecOf hm hmem (fun t => rfl) _ (fun j => ?_) fun t => ?_
    · rw [← hs']
      by_cases hj : j = i
      · rw [hj, hown, memOwn_image hrun.1, hthis]
        rfl
      · refine memOwn_frame h.tables honly _ (fun heq => hj (Sum.inl.inj heq)) fun t ht => ?_
        cases ht
    · rfl
  · -- it has had no blocks
    rw [hs', swapper_setStage, swapper_xccDecOf]
    have hpos := blocks_pos hn
    refine h.swapper.alloc hblocks (.inr (h.swapper.hasExtent_of_ne hpos hne)) ?_ fun l hl => ?_
    · rw [← hs']
      simp only [System.swapOwn, hthis, Image.blocks]
      rfl
    · rw [← hs']
      refine swapOwn_frame honly l hl fun t _ => ?_
      rw [htext]
      rfl
  · rw [hproc]
    refine h.tables.leave htext ?_ ⟨hn, hsize, haddr⟩ ?_ rfl (fun _ hj => by cases hj) rfl
      (by simp) hnull hrun.1
    · simp only [Image.inMemory, hrun.2]
    · simp only [Image.user, hrun.2]

theorem Kept.expand (hm : Ample OWNERS map₀) (h : Kept map₀ s) (hrun : s.Runs i)
    (hn : Sized newSize) (hwhole : newSize < (s.process i).pSize → newSize.toNat % 4096 = 0)
    (hstep : s.expand i newSize = some s') : Kept map₀ s' := by
  obtain ⟨hsize, haddr, hown, hblocks⟩ := h.running hrun
  unfold System.expand at hstep
  dsimp only at hstep
  split at hstep
  · -- the pages behind the new end are given back
    next hle =>
    obtain rfl := Option.some.inj hstep
    refine h.resized hrun hn haddr fun own' hown' hothers => ?_
    refine h.memory.shrink hm card_owners.le hown haddr hle (hsize.2.trans (by decide)) ?_ hown'
      hothers
    rcases eq_or_ne newSize (s.process i).pSize with heq | hne
    · exact .inl heq
    · exact .inr (hwhole (UInt32.lt_of_le_of_ne hle hne))
  · split at hstep
    · -- no memory: nothing has been taken
      next hzero =>
      exact h.swapOut hm hrun hn (h.memory.not_found hm (pages_pos hn) hzero) hstep
    · -- the image moves
      next hne =>
      obtain rfl := Option.some.inj hstep
      exact h.resized hrun hn (Owned.aligned_alloc _ _) fun own' hown' hothers =>
        h.memory.move hm card_owners (pages_pos hn) hne hown hown' hothers

theorem ample_swapMap : Ample OWNERS swapMap :=
  .of_split split_swapMap (by decide) (by decide) (by decide)

/-- The end of the swap in `Expand`. -/
theorem Kept.swappedOut (hm : Ample OWNERS map₀) (h : Kept map₀ s)
    (hstage : (s.process i).stage = .swapping blkno size) :
    Kept map₀ ({ s with memory := s.memory.freeMemory size (s.process i).pAddr }.setProcess i
      { s.process i with pAddr := blkno, stage := .swapped }) := by
  have hi : i ≠ 0 := h.tables.ne_zero (by simp [hstage]) (by simp [hstage])
  have hok := h.tables.image i
  simp only [Image.Ok, hstage] at hok
  refine h.change (by simp [hstage]) (fun own' hown' => ?_) (fun own' hown' => ?_) ?_
  · refine h.memory.free hm.wf (hm.hasRoom h.memory card_owners.le) ?_ ?_
    · rw [memOwn_image hi]
      simp only [Image.pages, hstage]
    · rw [hown', memOwn_image hi]
      simp [Image.pages]
  · refine h.swapper.keep ?_
    rw [hown']
    simp [System.swapOwn, Image.blocks, hstage]
  · refine h.tables.replace hok.1 ?_ ?_ (by simp [hstage]) hi (fun _ hj => by cases hj) rfl
      (by simp)
    · simp only [Image.user, hstage]
    · simp only [Image.inMemory, hstage]

/-! ### Exit and Wait -/

/-- `Exit` gets a block for the user area. -/
theorem Kept.exit (h : Kept map₀ s) (hrun : s.Runs i) (htext : (s.process i).pTextp = none)
    (hne : (s.swapper.allocSwap System.BUFFER_SIZE).1 ≠ 0) :
    Kept map₀ ({ s with swapper := (s.swapper.allocSwap System.BUFFER_SIZE).2 }.setStage i
      (.exiting (s.swapper.allocSwap System.BUFFER_SIZE).1)) := by
  obtain ⟨hsize, haddr, hown, hblocks⟩ := h.running hrun
  refine h.change (by simp [hrun.2]) (fun own' hown' => ?_) (fun own' hown' => ?_) ?_
  · refine h.memory.keep ?_
    rw [hown', hown, memOwn_image hrun.1]
    simp [Image.pages]
  · refine h.swapper.alloc hblocks (.inr (h.swapper.hasExtent_of_ne (by decide) hne)) ?_
    rw [hown']
    simp only [System.swapOwn, Function.update_self, Image.blocks]
    rfl
  · refine h.tables.replace ⟨hsize, haddr, htext⟩ ?_ ?_ (by simp [hrun.2]) hrun.1
      (fun _ hj => by cases hj) rfl (by simp)
    · simp only [Image.user, hrun.2]
    · simp only [Image.inMemory, hrun.2]

/-- The end of `Exit`. -/
theorem Kept.exited (hm : Ample OWNERS map₀) (h : Kept map₀ s)
    (hstage : (s.process i).stage = .exiting blkno) :
    Kept map₀ ({ s with
      memory := s.memory.freeMemory (s.process i).pSize (s.process i).pAddr }.setProcess i
      { s.process i with pAddr := blkno, stage := .zombie }) := by
  have hi : i ≠ 0 := h.tables.ne_zero (by simp [hstage]) (by simp [hstage])
  have hok := h.tables.image i
  simp only [Image.Ok, hstage] at hok
  refine h.change (by simp [hstage]) (fun own' hown' => ?_) (fun own' hown' => ?_) ?_
  · refine h.memory.free hm.wf (hm.hasRoom h.memory card_owners.le) ?_ ?_
    · rw [memOwn_image hi]
      simp only [Image.pages, hstage]
    · rw [hown', memOwn_image hi]
      simp [Image.pages]
  · refine h.swapper.keep ?_
    rw [hown']
    simp [System.swapOwn, Image.blocks, hstage]
  · refine h.tables.replace trivial ?_ ?_ (by simp [hstage]) hi (fun _ hj => by cases hj) rfl
      (by simp)
    · simp only [Image.user, hstage, hok.2.2]
    · simp only [Image.inMemory, hstage, hok.2.2]

/-- The end of `Wait` gives back the block of the child. -/
theorem Kept.waited (h : Kept map₀ s) (hstage : (s.process i).stage = .waiting j) :
    Kept map₀ ({ s with
      swapper := s.swapper.freeSwap System.BUFFER_SIZE (s.process j).pAddr }.setStage i
        .loaded) := by
  have hi : i ≠ 0 := h.tables.ne_zero (by simp [hstage]) (by simp [hstage])
  have hok := h.tables.image i
  simp only [Image.Ok, hstage] at hok
  refine h.change (by simp [hstage]) (fun own' hown' => ?_) (fun own' hown' => ?_) ?_
  · refine h.memory.keep ?_
    rw [hown', memOwn_image hi, memOwn_image hi]
    simp [Image.pages, hstage]
  · refine h.swapper.free ample_swapMap.wf (ample_swapMap.hasRoom h.swapper card_owners.le) ?_ ?_
    · simp only [System.swapOwn, Image.blocks, hstage]
    · rw [hown']
      simp [System.swapOwn, Image.blocks]
  · refine h.tables.replace hok ?_ ?_ (by simp [hstage]) hi (fun _ hj => by cases hj) rfl (by simp)
    · simp only [Image.user, hstage]
    · simp only [Image.inMemory, hstage]

/-- `Wait` takes over the block of a child that has ended. -/
theorem Kept.wait (h : Kept map₀ s) (hrun : s.Runs i) (hchild : (s.process j).stage = .zombie) :
    Kept map₀ ((s.setStage j .null).setStage i (.waiting j)) := by
  obtain ⟨hi, hstage⟩ := hrun
  have hij : i ≠ j := by
    rintro rfl
    rw [hstage] at hchild
    cases hchild
  have hj : j ≠ 0 := h.tables.ne_zero (by simp [hchild]) (by simp [hchild])
  have hok := h.tables.image i
  simp only [Image.Ok, hstage] at hok
  have hsame : (s.setStage j .null).process i = s.process i := Function.update_of_ne hij _ _
  have hself : (s.setStage j .null).process j = { s.process j with stage := .null } :=
    Function.update_self ..
  have honly₁ : Only s (s.setStage j .null) j :=
    only_update h.tables (by simp [hchild]) rfl fun _ => rfl
  have htables₁ : Tables (s.setStage j .null).process (s.setStage j .null).text := by
    refine h.tables.replace trivial ?_ ?_ (by simp [hchild]) hj (fun _ hj => by cases hj) rfl
      (by simp)
    · simp only [Image.user, hchild]
    · simp only [Image.inMemory, hchild]
  have honly₂ : Only (s.setStage j .null) ((s.setStage j .null).setStage i (.waiting j)) i :=
    only_update htables₁ (by simp [hsame, hstage]) rfl fun _ => rfl
  have hwaiting : ((s.setStage j .null).setStage i (.waiting j)).process i =
      { s.process i with stage := .waiting j } := by
    rw [process_setStage, Function.update_self, hsame]
  have hchild' : ((s.setStage j .null).setStage i (.waiting j)).process j =
      { s.process j with stage := .null } := by
    rw [process_setStage, Function.update_of_ne (Ne.symm hij), hself]
  refine ⟨?_, ?_, ?_⟩
  · -- the child has no pages any more
    refine h.memory.congr fun l => ?_
    by_cases hli : l = .inl i
    · rw [hli, memOwn_image hi, memOwn_image hi, hwaiting]
      simp only [Image.pages, hstage]
    · by_cases hlj : l = .inl j
      · rw [hlj, memOwn_image hj, memOwn_image hj, hchild']
        simp only [Image.pages, hchild]
      · rw [memOwn_frame htables₁ honly₂ l hli fun _ _ => rfl,
          memOwn_frame h.tables honly₁ l hlj fun _ _ => rfl]
  · -- the block passes from the child to the parent
    have hblock : s.swapOwn (.inl j) =
        ((s.process j).pAddr, Allocator.blocks System.BUFFER_SIZE) := by
      simp only [System.swapOwn, Image.blocks, hchild]
    have htaken : ((s.setStage j .null).setStage i (.waiting j)).swapOwn (.inl i) =
        ((s.process j).pAddr, Allocator.blocks System.BUFFER_SIZE) := by
      simp only [System.swapOwn, hwaiting, Image.blocks, hchild']
    have hnone : ((s.setStage j .null).setStage i (.waiting j)).swapOwn (.inl j) = (0, 0) := by
      simp only [System.swapOwn, hchild', Image.blocks]
    refine h.swapper.pass (k := .inl j) (l := .inl i) (fun heq => hij (Sum.inl.inj heq).symm)
      ?_ ?_ ?_ fun l hlj hli => ?_
    · simp only [System.swapOwn, Image.blocks, hstage]
    · rw [htaken, hnone, hblock, range_zero, Set.empty_union]
    · rw [hnone, range_zero]
      exact Set.empty_disjoint _
    · rw [swapOwn_frame honly₂ l hli fun _ _ => rfl, swapOwn_frame honly₁ l hlj fun _ _ => rfl]
  · refine htables₁.setImage ?_ ?_ ?_ (not_waited htables₁ (by simp [hsame, hstage]))
      (fun k hk => ?_) rfl (by simp) (fun heq => absurd heq hi)
    · rw [hsame]
      exact hok
    · rw [hsame]
      simp only [Image.user, hstage]
    · rw [hsame]
      simp only [Image.inMemory, hstage]
    · obtain rfl : j = k := Stage.waiting.inj hk
      exact ⟨Ne.symm hij, by rw [hself]⟩

/-! ### Sched -/

/-- `Sched` begins to read an image, and the text is in memory or there is none. -/
theorem Kept.swapIn (hm : Ample OWNERS map₀) (h : Kept map₀ s)
    (hstage : (s.process i).stage = .swapped) (hno : ∀ j, System.Reading (s.process j) = false)
    {text' : TextSlot → Text ν}
    (htext : ∀ t, text' t = { s.text t with
      xCcount := (s.text t).xCcount + if (s.process i).pTextp = some t then 1 else 0 })
    (hcc : ∀ t, (s.process i).pTextp = some t → (s.text t).xCcount ≠ 0)
    (hne : (s.memory.allocMemory (s.process i).pSize).1 ≠ 0) :
    Kept map₀ ({ s with
      memory := (s.memory.allocMemory (s.process i).pSize).2
      text := text' }.setStage i (.readingImage (s.memory.allocMemory (s.process i).pSize).1)) := by
  have hi : i ≠ 0 := h.tables.ne_zero (by simp [hstage]) (by simp [hstage])
  have hok := h.tables.image i
  simp only [Image.Ok, hstage] at hok
  have hpages : ∀ t, (text' t).pages = (s.text t).pages := by
    intro t
    rw [htext]
    by_cases ht : (s.process i).pTextp = some t
    · simp [Text.pages, hcc t ht]
    · simp [Text.pages, ht]
  refine h.changeText (i := i) (by simp [hstage]) (fun t => by rw [htext]) hpages
    (fun t => by rw [htext]; rfl) (fun own' hown' => ?_) (fun own' hown' => h.swapper.keep ?_) ?_
  · refine h.memory.found hm (pages_pos hok) hne ?_ ?_
    · rw [memOwn_image hi]
      simp only [Image.pages, hstage]
    · rw [hown', memOwn_image hi]
      simp [Image.pages]
  · rw [hown']
    simp [System.swapOwn, Image.blocks, hstage]
  · refine h.tables.set ⟨hok, Owned.aligned_alloc _ _⟩ (fun t ht => ?_) (fun t => ?_) (fun t => ?_)
      (not_waited h.tables (by simp [hstage])) (fun _ hj => by cases hj) (fun _ j _ => hno j)
      (fun _ hd => by cases hd) (fun j d t _ hj _ _ => ?_) (fun hp => by cases hp)
      (fun j t _ _ _ hc hp => ?_) (fun heq => absurd heq hi)
    · rw [htext] at ht ⊢
      exact h.tables.sized t ht
    · rw [htext]
      simp only [Image.user, hstage]
      grind
    · rw [htext]
      simp only [Image.inMemory, hstage]
      grind
    · have hread := hno j
      rw [System.Reading, hj] at hread
      cases hread
    · rw [htext]
      exact ⟨hc, hp⟩

/-- `Sched` begins to read the text of a process. -/
theorem Kept.swapInText (hm : Ample OWNERS map₀) (h : Kept map₀ s)
    (hstage : (s.process i).stage = .swapped) (hno : ∀ j, System.Reading (s.process j) = false)
    (htext : (s.process i).pTextp = some t) (hcc : (s.text t).xCcount = 0)
    (hne : (s.memory.allocMemory ((s.process i).pSize + (s.text t).xSize)).1 ≠ 0) :
    Kept map₀ ({ s with
      memory := (s.memory.allocMemory ((s.process i).pSize + (s.text t).xSize)).2 }.setStage i
        (.readingText (s.memory.allocMemory ((s.process i).pSize + (s.text t).xSize)).1)) := by
  have hi : i ≠ 0 := h.tables.ne_zero (by simp [hstage]) (by simp [hstage])
  have hok := h.tables.image i
  simp only [Image.Ok, hstage] at hok
  have huser : (s.process i).user = some t := by simp only [Image.user, hstage, htext]
  obtain ⟨-, hsize, -⟩ := h.tables.sized t (h.tables.count_ne_zero huser)
  have hpos : 0 < Allocator.pages ((s.process i).pSize + (s.text t).xSize) := by
    have hsum := toNat_add_small (hok.2.trans (by decide)) (hsize.2.trans (by decide))
    have := hok.1
    have := hok.2
    have := hsize.2
    rw [UInt32.lt_iff_toNat_lt, toNat_pages (by omega), UInt32.toNat_zero]
    omega
  refine h.change (i := i) (by simp [hstage]) (fun own' hown' => ?_)
    (fun own' hown' => h.swapper.keep ?_) ?_
  · refine h.memory.found hm hpos hne ?_ ?_
    · rw [memOwn_image hi]
      simp only [Image.pages, hstage]
    · rw [hown', memOwn_image hi]
      simp [Image.pages, System.textSize, htext]
  · rw [hown']
    simp [System.swapOwn, Image.blocks, hstage]
  · refine h.tables.set ⟨hok, Owned.aligned_alloc _ _⟩ h.tables.sized (fun t => ?_) (fun t => ?_)
      (not_waited h.tables (by simp [hstage])) (fun _ hj => by cases hj) (fun _ j _ => hno j)
      (fun _ _ => ⟨t, htext, hcc⟩) (fun _ _ _ _ _ _ => id) (fun hp => by cases hp)
      (fun _ _ _ _ _ hc hp => ⟨hc, hp⟩) (fun heq => absurd heq hi)
    · simp only [Image.user, hstage]
      grind
    · simp [Image.inMemory, hstage]

/-- An image has been read from the swap area. -/
theorem Kept.imageRead (h : Kept map₀ s) (hstage : (s.process i).stage = .readingImage d) :
    Kept map₀ ({ s with
      swapper := s.swapper.freeSwap (s.process i).pSize (s.process i).pAddr }.setProcess i
      { s.process i with pAddr := d, stage := .loaded }) := by
  have hi : i ≠ 0 := h.tables.ne_zero (by simp [hstage]) (by simp [hstage])
  have hok := h.tables.image i
  simp only [Image.Ok, hstage] at hok
  refine h.change (by simp [hstage]) (fun own' hown' => ?_) (fun own' hown' => ?_) ?_
  · refine h.memory.keep ?_
    rw [hown', memOwn_image hi, memOwn_image hi]
    simp [Image.pages, hstage]
  · refine h.swapper.free ample_swapMap.wf (ample_swapMap.hasRoom h.swapper card_owners.le) ?_ ?_
    · simp only [System.swapOwn, Image.blocks, hstage]
    · rw [hown']
      simp [System.swapOwn, Image.blocks]
  · refine h.tables.replace hok ?_ ?_ (by simp [hstage]) hi (fun _ hj => by cases hj) rfl (by simp)
    · simp only [Image.user, hstage]
    · simp only [Image.inMemory, hstage]

/-! ### NewProc -/

/-- A process runs, or is in `NewProc`. -/
def Forks (stage : Stage) : Prop := stage = .loaded ∨ ∃ c, stage = .forking c

/-- A process begins to wait in `NewProc`, or goes on after it. -/
theorem Kept.parent (h : Kept map₀ s) (hold : Forks (s.process i).stage) (hnew : Forks stage) :
    Kept map₀ (s.setStage i stage) := by
  have hok := h.tables.image i
  have hnull : (s.process i).stage ≠ .null := by
    rcases hold with heq | ⟨c, heq⟩ <;> simp [heq]
  refine h.change (i := i) hnull (fun own' hown' => h.memory.keep ?_)
    (fun own' hown' => h.swapper.keep ?_) ?_
  · rw [hown']
    rcases hold with heq | ⟨c, heq⟩ <;> rcases hnew with rfl | ⟨c', rfl⟩ <;>
      simp [System.memOwn, Image.pages, heq]
  · rw [hown']
    rcases hold with heq | ⟨c, heq⟩ <;> rcases hnew with rfl | ⟨c', rfl⟩ <;>
      simp [System.swapOwn, Image.blocks, heq]
  · refine h.tables.setImage ?_ ?_ ?_ (not_waited h.tables hnull) (fun j hj => ?_) ?_ ?_
      fun hi => ?_
    · rcases hold with heq | ⟨c, heq⟩ <;> rcases hnew with rfl | ⟨c', rfl⟩ <;>
        simpa only [Image.Ok, heq] using hok
    · rcases hold with heq | ⟨c, heq⟩ <;> rcases hnew with rfl | ⟨c', rfl⟩ <;>
        simp only [Image.user, heq]
    · rcases hold with heq | ⟨c, heq⟩ <;> rcases hnew with rfl | ⟨c', rfl⟩ <;>
        simp only [Image.inMemory, heq]
    · rcases hnew with rfl | ⟨c', rfl⟩ <;> cases hj
    · rcases hnew with rfl | ⟨c', rfl⟩ <;> rfl
    · rcases hnew with rfl | ⟨c', rfl⟩ <;> simp
    · subst hi
      exact ⟨h.tables.system.1, hnew⟩

/-- The end of `NewProc`, for a child that has been swapped out. -/
theorem Kept.forked (h : Kept map₀ s) (hparent : (s.process i).stage = .forking c)
    (hchild : (s.process c).stage = .born blkno) :
    Kept map₀ ((s.setProcess c { s.process c with pAddr := blkno, stage := .swapped }).setStage i
      .loaded) := by
  have hc : c ≠ 0 := h.tables.ne_zero (by simp [hchild]) (by simp [hchild])
  have hok := h.tables.image c
  simp only [Image.Ok, hchild] at hok
  have hmiddle : Kept map₀ (s.setProcess c
      { s.process c with pAddr := blkno, stage := .swapped }) := by
    refine h.change (i := c) (by simp [hchild]) (fun own' hown' => h.memory.keep ?_)
      (fun own' hown' => h.swapper.keep ?_) ?_
    · rw [hown', memOwn_image hc, memOwn_image hc]
      simp [Image.pages, hchild]
    · rw [hown']
      simp [System.swapOwn, Image.blocks, hchild]
    · refine h.tables.replace hok ?_ ?_ (by simp [hchild]) hc (fun _ hj => by cases hj) rfl
        (by simp)
      · simp only [Image.user, hchild]
      · simp only [Image.inMemory, hchild]
  have hne : i ≠ c := by
    rintro rfl
    rw [hparent] at hchild
    cases hchild
  refine hmiddle.parent ?_ (.inl rfl)
  rw [process_setProcess, Function.update_of_ne hne]
  exact .inr ⟨c, hparent⟩

theorem text_shareOf (o : Option TextSlot) (t : TextSlot) : (s.shareOf o).text t = { s.text t with
    xCount := (s.text t).xCount + if o = some t then 1 else 0
    xCcount := (s.text t).xCcount + if o = some t then 1 else 0 } := by
  cases o with
  | none => simp [System.shareOf]
  | some u =>
    change Function.update _ u _ t = _
    by_cases hu : u = t
    · subst hu
      simp
    · rw [Function.update_of_ne (Ne.symm hu)]
      simp [hu]

theorem shareOf_eq (o : Option TextSlot) : (s.shareOf o).process = s.process ∧
    (s.shareOf o).memory = s.memory ∧ (s.shareOf o).swapper = s.swapper := by
  cases o <;> exact ⟨rfl, rfl, rfl⟩

theorem newProc_cases (h : s.newProc i c = some s') :
    ((s.memory.allocMemory (s.process i).pSize).1 = 0 ∧ ∃ s₁,
      ({ s.shareOf (s.process i).pTextp with
        memory := (s.memory.allocMemory (s.process i).pSize).2 }.setProcess c
          { s.process i with stage := .loaded }).xSwap c .born = some s₁ ∧
        s' = s₁.setStage i (.forking c)) ∨
    ((s.memory.allocMemory (s.process i).pSize).1 ≠ 0 ∧
      s' = { s.shareOf (s.process i).pTextp with
        memory := (s.memory.allocMemory (s.process i).pSize).2 }.setProcess c
          { s.process i with
            stage := .loaded
            pAddr := (s.memory.allocMemory (s.process i).pSize).1 }) := by
  obtain ⟨-, hmem, -⟩ := shareOf_eq (s := s) (s.process i).pTextp
  unfold System.newProc at h
  dsimp only at h
  rw [hmem] at h
  split at h
  · next hzero =>
    obtain ⟨s₁, hswap, hs'⟩ := Option.bind_eq_some_iff.1 h
    exact .inl ⟨hzero, s₁, hswap, (Option.some.inj hs').symm⟩
  · next hne => exact .inr ⟨hne, (Option.some.inj h).symm⟩

/-- Without memory the child is swapped out, from the image of its parent. -/
theorem Kept.forkSwapped (hm : Ample OWNERS map₀) (h : Kept map₀ s)
    (hstage : (s.process i).stage = .loaded) (hchild : (s.process c).stage = .null)
    (hwaited : ∀ j, (s.process j).stage ≠ .waiting c)
    (hzero : (s.memory.allocMemory (s.process i).pSize).1 = 0)
    (hswap : ({ s.shareOf (s.process i).pTextp with
      memory := (s.memory.allocMemory (s.process i).pSize).2 }.setProcess c
        { s.process i with stage := .loaded }).xSwap c .born = some s') : Kept map₀ s' := by
  obtain ⟨hproc, -, hswapper⟩ := shareOf_eq (s := s) (s.process i).pTextp
  have htext := text_shareOf (s := s) (s.process i).pTextp
  have hok := h.tables.image i
  simp only [Image.Ok, hstage] at hok
  have hc : c ≠ 0 := h.tables.ne_zero (by simp [hchild]) (by simp [hchild])
  have hmemory := h.memory.not_found hm (pages_pos hok.1) hzero
  obtain ⟨hne, hs'⟩ := xSwap_cases hswap
  simp only [process_setProcess, swapper_setProcess, Function.update_self, hswapper] at hne hs'
  have hproc' : s'.process = Function.update s.process c { s.process i with
      stage := .born (s.swapper.allocSwap (s.process i).pSize).1 } := by
    rw [hs']
    simp [hproc]
  have htext' : ∀ t, s'.text t = { s.text t with
      xCount := (s.text t).xCount + if (s.process i).pTextp = some t then 1 else 0 } := by
    intro t
    rw [hs', text_setStage, text_xccDecOf, text_setProcess, htext]
    simp
  have hself : s'.process c = { s.process i with
      stage := .born (s.swapper.allocSwap (s.process i).pSize).1 } := by
    rw [hproc', Function.update_self]
  have honly : Only s s' c := by
    refine ⟨fun j hj => ?_, fun u _ => ?_, hwaited⟩
    · rw [hproc', Function.update_of_ne hj]
    · rw [htext']
  refine ⟨?_, ?_, ?_⟩
  · -- the child has counted for the text, and does not any more
    rw [hs', memory_setStage]
    refine memory_xccDecOf hm hmemory (fun u => ?_) _ (fun j => ?_) fun u => ?_
    · rw [text_setProcess, htext]
      exact (h.tables.pages_grown hstage u _).symm
    · rw [← hs']
      by_cases hj : j = c
      · rw [hj, memOwn_image hc, memOwn_image hc, hself]
        simp only [Image.pages, hchild]
      · refine memOwn_frame h.tables honly _ (fun heq => hj (Sum.inl.inj heq)) fun _ ht => ?_
        cases ht
    · rfl
  · -- the blocks are the child's
    rw [hs', swapper_setStage, swapper_xccDecOf]
    have hextent := h.swapper.hasExtent_of_ne (blocks_pos hok.1) hne
    refine h.swapper.alloc (k := .inl c) ?_ (.inr hextent) ?_ fun l hl => ?_
    · simp only [System.swapOwn, Image.blocks, hchild]
    · rw [← hs']
      simp only [System.swapOwn, hself, Image.blocks]
      rfl
    · rw [← hs']
      refine swapOwn_frame honly l hl fun u _ => ?_
      rw [htext']
      exact h.tables.blocks_grown hstage u _
  · rw [hproc']
    refine h.tables.bear hstage hchild hwaited hok.1 rfl (.inr ⟨_, rfl⟩) fun t => ?_
    rw [htext']
    simp [Image.inMemory]

/-- The child has its image in memory. -/
theorem Kept.forkLoaded (hm : Ample OWNERS map₀) (h : Kept map₀ s)
    (hstage : (s.process i).stage = .loaded) (hchild : (s.process c).stage = .null)
    (hwaited : ∀ j, (s.process j).stage ≠ .waiting c)
    (hne : (s.memory.allocMemory (s.process i).pSize).1 ≠ 0) :
    Kept map₀ ({ s.shareOf (s.process i).pTextp with
      memory := (s.memory.allocMemory (s.process i).pSize).2 }.setProcess c
        { s.process i with
          stage := .loaded
          pAddr := (s.memory.allocMemory (s.process i).pSize).1 }) := by
  obtain ⟨hproc, -, hswapper⟩ := shareOf_eq (s := s) (s.process i).pTextp
  have htext := text_shareOf (s := s) (s.process i).pTextp
  have hok := h.tables.image i
  simp only [Image.Ok, hstage] at hok
  have hc : c ≠ 0 := h.tables.ne_zero (by simp [hchild]) (by simp [hchild])
  have honly : Only s ({ s.shareOf (s.process i).pTextp with
      memory := (s.memory.allocMemory (s.process i).pSize).2 }.setProcess c
        { s.process i with
          stage := .loaded
          pAddr := (s.memory.allocMemory (s.process i).pSize).1 }) c := by
    refine ⟨fun j hj => ?_, fun u _ => ?_, hwaited⟩
    · rw [process_setProcess, Function.update_of_ne hj, hproc]
    · rw [text_setProcess, htext]
  refine ⟨?_, ?_, ?_⟩
  · refine h.memory.found hm (k := .inl c) (pages_pos hok.1) hne ?_ ?_ fun l hl => ?_
    · rw [memOwn_image hc]
      simp only [Image.pages, hchild]
    · rw [memOwn_image hc, process_setProcess, Function.update_self]
      simp only [Image.pages]
    · refine memOwn_frame h.tables honly l hl fun u _ => ?_
      rw [text_setProcess, htext]
      exact h.tables.pages_grown hstage u _
  · rw [swapper_setProcess]
    refine hswapper ▸ h.swapper.keep (k := .inl c) ?_ fun l hl => ?_
    · simp only [System.swapOwn, process_setProcess, Function.update_self, Image.blocks, hchild]
    · refine swapOwn_frame honly l hl fun u _ => ?_
      rw [text_setProcess, htext]
      exact h.tables.blocks_grown hstage u _
  · rw [process_setProcess, text_setProcess, hproc]
    refine h.tables.bear hstage hchild hwaited ?_ rfl (.inl rfl) fun t => ?_
    · exact ⟨hok.1, Owned.aligned_alloc _ _⟩
    · rw [htext]
      rfl

/-- The image of a child. -/
theorem Kept.fork (hm : Ample OWNERS map₀) (h : Kept map₀ s)
    (hstage : (s.process i).stage = .loaded) (hchild : (s.process c).stage = .null)
    (hwaited : ∀ j, (s.process j).stage ≠ .waiting c)
    (hstep : s.newProc i c = some s') : Kept map₀ s' := by
  rcases newProc_cases hstep with ⟨hzero, s₁, hswap, rfl⟩ | ⟨hne, rfl⟩
  · -- the parent waits for `XSwap`, which is about the image of the child only
    have hborn := h.forkSwapped hm hstage hchild hwaited hzero hswap
    have hic : i ≠ c := by
      rintro rfl
      rw [hstage] at hchild
      cases hchild
    have hsame : s₁.process i = s.process i := by
      obtain ⟨-, hs₁⟩ := xSwap_cases hswap
      rw [hs₁]
      simp [(shareOf_eq (s := s) (s.process i).pTextp).1, hic]
    refine hborn.parent ?_ (.inr ⟨c, rfl⟩)
    rw [hsame]
    exact .inl hstage
  · exact h.forkLoaded hm hstage hchild hwaited hne

end Images
end UnixV6pp
