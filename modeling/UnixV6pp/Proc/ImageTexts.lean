import UnixV6pp.Proc.ImageSteps

/-!
# Processes and their texts

* `Kept.share`, `Kept.newText` — `Exec` finds the text of a file, or makes an entry for it.
* `Kept.xFree`, `Kept.iPut` — the last process gives the blocks back, and then the file.
* `Kept.textRead` — **pages pass from an image to a text.**
-/

namespace UnixV6pp
namespace Images

open Allocator Proc Tally Image

variable {ν : Type} {s s' : System ν} {i j c : Proc.Slot} {t u : TextSlot} {map₀ : List MapNode}
  {x : Image} {newSize size blkno d textSize : UInt32} {stage : Stage} {file : ν}

/-! ### Exec -/

/-- One process more has a text that is in memory. -/
theorem Kept.share (h : Kept map₀ s) (hrun : s.Runs i) (htext : (s.process i).pTextp = none)
    (hcc : (s.text t).xCcount ≠ 0) :
    Kept map₀ ((s.share t).setProcess i { s.process i with pTextp := some t }) := by
  obtain ⟨hi, hstage⟩ := hrun
  have hcount := h.tables.count_of_ccount hcc
  refine h.changeText (i := i) (by simp [hstage]) (setText_keep Text.xSize
    (y := { s.text t with xCount := (s.text t).xCount + 1, xCcount := (s.text t).xCcount + 1 }) rfl)
    (setText_keep Text.pages (by simp [Text.pages, hcc]))
    (setText_keep Text.blocks (by simp [Text.blocks, hcount]))
    (fun own' hown' => h.memory.keep ?_) (fun own' hown' => h.swapper.keep ?_) ?_
  · rw [hown', memOwn_image hi, memOwn_image hi]
    simp [Image.pages, hstage]
  · rw [hown']
    simp [System.swapOwn, Image.blocks, hstage]
  · have hsized := h.tables.sized
    have hok := h.tables.image i
    simp only [Image.Ok, hstage] at hok
    have huser : (s.process i).user = none := by simp only [Image.user, hstage, htext]
    have hmem : (s.process i).inMemory = none := by simp only [Image.inMemory, hstage, htext]
    rw [text_setText]
    refine h.tables.set ?_ ?_ ?_ ?_ (not_waited h.tables (by simp [hstage])) ?_ ?_ ?_ ?_ ?_ ?_
      (fun heq => absurd heq hi)
    · simp only [Image.Ok, hstage]
      exact hok
    · grind [Function.update_apply]
    · intro u
      rw [huser]
      simp [Image.user, hstage, Function.update_apply]
      grind
    · intro u
      rw [hmem]
      simp [Image.inMemory, hstage, Function.update_apply]
      grind
    · simp [hstage]
    · simp [System.Reading, hstage]
    · simp [hstage]
    · grind [Function.update_apply]
    · simp [hstage]
    · grind [Function.update_apply]

/-- `Exec` makes an entry for a text. -/
theorem Kept.newText (hm : Ample OWNERS map₀) (h : Kept map₀ s) (hrun : s.Runs i)
    (htext : (s.process i).pTextp = none) (hfree : (s.text t).xIptr = none)
    (hsize : Sized textSize) (haligned : Aligned textSize)
    (hne : (s.memory.allocMemory textSize).1 ≠ 0) (hne' : (s.swapper.allocSwap textSize).1 ≠ 0) :
    Kept map₀ (({ s with
      memory := (s.memory.allocMemory textSize).2
      swapper := (s.swapper.allocSwap textSize).2 }.setText t
        ⟨(s.swapper.allocSwap textSize).1, (s.memory.allocMemory textSize).1, textSize,
          some file, 1, 1⟩).setProcess i { s.process i with pTextp := some t }) := by
  obtain ⟨hi, hstage⟩ := hrun
  -- a text without a file has no processes, and so nothing in memory
  have hcount : (s.text t).xCount = 0 := by
    by_contra hne
    exact (h.tables.sized t hne).1 hfree
  have hcc : (s.text t).xCcount = 0 := by
    by_contra hne
    exact h.tables.count_of_ccount hne hcount
  have hnull : (s.process i).stage ≠ .null := by simp [hstage]
  set y : Text ν := ⟨(s.swapper.allocSwap textSize).1, (s.memory.allocMemory textSize).1, textSize,
    some file, 1, 1⟩ with hy
  have hother : ∀ u, u ≠ t → Function.update s.text t y u = s.text u :=
    fun u hu => Function.update_of_ne hu _ _
  have honly : Only s (({ s with
      memory := (s.memory.allocMemory textSize).2
      swapper := (s.swapper.allocSwap textSize).2 }.setText t y).setProcess i
        { s.process i with pTextp := some t }) i := by
    refine ⟨fun j hj => Function.update_of_ne hj _ _, fun u hu => ?_, not_waited h.tables hnull⟩
    have hut : u ≠ t := fun heq => hu (heq ▸ hcount)
    rw [text_setProcess, text_setText, hother u hut]
  refine ⟨?_, ?_, ?_⟩
  · refine h.memory.found hm (k := .inr t) (pages_pos hsize) hne ?_ ?_ fun l hl => ?_
    · simp [System.memOwn, Text.pages, hcc]
    · simp [System.memOwn, Text.pages, text_setText, hy]
    · by_cases hli : l = .inl i
      · rw [hli, memOwn_image hi, memOwn_image hi]
        simp [Image.pages, hstage]
      · refine memOwn_frame h.tables honly l hli fun u hu => ?_
        rw [text_setProcess, text_setText, hother u fun heq => hl (by rw [hu, heq])]
  · refine h.swapper.alloc (k := .inr t) ?_
      (.inr (h.swapper.hasExtent_of_ne (blocks_pos hsize) hne')) ?_ fun l hl => ?_
    · simp [System.swapOwn, Text.blocks, hcount]
    · simp [System.swapOwn, Text.blocks, text_setText, hy]
      rfl
    · by_cases hli : l = .inl i
      · rw [hli]
        simp [System.swapOwn, Image.blocks, hstage]
      · refine swapOwn_frame honly l hli fun u hu => ?_
        rw [text_setProcess, text_setText, hother u fun heq => hl (by rw [hu, heq])]
  · have hsized := h.tables.sized
    have hok := h.tables.image i
    simp only [Image.Ok, hstage] at hok
    have huser : (s.process i).user = none := by simp only [Image.user, hstage, htext]
    have hmem : (s.process i).inMemory = none := by simp only [Image.inMemory, hstage, htext]
    rw [text_setProcess, text_setText]
    refine h.tables.set ?_ ?_ ?_ ?_ (not_waited h.tables hnull) ?_ ?_ ?_ ?_ ?_ ?_
      (fun heq => absurd heq hi)
    · simp only [Image.Ok, hstage]
      exact hok
    · grind [Function.update_apply]
    · intro u
      rw [huser]
      simp [Image.user, hstage, Function.update_apply]
      grind
    · intro u
      rw [hmem]
      simp [Image.inMemory, hstage, Function.update_apply]
      grind
    · simp [hstage]
    · simp [System.Reading, hstage]
    · simp [hstage]
    · intro j d u hj hd hu
      -- that text is in use, and the entry was free
      have hne := h.tables.count_ne_zero (user_of_readingText hd hu)
      rw [hother u fun heq => hne (heq ▸ hcount)]
      exact id
    · simp [hstage]
    · grind [Function.update_apply]

/-! ### XFree -/

theorem text_xccDec : (s.xccDec t).text t =
    { s.text t with xCcount := (s.text t).xCcount - 1 } := by
  have heq := text_xccDecOf (s := s) (some t) t
  rwa [if_pos rfl] at heq

theorem process_xFree : (s.xFree i t).process = Function.update s.process i
    (if (s.text t).xCount - 1 = 0 then { s.process i with stage := .iPut }
    else { s.process i with pTextp := none }) := by
  have hsame : (s.xccDec t).process = s.process := process_xccDecOf (some t)
  simp only [System.xFree, text_xccDec]
  split <;> simp [hsame]

theorem text_xFree : (s.xFree i t).text = Function.update s.text t { s.text t with
    xCount := (s.text t).xCount - 1
    xCcount := (s.text t).xCcount - 1 } := by
  have hother : ∀ u, u ≠ t → (s.xccDec t).text u = s.text u := by
    intro u hu
    have heq := text_xccDecOf (s := s) (some t) u
    rwa [if_neg fun h => hu (Option.some.inj h).symm] at heq
  have hupdate : ∀ y, Function.update (s.xccDec t).text t y = Function.update s.text t y := by
    intro y
    funext u
    by_cases hu : u = t
    · rw [hu, Function.update_self, Function.update_self]
    · rw [Function.update_of_ne hu, Function.update_of_ne hu, hother u hu]
  rw [← hupdate]
  simp only [System.xFree, text_xccDec]
  split <;> rfl

theorem memory_xFree : (s.xFree i t).memory = (s.xccDecOf (some t)).memory := by
  simp only [System.xFree]
  split <;> rfl

theorem swapper_xFree : (s.xFree i t).swapper = if (s.text t).xCount - 1 = 0 then
    s.swapper.freeSwap (s.text t).xSize (s.text t).xDaddr else s.swapper := by
  have hsame : (s.xccDec t).swapper = s.swapper := swapper_xccDecOf (some t)
  simp only [System.xFree, text_xccDec]
  split <;> simp [hsame]

/-- What a process that runs is after `XFree`. -/
theorem xFree_cases (hrun : s.Runs i) {y : Image} (hy : (s.xFree i t).process i = y) :
    y.Ok = (s.process i).Ok ∧ y.user = none ∧ y.inMemory = none ∧
      (∀ n n', y.pages n = (s.process i).pages n') ∧ (∀ process, y.blocks process = (0, 0)) ∧
      (y = { s.process i with stage := .iPut } ∧ (s.text t).xCount - 1 = 0 ∨
        y = { s.process i with pTextp := none }) := by
  obtain ⟨-, hstage⟩ := hrun
  rw [process_xFree, Function.update_self] at hy
  split at hy
  · next hlast =>
    subst hy
    refine ⟨?_, rfl, rfl, fun n n' => ?_, fun _ => rfl, .inl ⟨rfl, hlast⟩⟩
    · simp only [Image.Ok, hstage]
    · simp only [Image.pages, hstage]
  · subst hy
    refine ⟨?_, ?_, ?_, fun n n' => ?_, fun process => ?_, .inr rfl⟩
    · simp only [Image.Ok, hstage]
    · simp only [Image.user, hstage]
    · simp only [Image.inMemory, hstage]
    · simp only [Image.pages, hstage]
    · simp only [Image.blocks, hstage]

theorem Tables.xFree (h : Tables s.process s.text) (hrun : s.Runs i)
    (htext : (s.process i).pTextp = some t) :
    Tables (s.xFree i t).process (s.xFree i t).text := by
  obtain ⟨hok, hnone, hnone', -, -, hcases⟩ := xFree_cases (t := t) hrun rfl
  obtain ⟨hi, hstage⟩ := hrun
  have huser : (s.process i).user = some t := by simp only [Image.user, hstage, htext]
  have hmem : (s.process i).inMemory = some t := by simp only [Image.inMemory, hstage, htext]
  have hcount := h.count_ne_zero huser
  have hcc := h.ccount_ne_zero hmem
  have hsized := h.sized
  have hiPut := h.iPut
  have hproc : (s.xFree i t).process =
      Function.update s.process i ((s.xFree i t).process i) := by
    rw [process_xFree, Function.update_self]
  -- it goes on, or is in `IPut` for the last text
  have hstages : ((s.xFree i t).process i).stage = .loaded ∨
      ((s.xFree i t).process i).stage = .iPut := by
    rcases hcases with ⟨heq, -⟩ | heq <;> simp [heq, hstage]
  rw [hproc, text_xFree]
  refine h.set (hok ▸ h.image i) ?_ ?_ ?_ (not_waited h (by simp [hstage])) ?_ ?_ ?_ ?_ ?_ ?_
    (fun heq => absurd heq hi)
  · intro u hu
    by_cases hut : u = t
    · subst hut
      rw [Function.update_self]
      exact hsized u hcount
    · rw [Function.update_of_ne hut] at hu ⊢
      exact hsized u hu
  · intro u
    rw [huser, hnone, Function.update_apply]
    grind
  · intro u
    rw [hmem, hnone', Function.update_apply]
    grind
  · intro j hj
    rcases hstages with heq | heq <;> rw [heq] at hj <;> cases hj
  · intro hr
    rcases hstages with heq | heq <;> simp [System.Reading, heq] at hr
  · intro d hd
    rcases hstages with heq | heq <;> rw [heq] at hd <;> cases hd
  · grind [Function.update_apply]
  · -- nobody else is in `IPut` for this text, which has been in use up to now
    intro hp
    rcases hcases with ⟨heq, hlast⟩ | heq
    · refine ⟨t, ?_, ?_, ?_, fun j hj hjp hjt => ?_⟩
      · rw [heq]
        exact htext
      · rw [Function.update_self]
        exact hlast
      · rw [Function.update_self]
        exact (hsized t hcount).1
      · obtain ⟨t', ht', hzero, -⟩ := hiPut j hjp
        obtain rfl : t = t' := Option.some.inj (hjt.symm.trans ht')
        exact hcount hzero
    · rw [heq, hstage] at hp
      cases hp
  · grind [Function.update_apply]

/-- A process that ends, or executes another file, does not use its text any more. -/
theorem Kept.xFree (hm : Ample OWNERS map₀) (h : Kept map₀ s) (hrun : s.Runs i)
    (htext : (s.process i).pTextp = some t) : Kept map₀ (s.xFree i t) := by
  obtain ⟨-, -, -, hpages, hnone, -⟩ := xFree_cases (t := t) hrun rfl
  have htables := h.tables.xFree hrun htext
  obtain ⟨hi, hstage⟩ := hrun
  have huser : (s.process i).user = some t := by simp only [Image.user, hstage, htext]
  have hcount := h.tables.count_ne_zero huser
  have honly : Only s (s.xFree i t) i :=
    only_update h.tables (by simp [hstage]) process_xFree fun u => by
      rw [text_xFree, Function.update_apply]
      split
      · next hu => rw [hu]
      · rfl
  have hblocks : s.swapOwn (.inr t) = ((s.text t).xDaddr, Allocator.blocks (s.text t).xSize) :=
    if_neg hcount
  have hothers : ∀ l, l ≠ .inr t → (s.xFree i t).swapOwn l = s.swapOwn l := by
    intro l hl
    by_cases hli : l = .inl i
    · rw [hli]
      simp only [System.swapOwn, hnone]
      simp only [Image.blocks, hstage]
    · refine swapOwn_frame honly l hli fun u hu => ?_
      rw [text_xFree, Function.update_of_ne fun heq => hl (by rw [hu, heq])]
  refine ⟨?_, ?_, htables⟩
  · rw [memory_xFree]
    refine memory_xccDecOf hm h.memory (fun _ => rfl) (some t) (fun j => ?_) fun u => ?_
    · by_cases hj : j = i
      · rw [hj, memOwn_image hi, memOwn_image hi]
        exact hpages _ _
      · refine memOwn_frame h.tables honly _ (fun heq => hj (Sum.inl.inj heq)) fun t ht => ?_
        cases ht
    · change ((s.xFree i t).text u).pages = _
      rw [text_xFree, text_xccDecOf, Function.update_apply]
      by_cases hu : u = t
      · rw [hu, if_pos rfl, if_pos rfl]
        rfl
      · rw [if_neg hu, if_neg fun heq => hu (Option.some.inj heq).symm]
        rfl
  · rw [swapper_xFree]
    split
    · -- the blocks of the text are free from now on, before the file is
      next hlast =>
      refine h.swapper.free ample_swapMap.wf (ample_swapMap.hasRoom h.swapper card_owners.le)
        hblocks ?_ hothers
      simp [System.swapOwn, text_xFree, Text.blocks, hlast]
    · next hlast =>
      refine h.swapper.keep ?_ hothers
      rw [hblocks]
      simp only [System.swapOwn, text_xFree, Function.update_self, Text.blocks, if_neg hlast]

/-- The end of `IPut` in `XFree`. -/
theorem Kept.iPut (h : Kept map₀ s) (hstage : (s.process i).stage = .iPut)
    (htext : (s.process i).pTextp = some t) :
    Kept map₀ ((s.setText t { s.text t with xIptr := none }).setProcess i
      { s.process i with pTextp := none, stage := .loaded }) := by
  have hi : i ≠ 0 := h.tables.ne_zero (by simp [hstage]) (by simp [hstage])
  have hok := h.tables.image i
  simp only [Image.Ok, hstage] at hok
  obtain ⟨t', htext', hcount, -⟩ := h.tables.iPut i hstage
  obtain rfl : t = t' := Option.some.inj (htext.symm.trans htext')
  refine h.changeText (i := i) (by simp [hstage])
    (setText_keep Text.xSize (y := { s.text t with xIptr := none }) rfl)
    (setText_keep Text.pages rfl)
    (setText_keep Text.blocks rfl) (fun own' hown' => h.memory.keep ?_)
    (fun own' hown' => h.swapper.keep ?_) ?_
  · rw [hown', memOwn_image hi, memOwn_image hi]
    simp [Image.pages, hstage]
  · rw [hown']
    simp [System.swapOwn, Image.blocks, hstage]
  · have honce := h.tables.once i
    have hsized := h.tables.sized
    have huser : (s.process i).user = none := by simp only [Image.user, hstage]
    have hmem : (s.process i).inMemory = none := by simp only [Image.inMemory, hstage]
    rw [text_setText]
    refine h.tables.set hok ?_ ?_ ?_ (not_waited h.tables (by simp [hstage]))
      (fun _ hj => by cases hj) (fun hr => by cases hr) (fun _ hd => by cases hd) ?_
      (fun hp => by cases hp) ?_ (fun heq => absurd heq hi)
    · grind [Function.update_apply]
    · intro u
      rw [huser]
      simp [Image.user, Function.update_apply]
      grind
    · intro u
      rw [hmem]
      simp [Image.inMemory, Function.update_apply]
      grind
    · grind [Function.update_apply]
    · grind [Function.update_apply]

/-! ### Reading a text -/

/-- **The text has been read**, and the pages in front of the image are those of the text. -/
theorem Kept.textRead (hm : Ample OWNERS map₀) (h : Kept map₀ s)
    (hstage : (s.process i).stage = .readingText d) (htext : (s.process i).pTextp = some t) :
    Kept map₀ ((s.setText t
      { s.text t with xCaddr := d, xCcount := (s.text t).xCcount + 1 }).setStage i
        (.readingImage (d + (s.text t).xSize))) := by
  have hi : i ≠ 0 := h.tables.ne_zero (by simp [hstage]) (by simp [hstage])
  have hok := h.tables.image i
  simp only [Image.Ok, hstage] at hok
  obtain ⟨hsize, haddr⟩ := hok
  obtain ⟨t', htext', hcc⟩ := h.tables.readingText i d hstage
  obtain rfl : t = t' := Option.some.inj (htext.symm.trans htext')
  have huser : (s.process i).user = some t := user_of_readingText hstage htext
  have hcount := h.tables.count_ne_zero huser
  obtain ⟨-, hxsize, hxaligned⟩ := h.tables.sized t hcount
  have hown : s.memOwn (.inl i) =
      (d / PAGE_SIZE, Allocator.pages ((s.process i).pSize + (s.text t).xSize)) := by
    rw [memOwn_image hi]
    simp only [Image.pages, hstage, System.textSize, htext]
  -- the text is in whole pages, so that the image begins with a page
  have hsum := toNat_add_small (hsize.2.trans (by decide)) (hxsize.2.trans (by decide))
  have hpos := hsize.1
  have hend := (h.memory.page_le hm hown (by
    have := hsize.2
    have := hxsize.2
    rw [toNat_pages (by omega)]
    omega)).2
  obtain ⟨halign, hunion, hdisj⟩ := range_pages haddr hxaligned (hxsize.2.trans (by decide)) hpos
    (hsize.2.trans (by decide)) hend
  have honly : Only s ((s.setText t
      { s.text t with xCaddr := d, xCcount := (s.text t).xCcount + 1 }).setStage i
        (.readingImage (d + (s.text t).xSize))) i :=
    only_update h.tables (by simp [hstage]) rfl (setText_keep Text.xSize rfl)
  refine ⟨?_, ?_, ?_⟩
  · have himage : ((s.setText t
        { s.text t with xCaddr := d, xCcount := (s.text t).xCcount + 1 }).setStage i
          (.readingImage (d + (s.text t).xSize))).memOwn (.inl i) =
        ((d + (s.text t).xSize) / PAGE_SIZE, Allocator.pages (s.process i).pSize) := by
      rw [memOwn_image hi]
      simp [Image.pages]
    have hpart : ((s.setText t
        { s.text t with xCaddr := d, xCcount := (s.text t).xCcount + 1 }).setStage i
          (.readingImage (d + (s.text t).xSize))).memOwn (.inr t) =
        (d / PAGE_SIZE, Allocator.pages (s.text t).xSize) := by
      simp [System.memOwn, Text.pages, text_setText]
    refine h.memory.pass (k := .inl i) (l := .inr t) (by simp) ?_ ?_ ?_ fun l hl hlt => ?_
    · simp [System.memOwn, Text.pages, hcc]
    · rw [himage, hpart, hown, Set.union_comm]
      exact hunion
    · rw [himage, hpart]
      exact hdisj.symm
    · refine memOwn_frame h.tables honly l hl fun u hu => ?_
      rw [text_setStage, text_setText, Function.update_of_ne fun heq => hlt (by rw [hu, heq])]
  · refine h.swapper.keep (k := .inl i) ?_ fun l hl => ?_
    · simp [System.swapOwn, Image.blocks, hstage]
    · refine swapOwn_frame honly l hl fun u _ => ?_
      rw [text_setStage]
      exact setText_keep Text.blocks
        (y := { s.text t with xCaddr := d, xCcount := (s.text t).xCcount + 1 }) rfl u
  · have hreading := h.tables.reading i
    have hi' : System.Reading (s.process i) = true := by rw [System.Reading, hstage]
    have hsized := h.tables.sized
    have hothers : ∀ j, j ≠ i → System.Reading (s.process j) = false := by
      intro j hj
      by_contra hr
      exact hj (hreading j hi' (Bool.not_eq_false _ ▸ hr)).symm
    refine h.tables.set ⟨hsize, halign⟩ ?_ ?_ ?_ (not_waited h.tables (by simp [hstage]))
      (fun _ hj => by cases hj) (fun _ => hothers) (fun _ hd => by cases hd) ?_
      (fun hp => by cases hp) ?_ (fun heq => absurd heq hi)
    · rw [text_setStage, text_setText]
      grind [Function.update_apply]
    · intro u
      rw [text_setStage, text_setText, Function.update_apply]
      simp [Image.user, hstage]
      grind
    · intro u
      rw [text_setStage, text_setText, Function.update_apply]
      simp [Image.inMemory, hstage, htext]
      grind
    · intro j d' u hj hd
      have hr := hothers j hj
      rw [System.Reading, hd] at hr
      cases hr
    · rw [text_setStage, text_setText]
      grind [Function.update_apply]

end Images
end UnixV6pp
