import UnixV6pp.Fs.OpenFiles

/-!
# Opening files, seen by one process

`Open1` turns the reference that `NameI` took into one of an open file, or gives it back
on every way out.  The calls that change directories pass references from hand to hand.

* `fAlloc_spec`, `open1_spec`, `makNode_spec` — the steps.
* `openCall_spec`, `pipe_spec`, `creat_spec`, `link_spec`, `unLink_spec` — **the calls.**
-/

namespace UnixV6pp

/-- A file just allocated is at the descriptor. -/
def Process.alloc (g : Process) (fd : Fd) (f : FileSlot) : Process :=
  { g with
    uOfiles := Function.update g.uOfiles fd (some f)
    loc := { g.loc with fresh := Function.update g.loc.fresh f true } }

namespace SystemCalls

open Threads Kernel Code Inode

variable {n : ℕ} {E : Prop} {X : Kernel n → Prop} {ok : Fin n → Kernel n → Action n → Prop}
variable {p : Fin n} {g g' g₀ : Process} {i j : Slot} {s : Kernel n} {f : FileSlot} {fd : Fd}

theorem view_setFd (hk : (s.view p).whereabouts = .kernel) (v : Option FileSlot) :
    (s.setFd p fd v).view p =
      { s.view p with uOfiles := Function.update (s.view p).uOfiles fd v } := by
  have hkernel := (Process.view_whereabouts (s.proc p)).1 hk
  unfold setFd
  rw [view_setProc]
  unfold Kernel.view Process.view
  dsimp only
  rw [if_pos hkernel, if_pos hkernel]

/-- One reference more in hand than before, apart from locks. -/
def Has (g₀ : Process) (i : Slot) (g : Process) : Prop :=
  g.whereabouts = .kernel ∧ ∃ J, g.loc = { g₀.loc.take i with inside := J }

theorem Got.has (h : Got E g₀ i g) (hg : g₀.whereabouts = .kernel) : Has g₀ i g := by
  obtain ⟨J, rfl, -⟩ := h
  exact ⟨hg, J, rfl⟩

theorem Has.refs_pos (h : Has g₀ i g) : 0 < g.loc.refs i := by
  obtain ⟨-, J, hJ⟩ := h
  rw [hJ]
  change 0 < Function.update g₀.loc.refs i (g₀.loc.refs i + 1) i
  rw [Function.update_self]
  exact Nat.succ_pos _

theorem Has.steady (h : Has g₀ i g) (hg : Steady g₀) : Steady g := by
  obtain ⟨hk, J, hJ⟩ := h
  refine ⟨hk, ?_⟩
  rw [hJ]
  exact hg.loc.update _ _

/-- The reference is given back, or has gone elsewhere. -/
theorem Has.level_give (h : Has g₀ i g) {l : Local} (hl : ∃ J, l = { g.loc.give i with inside := J }) :
    Level g₀ (g.setLoc l) := by
  obtain ⟨-, J, hJ⟩ := h
  obtain ⟨K, rfl⟩ := hl
  refine ⟨K, ?_⟩
  rw [hJ]
  unfold Process.setLoc Local.give Local.take
  dsimp only
  rw [Function.update_self, Function.update_idem, Nat.add_sub_cancel, Function.update_eq_self]

theorem Has.putBack (h : Has g₀ i g) : Level g₀ (g.putBack i .hand) := h.level_give ⟨_, rfl⟩

theorem Has.of_level (h : Has g₀ i g) (h' : Level g g') (hk : g'.whereabouts = .kernel) :
    Has g₀ i g' := by
  obtain ⟨-, J, hJ⟩ := h
  obtain ⟨K, hK⟩ := h'
  refine ⟨hk, K, ?_⟩
  rw [hK, hJ]

theorem Has.of_kept (h : Has g₀ i g) (h' : Kept E g g') : Has g₀ i g' := by
  apply h.of_level h'.level
  obtain ⟨J, rfl, -⟩ := h'
  exact h.1

theorem refs_swap (refs : Slot → ℕ) (i j : Slot) :
    ∀ r : Slot → ℕ, r = Function.update refs i (refs i + 1) →
      Function.update (Function.update r j (r j + 1)) i
        (Function.update r j (r j + 1) i - 1) = Function.update refs j (refs j + 1) := by
  rintro r rfl
  funext k
  by_cases hki : k = i
  · subst hki
    by_cases hkj : k = j
    · subst hkj
      simp only [Function.update_self]
      omega
    · simp only [Function.update_self, Function.update_of_ne hkj]
      omega
  · rw [Function.update_of_ne hki]
    by_cases hkj : k = j
    · subst hkj
      rw [Function.update_self, Function.update_self, Function.update_of_ne hki]
    · rw [Function.update_of_ne hkj, Function.update_of_ne hkj, Function.update_of_ne hki]

/-- Two references, of which the first is given back. -/
theorem Has.swap (h : Has g₀ i g) (h' : Got E g j g') : Has g₀ j (g'.putBack i .hand) := by
  obtain ⟨hk, J, hJ⟩ := h
  obtain ⟨K, rfl, -⟩ := h'
  refine ⟨hk, Function.update K i false, ?_⟩
  unfold Process.putBack Process.setLoc Local.give Local.setInside Local.take
  dsimp only
  rw [hJ]
  congr 1
  exact refs_swap g₀.loc.refs i j _ rfl

theorem Got.swap (h : Got E g₀ i g) (h' : Got E g j g') : Got E g₀ j (g'.putBack i .hand) := by
  obtain ⟨J, rfl, hJ⟩ := h
  obtain ⟨K, rfl, hK⟩ := h'
  refine ⟨Function.update K i false, ?_, fun he => ?_⟩
  · unfold Process.putBack Process.setLoc Local.give Local.setInside Local.take
    dsimp only
    congr 2
    exact refs_swap g₀.loc.refs i j _ rfl
  · obtain ⟨hout, rfl⟩ := hJ he
    obtain ⟨hout', rfl⟩ := hK he
    -- the second inode is another one, because nobody is inside it
    have hji : j ≠ i := by
      rintro rfl
      exact Bool.false_ne_true (hout'.symm.trans (Function.update_self _ _ _))
    refine ⟨(Function.update_of_ne hji _ _).symm.trans hout', ?_⟩
    change Function.update (Function.update (Function.update g₀.loc.inside i true) j true) i false =
      Function.update g₀.loc.inside j true
    rw [Function.update_comm hji, Function.update_idem, ← hout, Function.update_eq_self]

section

variable (hR : Rules E X ok)

include hR

/-! ### A new open file -/

/-- What `FAlloc` leads to. -/
def AllocPost (g : Process) (r : Option (Fd × FileSlot)) (g' : Process) : Prop :=
  match r with
  | none => g' = g
  | some (fd, f) => g.loc.fresh f = false ∧ g' = g.alloc fd f

theorem fAlloc_spec (hg : InCall g) (hborrowed : g.loc.borrowed = none)
    (hclosing : g.loc.closingFd = none) : KSpec X ok p g (fAlloc p) (AllocPost g) := by
  rintro s hI rfl
  apply state_wp.2
  have hfail : Kwp X ok p (do
      perform .setError
      return none) (fun r s' => (s'.Valid ∧ X s') ∧ AllocPost (s.view p) r (s'.view p)) s := by
    have hspec : KSpec X ok p (s.view p) (do
        perform .setError
        return none) (AllocPost (s.view p)) := Spec.then (setError_spec hR) fun _ => Spec.ret rfl
    exact hspec s hI rfl
  split
  · next fd f hfd hf =>
    rw [loc_view] at hborrowed hclosing
    have htearing : s.books.tearing p = none := (tearing_of_view rfl).trans hg.tearing
    have hfree : s.FreeFds p := ⟨⟨live_of_view hg.kernel, htearing, hborrowed⟩, hclosing⟩
    apply bind_wp.2
    refine act_wp hR hI ⟨hfree, allocFreeSlot_some hfd, freeFile_some hf⟩ trivial ?_
    refine fun hI' => ⟨hI', ?_, ?_⟩
    · rw [loc_view, ← Bool.not_eq_true]
      intro hfresh
      have hcount := (hI.1.books.fresh p f hfresh).2.1
      change (s.file f).fCount = 1 at hcount
      rw [freeFile_some hf] at hcount
      cases hcount
    · change (((s.setFile f _).setFd p fd (some f)).setLoc p _).view p = _
      generalize hs' : s.setFile f _ = s'
      have hview : s'.view p = s.view p := by rw [← hs']; rfl
      have hloc : (s'.setFd p fd (some f)).loc p = (s.view p).loc := by
        rw [← hview, loc_view]
        exact loc_setProc_self
      have hk : (s'.view p).whereabouts = .kernel := hview ▸ hg.kernel
      rw [view_setLoc, view_setFd hk, hloc, hview]
      rfl
  · exact hfail

omit hR in
theorem mayFail_wp {Q : Unit → Kernel n → Prop} (h : Q () s)
    (hfail : ok p s .setError → Q () (s.exec p .setError)) : Kwp X ok p mayFail Q s := by
  intro k
  cases k with
  | zero => exact hfail
  | succ k => exact h

/-- The open file takes over the reference; when its device cannot be opened, it gives the
reference back. -/
theorem openFile_wp (hI : s.Valid ∧ X s) (hg₀ : Steady g₀) {g₁ : Process} (h₁ : Has g₀ i g₁)
    (hfresh : g₁.loc.fresh f = false) (hview : s.view p = g₁.alloc fd f)
    (hout : E → g₁.loc.inside i = false) (mode : UInt32) :
    Kwp X ok p (do
      perform (.openFile f mode i)
      mayFail
      let error ← failed p
      whenever error do
        perform (.undoOpen fd f)
        iPut i .hand) (fun _ s' => (s'.Valid ∧ X s') ∧ Level g₀ (s'.view p)) s := by
  have hst := h₁.steady hg₀
  have hloc : s.loc p = (g₁.alloc fd f).loc := by rw [← hview, loc_view]
  have hk : (s.view p).whereabouts = .kernel := by rw [hview]; exact hst.kernel
  have hlive : (s.proc p).live = true := live_of_view hk
  have hfree : s.FreeFds p := by
    refine ⟨⟨hlive, ?_, ?_⟩, ?_⟩
    · exact (congrArg Local.tearing hloc).trans hst.loc.tearing
    · exact (congrArg Local.borrowed hloc).trans hst.borrowed
    · exact (congrArg Local.closingFd hloc).trans hst.loc.settled.1
  have hrefs : 0 < s.books.refs p i := by
    change 0 < (s.loc p).refs i
    rw [hloc]
    exact h₁.refs_pos
  have hfresh' : s.books.fresh p f = true := by
    change (s.loc p).fresh f = true
    rw [hloc]
    exact Function.update_self _ _ _
  have hcount : (s.file f).fCount = 1 := (hI.1.books.fresh p f hfresh').2.1
  have hout' : E → (s.loc p).inside i = false := by
    rw [hloc]
    exact hout
  apply bind_wp.2
  refine act_wp hR hI ⟨hfree.toFree, hrefs, hfresh', hout'⟩ trivial fun hI₁ => ?_
  -- the process after that
  have hview₁ : (s.exec p (.openFile f mode i)).view p = (g₁.alloc fd f).setLoc
      (g₁.loc.give i) := by
    change (((s.setFile f _).setFresh p f false).give p i).view p = _
    generalize hs' : s.setFile f _ = s'
    have hview' : s'.view p = s.view p := by rw [← hs']; rfl
    have hloc' : s'.loc p = s.loc p := by rw [← hs']; rfl
    unfold setFresh give
    rw [view_setLoc, view_setLoc, loc_setLoc, hview', hloc', hview, hloc, setLoc_setLoc]
    unfold Process.alloc Process.setLoc Local.give
    dsimp only
    rw [Function.update_idem, ← hfresh, Function.update_eq_self]
  generalize hs₁ : s.exec p (.openFile f mode i) = s₁ at *
  have hfile : s₁.file f = { s.file f with fFlag := mode, fInode := i, owns := true } := by
    rw [← hs₁]
    exact Function.update_self _ _ _
  -- and at the end
  have hend : ∀ s₂ : Kernel n, (s₂.Valid ∧ X s₂) → s₂.file = s₁.file → s₂.view p = s₁.view p →
      Kwp X ok p (do
        let error ← failed p
        whenever error do
          perform (.undoOpen fd f)
          iPut i .hand) (fun _ s' => (s'.Valid ∧ X s') ∧ Level g₀ (s'.view p)) s₂ := by
    intro s₂ hI₂ hfile₂ hview₂
    have hlevel : Level g₀ (s₂.view p) := by
      rw [hview₂, hview₁]
      exact h₁.level_give ⟨_, rfl⟩
    change Kwp X ok p (whenever (s₂.proc p).uError _) _ s₂
    cases (s₂.proc p).uError with
    | false => exact ⟨hI₂, hlevel⟩
    | true =>
      rw [hview₁] at hview₂
      have hk₂ : (s₂.view p).whereabouts = .kernel := by rw [hview₂]; exact hst.kernel
      have hloc₂ : s₂.loc p = g₁.loc.give i := by rw [← loc_view, hview₂]; rfl
      have hfree₂ : s₂.FreeFds p := by
        refine ⟨⟨live_of_view hk₂, ?_, ?_⟩, ?_⟩
        · exact (congrArg Local.tearing hloc₂).trans hst.loc.tearing
        · exact (congrArg Local.borrowed hloc₂).trans hst.borrowed
        · exact (congrArg Local.closingFd hloc₂).trans hst.loc.settled.1
      have hfd : (s₂.proc p).uOfiles fd = some f := by
        rw [← (Process.view_of_kernel hk₂).1]
        change (s₂.view p).uOfiles fd = some f
        rw [hview₂]
        exact Function.update_self _ _ _
      have howns : (s₂.file f).owns = true ∧ (s₂.file f).fCount = 1 ∧ (s₂.file f).fInode = i := by
        rw [hfile₂, hfile]
        exact ⟨rfl, hcount, rfl⟩
      apply bind_wp.2
      refine act_wp hR hI₂ ⟨hfree₂, hfd, howns.1, howns.2.1⟩ trivial fun hI₃ => ?_
      have hview₃ : (s₂.exec p (.undoOpen fd f)).view p =
          ({ g₁.alloc fd f with uOfiles := Function.update (g₁.alloc fd f).uOfiles fd none }
            : Process).setLoc ((g₁.loc.give i).take i) := by
        change (((s₂.setFd p fd none).setFile f _).take p (s₂.file f).fInode).view p = _
        rw [howns.2.2, view_take]
        change ((s₂.setFd p fd none).view p).setLoc (((s₂.setFd p fd none).loc p).take i) = _
        have hloc₃ : (s₂.setFd p fd none).loc p = g₁.loc.give i := by
          rw [← hloc₂]
          exact loc_setProc_self
        rw [view_setFd hk₂, hview₂, hloc₃]
        rfl
      have hcall₃ : InCall ((s₂.exec p (.undoOpen fd f)).view p) := by
        rw [hview₃]
        exact ⟨hst.kernel, hst.loc.tearing⟩
      have hrefs₃ : 0 < ((s₂.exec p (.undoOpen fd f)).view p).loc.refs i := by
        rw [hview₃]
        change 0 < Function.update (g₁.loc.give i).refs i ((g₁.loc.give i).refs i + 1) i
        rw [Function.update_self]
        exact Nat.succ_pos _
      refine wp_mono ?_ (iPut_spec hR hcall₃ hrefs₃ _ hI₃ rfl)
      rintro _ s₄ ⟨hI₄, hview₄⟩
      refine ⟨hI₄, ?_⟩
      rw [hview₄, hview₃]
      refine h₁.level_give ⟨Function.update g₁.loc.inside i false, ?_⟩
      unfold Process.setLoc Local.give Local.take Local.setInside
      dsimp only
      simp only [Function.update_self, Function.update_idem, Nat.add_sub_cancel]
  apply bind_wp.2
  apply mayFail_wp
  · exact hend s₁ hI₁ rfl rfl
  · intro hok
    have hI₂ : (s₁.exec p .setError).Valid ∧ X (s₁.exec p .setError) :=
      ⟨hI₁.1.exec (E := E) trivial, hR.step s₁ p _ hI₁.1 hI₁.2 trivial trivial hok⟩
    refine hend _ hI₂ rfl ?_
    exact view_setProc

/-- **`Open1`** keeps nothing of the reference it was given. -/
theorem open1_spec (hgot : Got E g₀ i g) (hg₀ : Steady g₀) (mode : UInt32) (trf : ℕ) :
    KSpec X ok p g (open1 p i mode trf) fun _ g' => Level g₀ g' := by
  have hg := hgot.steady hg₀
  have hput : KSpec X ok p g (iPut i .hand) fun _ g' => Level g₀ g' := by
    apply (iPut_spec hR hg.inCall hgot.refs_pos).mono
    rintro _ g' rfl
    exact (hgot.has hg₀.kernel).putBack
  refine Spec.then (whenever_spec (mayFail_spec hR)) fun _ => Spec.then failed_spec fun error => ?_
  cases error with
  | true => exact hput
  | false =>
    refine Spec.then (whenever_spec (iTrunc_spec hR i)) fun _ => ?_
    apply (prele_spec hR hg.inCall (.inl (.inl hgot.refs_pos)) fun he => hgot.inside he).bind
    rintro _ g₁ hg₁
    have h₁ : Has g₀ i g₁ := by
      obtain ⟨hk, J, hJ⟩ := hgot.has hg₀.kernel
      refine ⟨by rw [hg₁]; exact hk, Function.update J i false, ?_⟩
      rw [hg₁]
      change g.loc.setInside i false = _
      rw [hJ]
      rfl
    have hst := h₁.steady hg₀
    have hout : g₁.loc.inside i = false := by
      rw [hg₁]
      exact Function.update_self _ _ _
    clear hg₁
    apply (fAlloc_spec hR hst.inCall hst.borrowed hst.loc.settled.1).bind
    rintro r g₂ hr
    cases r with
    | none =>
      obtain rfl := hr
      apply (iPut_spec hR hst.inCall h₁.refs_pos).mono
      rintro _ g' rfl
      exact h₁.putBack
    | some r =>
      obtain ⟨fd, f⟩ := r
      obtain ⟨hfresh, rfl⟩ := hr
      intro s hI hview
      exact openFile_wp hR hI hg₀ h₁ hfresh hview (fun _ => hout) mode

theorem openCall_spec (hg : Steady g) : KSpec X ok p g (openCall p) fun _ g' => Level g g' := by
  refine Spec.then pickFlags_spec fun mode => ?_
  apply (nameI_spec hR hg).bind
  rintro r g' hr
  cases r with
  | inode i => exact open1_spec hR hr.2 hg mode 0
  | create i => exact absurd hr.1 (by decide)
  | parent i mIno => exact absurd hr.1 (by decide)
  | null => exact Spec.ret hr.level

/-! ### Changes of a directory -/

omit hR in
/-- A reference is left behind for good. -/
theorem forget_spec (hforget : ∀ s p i, s.Valid → X s → Allowed E s p (.forget i) →
      ok p s (.forget i) → X (s.exec p (.forget i)))
    (h : Has g₀ i g) (hg₀ : Steady g₀) :
    KSpec X ok p g (perform (.forget i)) fun _ g' =>
      Level g₀ g' ∧ g' = g.setLoc (g.loc.give i) := by
  rintro s hI rfl hok
  have hst := h.steady hg₀
  have hallowed : Allowed E s p (.forget i) := by
    refine ⟨hst.free.toFree, ?_⟩
    rw [refs_of_view rfl]
    exact h.refs_pos
  have hview : (s.exec p (.forget i)).view p = (s.view p).setLoc ((s.view p).loc.give i) := by
    rw [loc_view]
    exact view_setLoc
  refine ⟨⟨hI.1.exec hallowed, hforget s p i hI.1 hI.2 hallowed hok⟩, ?_, hview⟩
  rw [hview]
  exact h.level_give ⟨_, rfl⟩

theorem setFields_spec (flag mode : UInt32) (nlink : ℤ) :
    KSpec X ok p g (perform (.setFields i flag mode nlink)) fun _ g' => g' = g :=
  quiet_spec hR trivial (fun _ _ _ => trivial) fun _ => rfl

theorem writeDir_spec (hg : InCall g) (hrefs : 0 < g.loc.refs i) :
    KSpec X ok p g (writeDir i) fun _ g' => g' = g.putBack i .hand := by
  refine Spec.get fun s => Spec.then (setFields_spec hR _ _ _) fun _ => ?_
  refine Spec.then diskWaits_spec fun _ => Spec.then (mayFail_spec hR) fun _ => ?_
  exact iPut_spec hR hg hrefs

variable (hforget : ∀ s p i, s.Valid → X s → Allowed E s p (.forget i) → ok p s (.forget i) →
  X (s.exec p (.forget i)))

include hforget

/-- **`MakNode`** gives back the directory, unless it finds no inode. -/
theorem makNode_spec (hgot : Got E g₀ i g) (hg₀ : Steady g₀) (mode : UInt32) :
    KSpec X ok p g (makNode i mode) fun r g' =>
      match r with
      | none => Level g₀ g'
      | some j => Got E g₀ j g' := by
  have hg := hgot.steady hg₀
  refine Spec.get fun s => ?_
  apply (iAlloc_spec hR hg.inCall).bind
  rintro r g' hr
  cases r with
  | none =>
    have hhas : Has g₀ i g' := by
      obtain ⟨hk, J, hJ⟩ := hgot.has hg₀.kernel
      obtain ⟨K, rfl, -⟩ := hr
      refine ⟨hk, K, ?_⟩
      change { g.loc with inside := K } = _
      rw [hJ]
    apply (forget_spec hforget hhas hg₀).bind
    rintro _ g'' ⟨hlevel, -⟩
    exact Spec.ret hlevel
  | some j =>
    refine Spec.then (setFields_spec hR _ _ _) fun _ => ?_
    have hrefs : 0 < g'.loc.refs i := by
      have hpos := hgot.refs_pos
      obtain ⟨K, rfl, -⟩ := hr
      change 0 < Function.update g.loc.refs j (g.loc.refs j + 1) i
      rw [Function.update_apply]
      split <;> omega
    apply (writeDir_spec hR (hr.inCall hg.inCall) hrefs).bind
    rintro _ g'' rfl
    exact Spec.ret (hgot.swap hr)

theorem creat_spec (hg : Steady g) : KSpec X ok p g (creat p) fun _ g' => Level g g' := by
  refine Spec.then pickFlags_spec fun mode => ?_
  apply (nameI_spec hR hg).bind
  rintro r g' hr
  cases r with
  | inode i =>
    apply (open1_spec hR hr.2 hg FWRITE 1).bind
    rintro _ g'' hlevel
    refine Spec.get fun s => (setFields_spec hR _ _ _).mono ?_
    rintro _ g₃ rfl
    exact hlevel
  | create i =>
    refine Spec.then failed_spec fun error => ?_
    cases error with
    | true =>
      apply (forget_spec hforget (hr.2.has hg.kernel) hg).mono
      exact fun _ _ h => h.1
    | false =>
      apply (makNode_spec hR hforget hr.2 hg mode).bind
      rintro r g'' hr'
      cases r with
      | none => exact Spec.ret hr'
      | some j => exact open1_spec hR hr' hg FWRITE 2
  | parent i mIno => exact absurd hr.1 (by decide)
  | null => exact Spec.ret hr.level

omit hforget in
theorem put_spec (h : Has g₀ i g) (hg₀ : Steady g₀) :
    KSpec X ok p g (iPut i .hand) fun _ g' => Level g₀ g' := by
  apply (iPut_spec hR (h.steady hg₀).inCall h.refs_pos).mono
  rintro _ g' rfl
  exact h.putBack

theorem link_spec (hg : Steady g) : KSpec X ok p g (link p) fun _ g' => Level g g' := by
  apply (nameI_spec hR hg).bind
  rintro r g₁ hr
  cases r with
  | inode i =>
    have hgot : Got E g i g₁ := hr.2
    have hg₁ := hgot.steady hg
    refine Spec.get fun s => Spec.then either_spec fun refused => ?_
    split
    · exact put_spec hR (hgot.has hg.kernel) hg
    apply (clearLock_spec hR hg₁.inCall (.inl (.inl hgot.refs_pos)) fun he => hgot.inside he).bind
    rintro _ g₂ hg₂
    have h₂ : Has g i g₂ := by
      apply (hgot.has hg.kernel).of_level
      · exact ⟨Function.update g₁.loc.inside i false, by rw [hg₂]; rfl⟩
      · rw [hg₂]
        exact hg₁.kernel
    have hst := h₂.steady hg
    clear hg₂
    apply (nameI_spec hR hst).bind
    rintro r g₃ hr'
    cases r with
    | inode j =>
      have hgot' : Got E g₂ j g₃ := hr'.2
      refine Spec.then (setError_spec hR) fun _ => ?_
      apply (iPut_spec hR (hgot'.steady hst).inCall hgot'.refs_pos).bind
      rintro _ g₄ rfl
      exact put_spec hR (h₂.of_kept hgot'.putBack) hg
    | create d =>
      have hgot' : Got E g₂ d g₃ := hr'.2
      have hst' := hgot'.steady hst
      refine Spec.then failed_spec fun error => Spec.get fun s => ?_
      split
      · apply (forget_spec hforget (hgot'.has hst.kernel) hst).bind
        rintro _ g₄ ⟨hlevel, rfl⟩
        exact put_spec hR (h₂.of_level hlevel hst'.kernel) hg
      · split
        · apply (iPut_spec hR hst'.inCall hgot'.refs_pos).bind
          rintro _ g₄ rfl
          refine Spec.then (setError_spec hR) fun _ => ?_
          exact put_spec hR (h₂.of_kept hgot'.putBack) hg
        · apply (writeDir_spec hR hst'.inCall hgot'.refs_pos).bind
          rintro _ g₄ rfl
          refine Spec.get fun s => Spec.then (setFields_spec hR _ _ _) fun _ => ?_
          exact put_spec hR (h₂.of_kept hgot'.putBack) hg
    | parent d mIno => exact absurd hr'.1 (by decide)
    | null => exact put_spec hR (h₂.of_kept hr') hg
  | create i => exact absurd hr.1 (by decide)
  | parent i mIno => exact absurd hr.1 (by decide)
  | null => exact Spec.ret hr.level

omit hforget in
theorem unLink_spec (hg : Steady g) : KSpec X ok p g (unLink p) fun _ g' => Level g g' := by
  apply (nameI_spec hR hg).bind
  rintro r g₁ hr
  cases r with
  | parent d mIno =>
    have hgot : Got E g d g₁ := hr.2
    have hg₁ := hgot.steady hg
    apply (prele_spec hR hg₁.inCall (.inl (.inl hgot.refs_pos)) fun he => hgot.inside he).bind
    rintro _ g₂ hg₂
    have h₂ : Has g d g₂ := by
      apply (hgot.has hg.kernel).of_level
      · exact ⟨Function.update g₁.loc.inside d false, by rw [hg₂]; rfl⟩
      · rw [hg₂]
        exact hg₁.kernel
    have hst := h₂.steady hg
    clear hg₂
    refine Spec.get fun s => ?_
    apply (iGet_spec hR hst.inCall).bind
    rintro r g₃ ⟨hr', -⟩
    cases r with
    | none => exact halt_spec hR
    | some i =>
      have hgot' : Got E g₂ i g₃ := hr'
      have hst' := hgot'.steady hst
      -- both references are given back at the end
      have hboth : KSpec X ok p g₃ (do
          iPut d .hand
          iPut i .hand) fun _ g' => Level g g' := by
        have hrefs : 0 < g₃.loc.refs d := by
          have hpos := h₂.refs_pos
          obtain ⟨K, rfl, -⟩ := hgot'
          change 0 < Function.update g₂.loc.refs i (g₂.loc.refs i + 1) d
          rw [Function.update_apply]
          split <;> omega
        apply (iPut_spec hR hst'.inCall hrefs).bind
        rintro _ g₄ rfl
        have h₄ : Has g i (g₃.putBack d .hand) := h₂.swap hgot'
        exact put_spec hR h₄ hg
      refine Spec.then either_spec fun refused => ?_
      cases refused with
      | true => exact hboth
      | false =>
        refine Spec.get fun s => Spec.then (setFields_spec hR _ _ _) fun _ => ?_
        refine Spec.then diskWaits_spec fun _ => Spec.then (mayFail_spec hR) fun _ => ?_
        exact Spec.get fun s => Spec.then (setFields_spec hR _ _ _) fun _ => hboth
  | inode i => exact absurd rfl hr.1
  | create i => exact absurd hr.1 (by decide)
  | null => exact Spec.ret hr.level

end

end SystemCalls
end UnixV6pp
