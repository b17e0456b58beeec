import UnixV6pp.Fs.OpenCalls

/-!
# Processes that come and go, seen by themselves

Pipes, current directories, text segments and the end of a process: here references go
from one owner to another, and the process is in between only for the time that it takes
to give back the old one.

* `pipe_spec`, `chDir_spec`, `exec_spec`, `exit_spec` — **the calls.**
-/

namespace UnixV6pp
namespace SystemCalls

open Threads Kernel Code Inode

variable {n : ℕ} {E : Prop} {X : Kernel n → Prop} {ok : Fin n → Kernel n → Action n → Prop}
variable {p : Fin n} {g g' g₀ g₁ : Process} {i j : Slot} {s : Kernel n}
variable {f fr fw : FileSlot} {fd fd' : Fd} {t : TextSlot}

/-! ### Pipes -/

/-- In a call, and nothing open half-way but new files. -/
structure Opening (g : Process) : Prop extends InCall g where
  borrowed : g.loc.borrowed = none
  closingFd : g.loc.closingFd = none

theorem Steady.opening (hg : Steady g) : Opening g := ⟨hg.inCall, hg.borrowed, hg.loc.settled.1⟩

theorem Opening.alloc (hg : Opening g) (fd : Fd) (f : FileSlot) : Opening (g.alloc fd f) :=
  ⟨⟨hg.kernel, hg.tearing⟩, hg.borrowed, hg.closingFd⟩

theorem Opening.free (hg : Opening (s.view p)) : s.FreeFds p := by
  have hborrowed := hg.borrowed
  have hclosing := hg.closingFd
  rw [loc_view] at hborrowed hclosing
  exact ⟨⟨live_of_view hg.kernel, (tearing_of_view rfl).trans hg.tearing, hborrowed⟩, hclosing⟩

section

variable (hR : Rules E X ok)

include hR

theorem undoPipe_spec (hst : Steady g₁) (hfresh : g₁.loc.fresh f = false) :
    KSpec X ok p (g₁.alloc fd f) (perform (.undoPipe fd f)) fun _ g' => ∃ uOfiles,
      g' = { g₁ with uOfiles := uOfiles } := by
  apply act_spec hR
  · trivial
  · intro s hs hX hview
    have hopen : Opening (s.view p) := hview ▸ hst.opening.alloc fd f
    have hfd : (s.proc p).uOfiles fd = some f := by
      rw [← (Process.view_of_kernel hopen.kernel).1]
      change (s.view p).uOfiles fd = some f
      rw [hview]
      exact Function.update_self _ _ _
    have hloc : s.loc p = (g₁.alloc fd f).loc := by rw [← hview, loc_view]
    have hfresh' : s.books.fresh p f = true := by
      change (s.loc p).fresh f = true
      rw [hloc]
      exact Function.update_self _ _ _
    refine ⟨⟨hopen.free, hfd, hfresh'⟩, Function.update (g₁.alloc fd f).uOfiles fd none, ?_⟩
    change (((s.setFile f _).setFd p fd none).setLoc p _).view p = _
    generalize hs' : s.setFile f _ = s'
    have hview' : s'.view p = s.view p := by rw [← hs']; rfl
    have hk' : (s'.view p).whereabouts = .kernel := hview' ▸ hopen.kernel
    have hloc' : (s'.setFd p fd none).loc p = s.loc p := by
      rw [← loc_view (s := s), ← hview', loc_view]
      exact loc_setProc_self
    rw [view_setLoc, view_setFd hk', hloc', hloc, hview', hview]
    unfold Process.alloc Process.setLoc
    dsimp only
    rw [Function.update_idem, Function.update_idem, ← hfresh, Function.update_eq_self]

variable (hpipe : ∀ s p fr fw i, ok p s (.pipe fr fw i) → (s.inode i).iCount = 1)
  (hX : ∀ s p fr fw i, s.Valid → X s → ok p s (.pipe fr fw i) → X (s.exec p (.pipe fr fw i)))

include hpipe hX

omit hR in
theorem makePipe_spec (h₁ : Has g i g₁) (hg : Steady g) (hfr : g₁.loc.fresh fr = false)
    (hfw : (g₁.alloc fd fr).loc.fresh fw = false) :
    KSpec X ok p ((g₁.alloc fd fr).alloc fd' fw) (perform (.pipe fr fw i))
      fun _ g' => Level g g' := by
  intro s hI hview hok
  have hst := h₁.steady hg
  have hopen : Opening (s.view p) := hview ▸ (hst.opening.alloc fd fr).alloc fd' fw
  have hloc : s.loc p = ((g₁.alloc fd fr).alloc fd' fw).loc := by rw [← hview, loc_view]
  have hne : fw ≠ fr := by
    rintro rfl
    exact Bool.false_ne_true (hfw.symm.trans (Function.update_self _ _ _))
  have hfw₁ : g₁.loc.fresh fw = false := (Function.update_of_ne hne _ _).symm.trans hfw
  have hrefs : 0 < s.books.refs p i := by
    change 0 < (s.loc p).refs i
    rw [hloc]
    exact h₁.refs_pos
  have hfresh : s.books.fresh p fr = true ∧ s.books.fresh p fw = true := by
    change (s.loc p).fresh fr = true ∧ (s.loc p).fresh fw = true
    rw [hloc]
    refine ⟨?_, Function.update_self _ _ _⟩
    exact (Function.update_of_ne (Ne.symm hne) _ _).trans (Function.update_self _ _ _)
  have hallowed : Allowed False s p (.pipe fr fw i) :=
    ⟨hopen.free.toFree, hrefs, hfresh.1, hfresh.2, hne, hpipe s p fr fw i hok⟩
  refine ⟨⟨hI.1.exec hallowed, hX s p fr fw i hI.1 hI.2 hok⟩, ?_⟩
  have hend : (s.exec p (.pipe fr fw i)).loc p = { g₁.loc.give i with
      inside := Function.update g₁.loc.inside i false } := by
    have hsteps : ∀ r : Kernel n, r.loc p = s.loc p →
        ((((r.setFresh p fr false).setFresh p fw false).give p i).setInside p i false).loc p =
          { (s.loc p).give i with
            fresh := Function.update (Function.update (s.loc p).fresh fr false) fw false
            inside := Function.update (s.loc p).inside i false } := by
      intro r hr
      unfold setInside give setFresh
      simp only [loc_setLoc, hr]
      rfl
    refine (hsteps _ rfl).trans ?_
    rw [hloc]
    have hback : Function.update (Function.update (Function.update (Function.update g₁.loc.fresh fr
        true) fw true) fr false) fw false = g₁.loc.fresh := by
      funext k
      simp only [Function.update_apply]
      split
      · next hk => rw [hk, hfw₁]
      · split
        · next hk => rw [hk, hfr]
        · rfl
    unfold Process.alloc Local.give
    dsimp only
    rw [hback]
  have hlevel := h₁.level_give ⟨Function.update g₁.loc.inside i false, rfl⟩
  obtain ⟨J, hJ⟩ := hlevel
  refine ⟨J, ?_⟩
  rw [loc_view, hend]
  exact hJ

theorem pipe_spec (hg : Steady g) : KSpec X ok p g (pipe p) fun _ g' => Level g g' := by
  refine Spec.then pickInt_spec fun dev => ?_
  apply (iAlloc_spec hR hg.inCall).bind
  rintro r g₁ hr
  cases r with
  | none => exact Spec.ret (Kept.level hr)
  | some i =>
    have h₁ : Has g i g₁ := Got.has hr hg.kernel
    have hst := h₁.steady hg
    apply (fAlloc_spec hR hst.inCall hst.borrowed hst.loc.settled.1).bind
    rintro r g₂ hr'
    cases r with
    | none =>
      obtain rfl := hr'
      exact put_spec hR h₁ hg
    | some r =>
      obtain ⟨fd, fr⟩ := r
      obtain ⟨hfr, rfl⟩ := hr'
      have hopen := hst.opening.alloc fd fr
      apply (fAlloc_spec hR hopen.toInCall hopen.borrowed hopen.closingFd).bind
      rintro r g₃ hr''
      cases r with
      | none =>
        obtain rfl := hr''
        apply (undoPipe_spec hR hst hfr).bind
        rintro _ g₄ ⟨uOfiles, rfl⟩
        exact put_spec hR (h₁.of_level ⟨_, rfl⟩ hst.kernel) hg
      | some r =>
        obtain ⟨fd', fw⟩ := r
        obtain ⟨hfw, rfl⟩ := hr''
        exact makePipe_spec hpipe hX h₁ hg hfr hfw

end

/-! ### Current directories -/

/-- The directory of the process, as far as it knows. -/
theorem Steady.cwd (hg : Steady (s.view p)) : s.books.cwd p = some (s.proc p).uCdir := by
  have htaken : (s.loc p).cdirTaken = false := by
    rw [← loc_view]
    exact hg.loc.settled.2.1
  have hcwd := cwd_of_view hg.kernel htaken
  rwa [show (s.view p).uCdir = (s.proc p).uCdir from (Process.view_of_kernel hg.kernel).2.1] at hcwd

section

variable (hR : Rules E X ok)

include hR

theorem chDir_spec (hE : ¬E) (hg : Steady g) : KSpec X ok p g (chDir p) fun _ g' => Level g g' := by
  apply (nameI_spec hR hg).bind
  rintro r g₁ hr
  cases r with
  | inode i =>
    have hgot : Got E g i g₁ := hr.2
    refine Spec.then either_spec fun refused => ?_
    cases refused with
    | true => exact put_spec hR (hgot.has hg.kernel) hg
    | false =>
      have hst := hgot.steady hg
      rintro s hI rfl
      apply state_wp.2
      apply bind_wp.2
      have hrefs : 0 < s.books.refs p i := by
        rw [refs_of_view rfl]
        exact hgot.refs_pos
      have hput : CanPut E s p (s.proc p).uCdir (.cdir (some i)) := by
        refine ⟨hst.inCall, ⟨hst.cwd, ?_⟩, .inr hst.free.borrowed, fun he => (hE he).elim⟩
        intro j hj
        cases hj
        exact hrefs
      refine wp_mono ?_ (iPut_wp hR hI hput)
      rintro _ s' ⟨hI', hview⟩
      generalize (s.proc p).uCdir = d at *
      have hcall : InCall (s'.view p) := by
        rw [hview]
        exact ⟨hst.kernel, hst.loc.tearing⟩
      have hent : Entitled (s'.view p) i := by
        rw [hview]
        exact .inr ⟨hst.kernel, rfl, rfl⟩
      refine wp_mono ?_ (prele_spec hR hcall hent (fun he => (hE he).elim) s' hI' rfl)
      rintro _ s'' ⟨hI'', hview''⟩
      refine ⟨hI'', ?_⟩
      rw [hview'', hview]
      have hcdir : (s.view p).loc.cdirTaken = false := hst.loc.settled.2.1
      have hlevel := (hgot.has hg.kernel).level_give
        ⟨Function.update (Function.update (s.view p).loc.inside d false) i false, rfl⟩
      obtain ⟨J, hJ⟩ := hlevel
      refine ⟨J, Eq.trans ?_ hJ⟩
      change ({ ({ (s.view p).loc.setInside d false with cdirTaken := false } : Local).give i with
        inside := _ } : Local) = _
      unfold Process.setLoc Local.give Local.setInside
      dsimp only
      rw [hcdir]
      rfl
  | create i => exact absurd hr.1 (by decide)
  | parent i mIno => exact absurd hr.1 (by decide)
  | null => exact Spec.ret hr.level

/-! ### Text segments -/

/-- A process that is about to leave its text segment. -/
structure HasText (g : Process) (t : TextSlot) : Prop extends InCall g where
  borrowed : g.loc.borrowed = none
  dropping : g.loc.dropping = false
  text : g.pTextp = some t

/-- The process without a text segment. -/
def noText (g : Process) (J : Slot → Bool) : Process :=
  { g with pTextp := none, loc := { g.loc with inside := J } }

omit hR in
theorem view_dropText (hk : (s.view p).whereabouts = .kernel) : (s.dropText p).view p =
    { s.view p with pTextp := none, loc := { s.loc p with dropping := false } } := by
  have hkernel := (Process.view_whereabouts (s.proc p)).1 hk
  unfold Kernel.dropText
  rw [view_setProc]
  unfold Kernel.view Process.view
  dsimp only
  rw [if_pos hkernel, if_pos hkernel]

theorem xFree_spec (hg : HasText g t) :
    KSpec X ok p g (xFree t) fun _ g' => ∃ J, g' = noText g J := by
  rintro s hI rfl
  have hlive : (s.proc p).live = true := live_of_view hg.kernel
  have htearing : s.books.tearing p = none := (tearing_of_view rfl).trans hg.tearing
  have hborrowed : (s.loc p).borrowed = none := (borrowed_of_view rfl).trans hg.borrowed
  have hdropping : (s.loc p).dropping = false := by
    rw [← loc_view]
    exact hg.dropping
  have htext : (s.proc p).pTextp = some t :=
    (Process.view_of_kernel hg.kernel).2.2.symm.trans hg.text
  have huse : s.books.textUse p = some t := by
    change (s.proc p).textUse = some t
    unfold Process.textUse
    change (s.proc p).loc.dropping = false at hdropping
    rw [hlive, hdropping, htext]
    rfl
  apply bind_wp.2
  refine act_wp hR hI ⟨⟨hlive, htearing, hborrowed⟩, hdropping, htext⟩ trivial fun hI₁ => ?_
  have hview : (s.exec p (.decText t)).view p =
      (s.view p).setLoc { (s.view p).loc with dropping := true } := by
    change ((s.setText t _).setLoc p _).view p = _
    rw [view_setLoc, loc_view]
    rfl
  have howner : ((s.exec p (.decText t)).text t).owner = ((s.exec p (.decText t)).text t).xIptr := by
    have hself : (s.exec p (.decText t)).text t = { s.text t with
        xCount := (s.text t).xCount - 1 } := Function.update_self _ _ _
    rw [hself]
    exact hI.1.books.textOwner_of_use huse
  generalize s.exec p (.decText t) = s₁ at *
  have hst : (s₁.view p).whereabouts = .kernel := by rw [hview]; exact hg.kernel
  -- the end of it
  have hdrop : ∀ g₂ : Process, (∃ J, g₂ = (s.view p).setLoc
      { (s.view p).loc with dropping := true, inside := J }) →
      KSpec X ok p g₂ (perform .dropText) fun _ g' => ∃ J, g' = noText (s.view p) J := by
    rintro g₂ ⟨J, rfl⟩
    apply act_spec hR
    · trivial
    · intro s₂ hs₂ _ hview₂
      have hk₂ : (s₂.view p).whereabouts = .kernel := by rw [hview₂]; exact hg.kernel
      have hloc₂ : s₂.loc p = { (s.view p).loc with dropping := true, inside := J } := by
        rw [← loc_view, hview₂]
        rfl
      refine ⟨⟨⟨live_of_view hk₂, ?_, ?_⟩, ?_⟩, J, ?_⟩
      · exact (congrArg Local.tearing hloc₂).trans hg.tearing
      · exact (congrArg Local.borrowed hloc₂).trans hg.borrowed
      · exact congrArg Local.dropping hloc₂
      · change (s₂.dropText p).view p = _
        have hfalse := hg.dropping
        rw [view_dropText hk₂, hloc₂, hview₂]
        unfold noText Process.setLoc
        dsimp only
        rw [← hfalse]
  have hdone : Kwp X ok p (perform .dropText) (fun _ s' => (s'.Valid ∧ X s') ∧
      ∃ J, s'.view p = noText (s.view p) J) s₁ := hdrop _ ⟨_, rfl⟩ s₁ hI₁ hview
  apply state_wp.2
  cases hx : (s₁.text t).xIptr with
  | none => exact hdone
  | some i =>
    apply bind_wp.2
    cases hcount : decide ((s₁.text t).xCount = 0) with
    | false => exact hdone
    | true =>
      have hput : CanPut E s₁ p i (.text t) := by
        have hloc₁ : s₁.loc p = { (s.view p).loc with dropping := true } := by
          rw [← loc_view, hview]
          rfl
        refine ⟨⟨hst, ?_⟩, ⟨howner.trans hx, of_decide_eq_true hcount⟩, .inr ?_, fun _ => trivial⟩
        · rw [hview]
          exact hg.tearing
        · exact (congrArg Local.borrowed hloc₁).trans hg.borrowed
      refine wp_mono ?_ (iPut_wp hR hI₁ hput)
      rintro _ s₂ ⟨hI₂, hview₂⟩
      refine hdrop _ ⟨Function.update (s.view p).loc.inside i false, ?_⟩ s₂ hI₂ rfl
      rw [hview₂, hview]
      rfl

theorem xFreeOld_spec (hg : InCall g) (hborrowed : g.loc.borrowed = none)
    (hdropping : g.loc.dropping = false) :
    KSpec X ok p g (xFreeOld p) fun _ g' => ∃ J, g' = noText g J := by
  rintro s hI rfl
  apply state_wp.2
  have htext : (s.view p).pTextp = (s.proc p).pTextp := (Process.view_of_kernel hg.kernel).2.2
  cases hx : (s.proc p).pTextp with
  | none =>
    refine ⟨hI, (s.view p).loc.inside, ?_⟩
    unfold noText
    rw [← hx, ← htext]
  | some t =>
    exact xFree_spec hR ⟨hg, hborrowed, hdropping, htext.trans hx⟩ s hI rfl

omit hR in
theorem sharedText_some (h : s.sharedText i = some t) : (s.text t).xIptr = some i := by
  have hp := List.find?_some h
  simpa only [decide_eq_true_eq] using hp

omit hR in
theorem freeText_some (h : s.freeText = some t) : (s.text t).xIptr = none := by
  have hp := List.find?_some h
  simpa only [decide_eq_true_eq] using hp

theorem findText_spec (hg : Steady g) (htext : g.pTextp = none) (hrefs : 0 < g.loc.refs i) :
    KSpec X ok p g (findText i) fun _ g' => g'.whereabouts = .kernel ∧ g'.loc = g.loc := by
  rintro s hI rfl
  apply state_wp.2
  have hfree := hg.free.toFree
  have hdropping : (s.loc p).dropping = false := by
    rw [← loc_view]
    exact hg.loc.settled.2.2.1
  have hnone : (s.proc p).pTextp = none := (Process.view_of_kernel hg.kernel).2.2.symm.trans htext
  have hrefs' : 0 < s.books.refs p i := by rwa [refs_of_view rfl]
  -- a new text segment shows only in `p_textp`
  have hset : ∀ r : Kernel n, r.proc = s.proc → ∀ t,
      ((r.setProc p { s.proc p with pTextp := some t }).view p).whereabouts = .kernel ∧
        ((r.setProc p { s.proc p with pTextp := some t }).view p).loc = (s.view p).loc := by
    intro r hr t
    rw [view_setProc, Process.view_whereabouts, Process.view_loc, loc_view]
    have hk := (Process.view_whereabouts (s.proc p)).1 hg.kernel
    exact ⟨hk, rfl⟩
  split
  · next t hshared =>
    have howner : s.books.textOwner t = some i := by
      have hx := sharedText_some hshared
      by_contra hne
      have hne' : s.books.textOwner t ≠ s.books.xIptr t := fun h => hne (h.trans hx)
      obtain ⟨q, j, hq⟩ := hI.1.books.textOwned t hne'
      obtain ⟨-, hxj, -, -⟩ := hI.1.books.torn q j _ hq
      obtain rfl : i = j := Option.some.inj (hx.symm.trans hxj)
      obtain rfl := hI.1.eq_of_torn hrefs' hq
      rw [hfree.tearing] at hq
      cases hq
    refine act_wp hR hI ⟨hfree, hdropping, hnone, i, howner⟩ trivial fun hI' => ⟨hI', ?_⟩
    exact hset (s.setText t _) rfl t
  · next t _ hnew =>
    refine act_wp hR hI ⟨hfree, hdropping, hnone, freeText_some hnew, hrefs'⟩ trivial ?_
    exact fun hI' => ⟨hI', hset ((s.setCount i _).setText t _) rfl t⟩
  · have hhalt : KSpec X ok p (s.view p) halt fun _ g' =>
        g'.whereabouts = .kernel ∧ g'.loc = (s.view p).loc := halt_spec hR
    exact hhalt s hI rfl

theorem exeDec_spec : KSpec X ok p g (do
    let s ← state
    perform (.exeDec (10 ≤ s.exeCnt))) fun _ g' => g' = g := by
  refine Spec.get fun s => ?_
  generalize decide (10 ≤ s.exeCnt) = wake
  apply quiet_spec hR
  · trivial
  · exact fun _ _ _ => trivial
  · intro s'
    cases wake with
    | true => exact view_wakeUpAll _
    | false => rfl

theorem exeWait_spec : KSpec X ok p g (waitWhile fun s => if 10 ≤ s.exeCnt then some .exeSleep
    else none) fun _ g' => g' = g := by
  intro s hI hg
  refine ⟨hI, fun s' hI' hg' => ⟨fun a ha hok => ?_, fun _ => ⟨hI', hg'.trans hg⟩⟩⟩
  dsimp only at ha
  split at ha
  · cases ha
    refine ⟨⟨hI'.1.exec (E := E) trivial, hR.step s' p _ hI'.1 hI'.2 trivial trivial hok⟩, ?_⟩
    exact view_setProc
  · cases ha

theorem exec_spec (hg : Steady g) : KSpec X ok p g (execCall p) fun _ g' => Level g g' := by
  apply (nameI_spec hR hg).bind
  rintro r g₁ hr
  cases r with
  | inode i =>
    have hgot : Got E g i g₁ := hr.2
    have h₁ := hgot.has hg.kernel
    have hst := h₁.steady hg
    refine Spec.then (exeWait_spec hR) fun _ => Spec.then ?_ fun _ => ?_
    · exact quiet_spec hR trivial (fun _ _ _ => trivial) fun _ => rfl
    refine Spec.then either_spec fun refused => ?_
    cases refused with
    | true =>
      apply (put_spec hR h₁ hg).bind
      intro _ g₂ hlevel
      apply (exeDec_spec hR).mono
      rintro _ g₃ rfl
      exact hlevel
    | false =>
      refine Spec.then diskWaits_spec fun _ => Spec.then either_spec fun rejected => ?_
      cases rejected with
      | true => exact put_spec hR h₁ hg
      | false =>
        apply (xFreeOld_spec hR hst.inCall hst.borrowed hst.loc.settled.2.2.1).bind
        rintro _ g₂ ⟨J, rfl⟩
        have h₂ : Has g i (noText g₁ J) := h₁.of_level ⟨J, rfl⟩ hst.kernel
        apply (findText_spec hR (h₂.steady hg) rfl h₂.refs_pos).bind
        rintro _ g₃ ⟨hk, hloc⟩
        have h₃ : Has g i g₃ := h₂.of_level ⟨_, hloc⟩ hk
        refine Spec.then diskWaits_spec fun _ => ?_
        apply (put_spec hR h₃ hg).bind
        intro _ g₄ hlevel
        apply (exeDec_spec hR).mono
        rintro _ g₅ rfl
        exact hlevel
  | create i => exact absurd hr.1 (by decide)
  | parent i mIno => exact absurd hr.1 (by decide)
  | null => exact Spec.ret hr.level

/-! ### The end of a process -/

/-- The process with these descriptors closed. -/
def closeAll (g : Process) (l : List Fd) (J : Slot → Bool) : Process :=
  { g with
    uOfiles := fun fd => if fd ∈ l then none else g.uOfiles fd
    loc := { g.loc with inside := J } }

omit hR in
theorem view_dropFd (hk : (s.view p).whereabouts = .kernel) : (s.dropFd p fd).view p =
    { s.view p with
      uOfiles := Function.update (s.view p).uOfiles fd none
      loc := { s.loc p with closingFd := none } } := by
  have hkernel := (Process.view_whereabouts (s.proc p)).1 hk
  unfold Kernel.dropFd
  rw [view_setProc]
  unfold Kernel.view Process.view
  dsimp only
  rw [if_pos hkernel, if_pos hkernel]

/-- `Exit` closes one file. -/
theorem exitFile_spec (hg : Steady g) (hfd : g.uOfiles fd = some f) :
    KSpec X ok p g (do
      perform (.takeFd fd f)
      closeF f
      perform (.dropFd fd)) fun _ g' => ∃ J, g' = closeAll g [fd] J := by
  rintro s hI rfl
  have hfd' : (s.proc p).uOfiles fd = some f :=
    (congrFun (Process.view_of_kernel hg.kernel).1 fd).symm.trans hfd
  apply bind_wp.2
  refine act_wp hR hI (closable hg hfd') trivial fun hI₁ => ?_
  have hview : (s.exec p (.takeFd fd f)).view p = (s.view p).setLoc { (s.view p).loc with
      closingFd := some fd, closingFile := some f } := by
    change ((s.setLoc p _).setLoc p _).view p = _
    rw [view_setLoc, loc_setLoc, view_setLoc, setLoc_setLoc, loc_view]
  generalize s.exec p (.takeFd fd f) = s₁ at *
  have hclosing : Closing (s₁.view p) f := by
    rw [hview]
    exact ⟨⟨hg.kernel, hg.loc.tearing⟩, hg.borrowed, rfl⟩
  apply bind_wp.2
  refine wp_mono ?_ (closeF_spec hR hclosing s₁ hI₁ rfl)
  rintro _ s₂ ⟨hI₂, J, hview₂⟩
  rw [hview] at hview₂
  have hk₂ : (s₂.view p).whereabouts = .kernel := by rw [hview₂]; exact hg.kernel
  have hloc₂ : s₂.loc p = { (s.view p).loc with
      closingFd := some fd, inside := J, closingFile := none } := by
    rw [← loc_view, hview₂]
    rfl
  have hallowed : Allowed E s₂ p (.dropFd fd) := by
    refine ⟨⟨live_of_view hk₂, ?_, ?_⟩, ?_⟩
    · exact (congrArg Local.tearing hloc₂).trans hg.loc.tearing
    · exact (congrArg Local.borrowed hloc₂).trans hg.borrowed
    · exact congrArg Local.closingFd hloc₂
  refine act_wp hR hI₂ hallowed trivial fun hI₃ => ⟨hI₃, J, ?_⟩
  change (s₂.dropFd p fd).view p = _
  have hfds : (fun fd' => if fd' ∈ [fd] then none else (s.view p).uOfiles fd') =
      Function.update (s.view p).uOfiles fd none := by
    funext fd'
    rw [Function.update_apply]
    simp only [List.mem_singleton]
  have hnone : (s.view p).loc.closingFd = none ∧ (s.view p).loc.closingFile = none :=
    ⟨hg.loc.settled.1, hg.loc.closingFile⟩
  rw [view_dropFd hk₂, hloc₂, hview₂]
  unfold closeAll Process.setLoc
  dsimp only
  rw [hfds, hnone.1, hnone.2]

omit hR in
theorem closeAll_steady (hg : Steady g) (l : List Fd) (J : Slot → Bool) :
    Steady (closeAll g l J) :=
  ⟨hg.kernel, hg.loc.update _ _⟩

theorem exitFiles_spec (l : List Fd) (hg : Steady g) :
    KSpec X ok p g (exitFiles p l) fun _ g' => ∃ J, g' = closeAll g l J := by
  induction l generalizing g with
  | nil =>
    refine Spec.ret ⟨g.loc.inside, ?_⟩
    unfold closeAll
    simp only [List.not_mem_nil, if_false]
  | cons fd l ih =>
    -- the rest of the list, when one descriptor is closed
    have hrest : ∀ J, KSpec X ok p (closeAll g [fd] J) (exitFiles p l)
        fun _ g' => ∃ J, g' = closeAll g (fd :: l) J := by
      intro J
      apply (ih (closeAll_steady hg [fd] J)).mono
      rintro _ g' ⟨K, rfl⟩
      refine ⟨K, ?_⟩
      unfold closeAll
      dsimp only
      congr 1
      funext fd'
      by_cases hfd : fd' = fd
      · simp [hfd]
      · simp [hfd]
    rintro s hI rfl
    apply state_wp.2
    have hview : (s.view p).uOfiles fd = (s.proc p).uOfiles fd :=
      congrFun (Process.view_of_kernel hg.kernel).1 fd
    cases hfd : (s.proc p).uOfiles fd with
    | some f =>
      have hone := (exitFile_spec (p := p) hR hg (hview.trans hfd)).bind
        (f := fun _ => exitFiles p l) fun _ g' hg' => by
          obtain ⟨J, rfl⟩ := hg'
          exact hrest J
      simp only [Code.bind_assoc] at hone
      exact hone s hI rfl
    | none =>
      have hsame : closeAll (s.view p) [fd] (s.view p).loc.inside = s.view p := by
        unfold closeAll
        have hfds : (fun fd' => if fd' ∈ [fd] then none else (s.view p).uOfiles fd') =
            (s.view p).uOfiles := by
          funext fd'
          simp only [List.mem_singleton]
          split
          · next h => rw [h, hview, hfd]
          · rfl
        rw [hfds]
      have hdone := hrest (s.view p).loc.inside
      rw [hsame] at hdone
      exact hdone s hI rfl

/-- A process that has given back all it had. -/
structure Leaving (g₀ g : Process) : Prop where
  kernel : g.whereabouts = .kernel
  fds : ∀ fd, g.uOfiles fd = none
  text : g.pTextp = none
  loc : ∃ J, g.loc = { g₀.loc with inside := J, cdirTaken := true }

theorem vanish_spec (hg₀ : Steady g₀) (hg : Leaving g₀ g) :
    KSpec X ok p g (perform .exit) fun _ g' => Level g₀ g' := by
  rintro s hI rfl
  obtain ⟨J, hJ⟩ := hg.loc
  have hloc : s.loc p = { g₀.loc with inside := J, cdirTaken := true } := by
    rw [← loc_view, hJ]
  have hview := Process.view_of_kernel hg.kernel
  have hallowed : Allowed E s p .exit := by
    refine ⟨⟨⟨live_of_view hg.kernel, ?_, ?_⟩, ?_⟩, fun fd => ?_, ?_, ?_, ?_⟩
    · exact (congrArg Local.tearing hloc).trans hg₀.loc.tearing
    · exact (congrArg Local.borrowed hloc).trans hg₀.borrowed
    · exact (congrArg Local.closingFd hloc).trans hg₀.loc.settled.1
    · exact (congrFun hview.1 fd).symm.trans (hg.fds fd)
    · exact congrArg Local.cdirTaken hloc
    · exact hview.2.2.symm.trans hg.text
    · exact (congrArg Local.dropping hloc).trans hg₀.loc.settled.2.2.1
  refine act_wp hR hI hallowed trivial fun hI' => ⟨hI', J, ?_⟩
  rw [loc_view]
  have hexit : (s.exec p .exit).loc p = { s.loc p with cdirTaken := false } := loc_setProc_self
  have htaken := hg₀.loc.settled.2.1
  rw [hexit, hloc]
  dsimp only
  rw [htaken]

theorem exit_spec (hE : ¬E) (hg : Steady g) :
    KSpec X ok p g (exitCall p) fun _ g' => Level g g' := by
  apply (exitFiles_spec hR (List.finRange 15) hg).bind
  rintro _ g₁ ⟨J, rfl⟩
  have hst := closeAll_steady hg (List.finRange 15) J
  rintro s hI hview
  rw [← hview] at hst
  apply state_wp.2
  apply bind_wp.2
  have hput : CanPut E s p (s.proc p).uCdir (.cdir none) := by
    refine ⟨hst.inCall, ⟨hst.cwd, ?_⟩, .inr hst.free.borrowed, fun he => (hE he).elim⟩
    intro j hj
    cases hj
  refine wp_mono ?_ (iPut_wp hR hI hput)
  rintro _ s₂ ⟨hI₂, hview₂⟩
  generalize (s.proc p).uCdir = d at *
  have hrest : KSpec X ok p (s₂.view p) (do
      xFreeOld p
      diskWaits
      perform .exit) fun _ g' => Level g g' := by
    have hcall : InCall (s₂.view p) := by
      rw [hview₂]
      exact ⟨hst.kernel, hst.loc.tearing⟩
    have hborrowed : (s₂.view p).loc.borrowed = none := by
      rw [hview₂]
      exact hst.borrowed
    have hdropping : (s₂.view p).loc.dropping = false := by
      rw [hview₂]
      exact hst.loc.settled.2.2.1
    apply (xFreeOld_spec hR hcall hborrowed hdropping).bind
    rintro _ g₃ ⟨K, rfl⟩
    refine Spec.then diskWaits_spec fun _ => ?_
    apply vanish_spec hR hg
    refine ⟨hcall.kernel, fun fd => ?_, rfl, K, ?_⟩
    · rw [hview₂, hview]
      change (if fd ∈ List.finRange 15 then none else g.uOfiles fd) = none
      rw [if_pos (List.mem_finRange fd)]
    · rw [hview₂, hview]
      rfl
  exact hrest s₂ hI₂ rfl

end

end SystemCalls
end UnixV6pp
