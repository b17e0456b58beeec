import UnixV6pp.Fs.Paths

/-!
# Open files, seen by one process

The calls on descriptors that need no path.  A file descriptor that a process has keeps
the open file, and the open file keeps its inode, for as long as the process does not
close it itself.

* `Level` — nothing is left in hand that was not there before.
* `closeF_spec`, `close_spec`, `dup_spec`, `rdwr_spec`, `fork_spec` — **the calls.**
-/

namespace UnixV6pp
namespace SystemCalls

open Threads Kernel Code Inode

variable {n : ℕ} {E : Prop} {X : Kernel n → Prop} {ok : Fin n → Kernel n → Action n → Prop}
variable {p : Fin n} {g g' g₀ : Process} {i : Slot} {s : Kernel n} {f : FileSlot} {fd : Fd}

/-- The same in hand as before, apart from locks. -/
def Level (g g' : Process) : Prop := ∃ J, g'.loc = { g.loc with inside := J }

theorem Level.refl : Level g g := ⟨g.loc.inside, rfl⟩

theorem Kept.level (h : Kept E g g') : Level g g' := by
  obtain ⟨J, rfl, -⟩ := h
  exact ⟨J, rfl⟩

/-- What is in hand, by the view. -/
theorem Steady.free (hg : Steady (s.view p)) : s.FreeFds p := by
  have hloc : (s.view p).loc = s.loc p := loc_view
  have hl := hg.loc
  rw [hloc] at hl
  exact ⟨⟨live_of_view hg.kernel, hl.tearing, hl.settled.2.2.2⟩, hl.settled.1⟩

theorem Steady.not_fresh (hg : Steady (s.view p)) (f : FileSlot) : s.books.fresh p f = false := by
  have hl := hg.loc
  rw [loc_view] at hl
  exact hl.fresh f

/-- An open descriptor of the process leads to an inode. -/
theorem viaOk_file (hs : s.Valid) (hg : Steady (s.view p)) (hfd : (s.proc p).uOfiles fd = some f) :
    s.ViaOk p (s.file f).fInode (.file fd f) := by
  have hfds : s.books.fds p fd = some f := by
    rw [hg.free.fds]
    exact hfd
  refine ⟨hfds, ?_⟩
  have howner := hs.books.owner_of_fds hfds (hg.not_fresh f)
  change (s.file f).owner ≠ none at howner
  change (s.file f).owner = _
  unfold File.owner at howner ⊢
  split
  · rfl
  · next howns => exact absurd (if_neg howns) howner

section

variable (hR : Rules E X ok)

include hR

/-! ### Leaving an open file -/

/-- What a process is with a file that it is about to leave. -/
structure Closing (g : Process) (f : FileSlot) : Prop extends InCall g where
  borrowed : g.loc.borrowed = none
  closing : g.loc.closingFile = some f

omit hR in
theorem Closing.closing_eq (hg : Closing (s.view p) f) : s.books.closing p = some f := by
  have hclosing := hg.closing
  rw [loc_view] at hclosing
  exact hclosing

theorem leave_wp (hI : s.Valid ∧ X s) (hg : Closing (s.view p) f) :
    Kwp X ok p (if (s.file f).fCount ≤ 1 then iPut (s.file f).fInode (.file f)
      else perform (.decFile f)) (fun _ s' => (s'.Valid ∧ X s') ∧
        ∃ J, s'.view p = (s.view p).setLoc { (s.view p).loc with inside := J, closingFile := none })
      s := by
  have htearing : s.books.tearing p = none := (tearing_of_view rfl).trans hg.tearing
  have hborrowed : (s.loc p).borrowed = none := (borrowed_of_view rfl).trans hg.borrowed
  obtain ⟨hpos, howner⟩ := hI.1.books.owner_of_closing hg.closing_eq htearing
  split
  · next hcount =>
    have hone : (s.file f).fCount = 1 := by
      change 0 < (s.file f).fCount at hpos
      omega
    have howns : (s.file f).owner = some (s.file f).fInode := by
      change (s.file f).owner ≠ none at howner
      unfold File.owner at howner ⊢
      split
      · rfl
      · next howns => exact absurd (if_neg howns) howner
    have hput : CanPut E s p (s.file f).fInode (.file f) :=
      ⟨hg.toInCall, ⟨howns, hone, hg.closing_eq⟩, .inr hborrowed, fun _ => trivial⟩
    refine wp_mono ?_ (iPut_wp hR hI hput)
    rintro _ s' ⟨hI', hview⟩
    exact ⟨hI', _, hview⟩
  · next hcount =>
    have hfree : s.Free p := ⟨live_of_view hg.kernel, htearing, hborrowed⟩
    have hne : (s.file f).fCount ≠ 1 := fun h => hcount h.le
    refine act_wp hR hI ⟨hfree, hg.closing_eq, hne⟩ trivial fun hI' => ⟨hI', ?_⟩
    refine ⟨(s.view p).loc.inside, ?_⟩
    change ((Kernel.setFile s f _).setLoc p _).view p = _
    rw [view_setLoc, loc_view]
    rfl

theorem closeF_spec (hg : Closing g f) : KSpec X ok p g (closeF f) fun _ g' =>
    ∃ J, g' = g.setLoc { g.loc with inside := J, closingFile := none } := by
  rintro s hI rfl
  apply state_wp.2
  apply bind_wp.2
  -- what `CloseF` does for a pipe does not touch the table of files
  have hpipe : ∀ b : Bool, Kwp X ok p (whenever b (perform (.closePipe (s.file f).fInode)))
      (fun _ s' => (s'.Valid ∧ X s') ∧ s'.file = s.file ∧ s'.view p = s.view p) s := by
    intro b
    cases b with
    | false => exact ⟨hI, rfl, rfl⟩
    | true =>
      refine act_wp hR hI trivial trivial fun hI' => ⟨hI', rfl, ?_⟩
      exact (view_wakeUpAll _).trans (view_wakeUpAll _)
  refine wp_mono ?_ (hpipe _)
  rintro _ s' ⟨hI', hfile, hview⟩
  rw [← hview] at hg
  have hleave := leave_wp hR hI' hg
  rw [hfile, hview] at hleave
  exact hleave

/-! ### Calls without a path -/

omit hR in
/-- A file that is open at a descriptor can be left. -/
theorem closable (hg : Steady (s.view p)) (hfd : (s.proc p).uOfiles fd = some f) :
    s.FreeFds p ∧ (s.proc p).uOfiles fd = some f ∧ s.books.closing p = none ∧
      s.books.fresh p f = false := by
  have hclosing := hg.loc.closingFile
  rw [loc_view] at hclosing
  exact ⟨hg.free, hfd, hclosing, hg.not_fresh f⟩

theorem close_spec (hg : Steady g) (fd : Fd) :
    KSpec X ok p g (close p fd) fun _ g' => Level g g' := by
  rintro s hI rfl
  apply state_wp.2
  cases hfd : (s.proc p).uOfiles fd with
  | none =>
    refine wp_mono ?_ (setError_spec hR s hI rfl)
    rintro _ s' ⟨hI', hview⟩
    exact ⟨hI', hview ▸ .refl⟩
  | some f =>
    dsimp only
    apply bind_wp.2
    refine act_wp hR hI (closable hg hfd) trivial fun hI' => ?_
    have hview : (s.exec p (.clearFd fd f)).view p = ((s.setFd p fd none).view p).setLoc
        { (s.setFd p fd none).loc p with closingFile := some f } := view_setLoc
    have hkernel : ((s.setFd p fd none).view p).whereabouts = .kernel := by
      unfold setFd
      rw [view_setProc, Process.view_whereabouts]
      have hk := (Process.view_whereabouts (s.proc p)).1 hg.kernel
      exact hk
    have hloc : (s.setFd p fd none).loc p = (s.view p).loc := by
      rw [loc_view]
      exact loc_setProc_self
    rw [hloc] at hview
    have hclosing : Closing ((s.exec p (.clearFd fd f)).view p) f := by
      rw [hview]
      exact ⟨⟨hkernel, hg.loc.tearing⟩, hg.borrowed, rfl⟩
    refine wp_mono ?_ (closeF_spec hR hclosing _ hI' rfl)
    rintro _ s' ⟨hI'', J, hview'⟩
    refine ⟨hI'', J, ?_⟩
    rw [hview', hview]
    have hnone := hg.loc.closingFile
    unfold Process.setLoc
    rw [← hnone]

omit hR in
theorem allocFreeSlot_some (h : s.allocFreeSlot p = some fd) : (s.proc p).uOfiles fd = none := by
  have hp := List.find?_some h
  simpa only [decide_eq_true_eq] using hp

omit hR in
theorem freeFile_some (h : s.freeFile = some f) : (s.file f).fCount = 0 := by
  have hp := List.find?_some h
  simpa only [decide_eq_true_eq] using hp

theorem dup_spec (hg : Steady g) (fd : Fd) :
    KSpec X ok p g (dup p fd) fun _ g' => Level g g' := by
  rintro s hI rfl
  apply state_wp.2
  have hfail : Kwp X ok p (perform .setError)
      (fun _ s' => (s'.Valid ∧ X s') ∧ Level (s.view p) (s'.view p)) s := by
    refine wp_mono ?_ (setError_spec hR s hI rfl)
    rintro _ s' ⟨hI', hview⟩
    exact ⟨hI', hview ▸ .refl⟩
  cases hfd : (s.proc p).uOfiles fd with
  | none => exact hfail
  | some f =>
    cases hnew : s.allocFreeSlot p with
    | none => exact hfail
    | some newFd =>
      have hallowed : Allowed E s p (.dup newFd f) :=
        ⟨hg.free, allocFreeSlot_some hnew, ⟨fd, hfd⟩, hg.not_fresh f⟩
      refine act_wp hR hI hallowed trivial fun hI' => ⟨hI', (s.view p).loc.inside, ?_⟩
      rw [loc_view, loc_view]
      exact loc_setProc_self

/-- **`Rdwr`**: the descriptor keeps the inode in the table while the process sleeps. -/
theorem rdwr_spec (hg : Steady g) (fd : Fd) (mode : UInt32) :
    KSpec X ok p g (rdwr p fd mode) fun _ g' => Level g g' := by
  rintro s hI rfl
  apply state_wp.2
  cases hfd : (s.proc p).uOfiles fd with
  | none =>
    refine wp_mono ?_ (setError_spec hR s hI rfl)
    rintro _ s' ⟨hI', hview⟩
    exact ⟨hI', hview ▸ .refl⟩
  | some f =>
    dsimp only
    have hlive : (s.proc p).live = true := live_of_view hg.kernel
    apply bind_wp.2
    refine act_wp hR hI ⟨hlive, viaOk_file hI.1 hg hfd, hg.free.borrowed⟩ trivial fun hI₁ => ?_
    generalize hi : (s.file f).fInode = i at *
    generalize hb : (⟨i, .file fd f, (s.inode i).iDev, (s.inode i).iNumber⟩ : Borrowed) = b
    have hview : (s.exec p (.borrow i (.file fd f))).view p =
        (s.view p).setLoc ((s.view p).loc.lend (some b)) := by
      rw [loc_view, ← hb]
      exact view_setLoc
    have hslot : b.slot = i := by rw [← hb]
    clear hb hi
    generalize hg₁ : (s.view p).setLoc ((s.view p).loc.lend (some b)) = g₁ at hview
    have hcall : InCall g₁ := hg₁ ▸ ⟨hg.kernel, hg.loc.tearing⟩
    have hborrowed : g₁.loc.borrowed = some b := hg₁ ▸ rfl
    have hrest : KSpec X ok p g₁ (do
        nFlock i
        let s ← state
        perform (.setFields i (if mode = FREAD then IACC else IACC ||| IUPD)
          (s.inode i).iMode (s.inode i).iNlink)
        diskWaits
        mayFail
        nFrele i
        perform .unborrow) fun _ g' => Level (s.view p) g' := by
      have hent : Holds g₁ i := .inr ⟨b, hborrowed, hslot⟩
      apply (nFlock_spec hR hent).bind
      rintro _ g₂ rfl
      refine Spec.get fun s₁ => Spec.then ?_ fun _ => ?_
      · exact quiet_spec hR trivial (fun _ _ _ => trivial) fun _ => rfl
      refine Spec.then diskWaits_spec fun _ => Spec.then (mayFail_spec hR) fun _ => ?_
      have hcall₂ : InCall (g₁.setLoc (g₁.loc.setInside i true)) := ⟨hcall.kernel, hcall.tearing⟩
      apply (prele_spec hR hcall₂ (.inl hent) fun _ => Function.update_self _ _ _).bind
      rintro _ g₃ hg₃
      have hkernel : g₃.whereabouts = .kernel := by rw [hg₃]; exact hcall.kernel
      have hlent : g₃.loc.borrowed = some b := by rw [hg₃]; exact hborrowed
      have hout : g₃.loc.inside b.slot = false := by
        rw [hg₃, hslot]
        exact Function.update_self _ _ _
      apply (unborrow_spec hR hkernel hlent fun _ hin => ?_).mono
      · rintro _ g₄ rfl
        refine ⟨g₃.loc.inside, ?_⟩
        have hnone := hg.borrowed
        rw [hg₃, ← hg₁]
        unfold Process.setLoc Local.lend Local.setInside
        rw [← hnone]
      · rw [hout] at hin
        cases hin
    exact hrest _ hI₁ hview

theorem fork_spec (hg : Steady g) : KSpec X ok p g (fork p) fun _ g' => Level g g' := by
  refine Spec.pick fun k => ?_
  rintro s hI rfl
  apply state_wp.2
  have hfail : Kwp X ok p (perform .setError)
      (fun _ s' => (s'.Valid ∧ X s') ∧ Level (s.view p) (s'.view p)) s := by
    refine wp_mono ?_ (setError_spec hR s hI rfl)
    rintro _ s' ⟨hI', hview⟩
    exact ⟨hI', hview ▸ .refl⟩
  split
  · next hk =>
    split
    · exact hfail
    · have hsettled : Settled (s.loc p) := by
        rw [← loc_view]
        exact hg.loc.settled
      apply bind_wp.2
      refine act_wp hR hI ⟨hg.free.toFree, hsettled, hg.not_fresh⟩ trivial fun hI' => ?_
      refine wp_mono ?_ (diskWaits_spec _ hI' view_clone_of_ne)
      rintro _ s' ⟨hI'', hview⟩
      exact ⟨hI'', hview ▸ .refl⟩
  · exact hfail

end

end SystemCalls
end UnixV6pp
