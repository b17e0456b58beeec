import UnixV6pp.Fs.References

/-!
# Every action keeps the tables valid

What a process does to the tables without going to sleep, under what the code has made
sure of by then, leads from valid tables to valid tables.

* `Allowed` — what the code has made sure of before each action.
* `Valid.exec` — **the step lemma.**
-/

namespace UnixV6pp

open Tally Flags Inode

/-- The reference is not that of a current directory. -/
def Source.keepsDir : Source → Prop
  | .cdir _ => False
  | _ => True

namespace Kernel

variable {n : ℕ} {s s' : Kernel n} {p q child : Fin n} {i j : Slot} {src : Source}
variable {f : FileSlot} {t : TextSlot} {fd fd' : Fd}

/-- The process is in the middle of nothing. -/
structure Free (s : Kernel n) (p : Fin n) : Prop where
  live : (s.proc p).live = true
  tearing : s.books.tearing p = none
  borrowed : (s.loc p).borrowed = none

/-- What is asked of the descriptors, beside. -/
structure FreeFds (s : Kernel n) (p : Fin n) : Prop extends s.Free p where
  closingFd : (s.loc p).closingFd = none

theorem FreeFds.ne (h : s.FreeFds p) : (s.loc p).closingFd ≠ some fd := by
  rw [h.closingFd]
  exact (Option.some_ne_none fd).symm

/-- All descriptors count. -/
theorem FreeFds.fds (h : s.FreeFds p) : s.books.fds p = (s.proc p).uOfiles := by
  funext fd
  exact (Process.fds_of_live h.live fd).trans (if_neg h.ne)

namespace Valid

/-- A step that changes the process alone, its files and text segments. -/
theorem of_free (h : s.Valid) (hbooks : s'.books.Ok) (hinode : s'.inode = s.inode)
    (htearing : s'.books.tearing = s.books.tearing) (hroot : s'.rootDirInode = s.rootDirInode)
    (hproc : ∀ q, q ≠ p → s'.proc q = s.proc q)
    (hrest : Rest (s'.proc p) = (Rest (s.proc p))) (hfree : s.Free p)
    (hrefs : ∀ j, s'.books.refs p j ≤ s.books.refs p j)
    (howner : ∀ q fd f, q ≠ p → s.books.fds q fd = some f →
      s'.books.owner f = s.books.owner f) : s'.Valid := by
  apply h.of_local hbooks hinode htearing hproc hroot
  case hknown =>
    intro j hj
    rw [show (s'.proc p).ids = (s.proc p).ids from congrArg Prod.fst hrest]
    exact h.known p j (hj.trans_le (hrefs j))
  case hborrowed =>
    rw [show (s'.loc p).borrowed = (s.loc p).borrowed from congrArg (fun r => r.2.1) hrest]
    exact hfree.borrowed
  case howner => exact howner
  case hgone =>
    apply Process.GoneOk.of_live
    rw [show (s'.proc p).live = (s.proc p).live from congrArg (fun r => r.2.2) hrest]
    exact hfree.live

theorem forget (h : s.Valid) (hfree : s.Free p) (hrefs : 0 < s.books.refs p i) :
    (s.forget p i).Valid := by
  have hbooks : (s.forget p i).books = s.books.forget p i := books_forget
  apply h.of_free (p := p)
  case hbooks => rw [hbooks]; exact h.books.forget hrefs hfree.tearing
  case hinode => rfl
  case htearing => rw [hbooks]; rfl
  case hroot => rfl
  case hproc => exact fun q hq => proc_setProc_of_ne hq
  case hrest => exact rest_setLoc (by rfl)
  case hfree => exact hfree
  case hrefs =>
    intro j
    rw [hbooks]
    exact Books.give_refs_le j
  case howner =>
    intro q fd f _ _
    rw [hbooks]
    rfl

end Valid

theorem rest_setProc {e : Process} (he : Rest e = Rest (s.proc p)) :
    Rest ((s.setProc p e).proc p) = Rest (s.proc p) := by
  rw [proc_setProc_self, he]

theorem rest_setFd (v : Option FileSlot) : Rest ((s.setFd p fd v).proc p) = Rest (s.proc p) := by
  apply rest_setProc
  rfl

theorem rest_setFresh (v : Bool) : Rest ((s.setFresh p f v).proc p) = Rest (s.proc p) :=
  rest_setLoc (by rfl)

theorem rest_setClosing (v : Option FileSlot) :
    Rest ((s.setClosing p v).proc p) = Rest (s.proc p) :=
  rest_setLoc (by rfl)

theorem rest_give : Rest ((s.give p i).proc p) = Rest (s.proc p) := rest_setLoc (by rfl)

namespace Valid

/-! ### Open files -/

theorem fAlloc (h : s.Valid) (hfree : s.FreeFds p) (hfd : (s.proc p).uOfiles fd = none)
    (hcount : (s.file f).fCount = 0) : (s.fAlloc p fd f).Valid := by
  have hbooks : (s.fAlloc p fd f).books = s.books.fAlloc p fd f :=
    books_fAlloc hfree.live hfree.ne
  apply h.of_free (p := p)
  case hbooks =>
    rw [hbooks]
    apply h.books.fAlloc hfree.tearing _ hcount
    rw [hfree.fds, hfd]
  case hinode => rfl
  case htearing => rw [hbooks]; rfl
  case hroot => rfl
  case hproc => exact fun q hq => (proc_setProc_of_ne hq).trans (proc_setProc_of_ne hq)
  case hrest => exact (rest_setFresh true).trans (rest_setFd (some f))
  case hfree => exact hfree.toFree
  case hrefs => intro j; rw [hbooks]; exact le_rfl
  case howner => intro q fd f _ _; rw [hbooks]; rfl

theorem openFile (h : s.Valid) (hfree : s.Free p) (hrefs : 0 < s.books.refs p i)
    (hfresh : s.books.fresh p f = true) (flag : UInt32) : (s.openFile p i f flag).Valid := by
  have hbooks : (s.openFile p i f flag).books = s.books.openFile p i f := books_openFile flag
  apply h.of_free (p := p)
  case hbooks => rw [hbooks]; exact h.books.openFile hfree.tearing hrefs hfresh
  case hinode => rfl
  case htearing => rw [hbooks]; rfl
  case hroot => rfl
  case hproc => exact fun q hq => (proc_setProc_of_ne hq).trans (proc_setProc_of_ne hq)
  case hrest => exact rest_give.trans (rest_setFresh false)
  case hfree => exact hfree
  case hrefs =>
    intro j
    rw [hbooks]
    exact Books.give_refs_le (b := (s.books.setOwner f (some i)).setFresh p f false) j
  case howner =>
    intro q fd g hqp hq
    rw [hbooks]
    apply Function.update_of_ne
    rintro rfl
    exact hqp (h.books.eq_of_fresh hfresh hq)

theorem undoOpen (h : s.Valid) (hfree : s.FreeFds p) (hfd : (s.proc p).uOfiles fd = some f)
    (howns : (s.file f).owns = true) (hcount : (s.file f).fCount = 1) :
    (s.undoOpen p fd f).Valid := by
  have hbooks : (s.undoOpen p fd f).books = s.books.undoOpen p (s.file f).fInode fd f :=
    books_undoOpen hfree.live hfree.ne
  have hfd' : s.books.fds p fd = some f := by rw [hfree.fds, hfd]
  have howner : s.books.owner f = some (s.file f).fInode := if_pos howns
  have hrest : Rest ((s.setFd p fd none).proc p) = Rest (s.proc p) := rest_setFd none
  apply h.of_local (p := p)
  case hbooks => rw [hbooks]; exact h.books.undoOpen hfree.tearing hfd' howner hcount
  case hinode => rfl
  case htearing => rw [hbooks]; rfl
  case hproc => exact fun q hq => (proc_setProc_of_ne hq).trans (proc_setProc_of_ne hq)
  case hroot => rfl
  case hknown =>
    unfold Kernel.undoOpen
    dsimp only
    apply h.known_take
    · exact congrArg Prod.fst hrest
    · change ((s.setFd p fd none).loc p).refs = (s.loc p).refs
      unfold Kernel.setFd
      rw [loc_setProc_self]
    · rfl
  case hborrowed =>
    unfold Kernel.undoOpen
    dsimp only
    rw [borrowed_take]
    exact (congrArg (fun r => r.2.1) hrest).trans hfree.borrowed
  case howner =>
    intro q fd' g hqp hq
    rw [hbooks]
    apply Function.update_of_ne
    rintro rfl
    have htwo := Books.two_le_names hqp hq hfd'
    rw [← h.books.names, show s.books.fCount g = 1 from hcount] at htwo
    omega
  case hgone =>
    apply Process.GoneOk.of_live
    unfold Kernel.undoOpen
    dsimp only
    rw [live_take]
    exact (congrArg (fun r => r.2.2) hrest).trans hfree.live

theorem undoPipe (h : s.Valid) (hfree : s.FreeFds p) (hfd : (s.proc p).uOfiles fd = some f)
    (hfresh : s.books.fresh p f = true) : (s.undoPipe p fd f).Valid := by
  have hbooks : (s.undoPipe p fd f).books = s.books.undoPipe p fd f :=
    books_undoPipe hfree.live hfree.ne
  apply h.of_free (p := p)
  case hbooks =>
    rw [hbooks]
    apply h.books.undoPipe hfree.tearing _ hfresh
    rw [hfree.fds, hfd]
  case hinode => rfl
  case htearing => rw [hbooks]; rfl
  case hroot => rfl
  case hproc => exact fun q hq => (proc_setProc_of_ne hq).trans (proc_setProc_of_ne hq)
  case hrest => exact (rest_setFresh false).trans (rest_setFd none)
  case hfree => exact hfree.toFree
  case hrefs => intro j; rw [hbooks]; exact le_rfl
  case howner => intro q fd f _ _; rw [hbooks]; rfl

theorem clearFd (h : s.Valid) (hfree : s.FreeFds p) (hfd : (s.proc p).uOfiles fd = some f)
    (hclosing : s.books.closing p = none) (hfresh : s.books.fresh p f = false) :
    (s.clearFd p fd f).Valid := by
  have hbooks : (s.clearFd p fd f).books = s.books.clearFd p fd f :=
    books_clearFd hfree.live hfree.ne
  apply h.of_free (p := p)
  case hbooks =>
    rw [hbooks]
    apply h.books.clearFd hfree.tearing _ hclosing hfresh
    rw [hfree.fds, hfd]
  case hinode => rfl
  case htearing => rw [hbooks]; rfl
  case hroot => rfl
  case hproc => exact fun q hq => (proc_setProc_of_ne hq).trans (proc_setProc_of_ne hq)
  case hrest => exact (rest_setClosing (some f)).trans (rest_setFd none)
  case hfree => exact hfree.toFree
  case hrefs => intro j; rw [hbooks]; exact le_rfl
  case howner => intro q fd f _ _; rw [hbooks]; rfl

theorem takeFd (h : s.Valid) (hfree : s.FreeFds p) (hfd : (s.proc p).uOfiles fd = some f)
    (hclosing : s.books.closing p = none) (hfresh : s.books.fresh p f = false) :
    (s.takeFd p fd f).Valid := by
  have hbooks : (s.takeFd p fd f).books = s.books.clearFd p fd f :=
    books_takeFd hfree.live hfree.closingFd
  apply h.of_free (p := p)
  case hbooks =>
    rw [hbooks]
    apply h.books.clearFd hfree.tearing _ hclosing hfresh
    rw [hfree.fds, hfd]
  case hinode => rfl
  case htearing => rw [hbooks]; rfl
  case hroot => rfl
  case hproc => exact fun q hq => (proc_setProc_of_ne hq).trans (proc_setProc_of_ne hq)
  case hrest =>
    unfold Kernel.takeFd
    rw [rest_setClosing, rest_setLoc]
    rfl
  case hfree => exact hfree.toFree
  case hrefs => intro j; rw [hbooks]; exact le_rfl
  case howner => intro q fd f _ _; rw [hbooks]; rfl

theorem dropFd (h : s.Valid) (hfree : s.Free p) (hfd : (s.loc p).closingFd = some fd) :
    (s.dropFd p fd).Valid := by
  have hbooks : (s.dropFd p fd).books = s.books := books_dropFd hfree.live hfd
  apply h.of_free (p := p)
  case hbooks => rw [hbooks]; exact h.books
  case hinode => rfl
  case htearing => rw [hbooks]
  case hroot => rfl
  case hproc => exact fun q hq => proc_setProc_of_ne hq
  case hrest =>
    apply rest_setProc
    rfl
  case hfree => exact hfree
  case hrefs => intro j; rw [hbooks]
  case howner => intro q fd f _ _; rw [hbooks]

theorem decFile (h : s.Valid) (hfree : s.Free p) (hclosing : s.books.closing p = some f)
    (hcount : (s.file f).fCount ≠ 1) : (s.decFile p f).Valid := by
  have hbooks : (s.decFile p f).books = s.books.decFile p f := books_decFile
  apply h.of_free (p := p)
  case hbooks => rw [hbooks]; exact h.books.decFile hfree.tearing hclosing hcount
  case hinode => rfl
  case htearing => rw [hbooks]; rfl
  case hroot => rfl
  case hproc => exact fun q hq => proc_setProc_of_ne hq
  case hrest => exact rest_setClosing none
  case hfree => exact hfree
  case hrefs => intro j; rw [hbooks]; exact le_rfl
  case howner => intro q fd f _ _; rw [hbooks]; rfl

theorem dup (h : s.Valid) (hfree : s.FreeFds p) (hfd : (s.proc p).uOfiles fd = none)
    (hfd' : (s.proc p).uOfiles fd' = some f) (hfresh : s.books.fresh p f = false) :
    (s.dup p fd f).Valid := by
  have hbooks : (s.dup p fd f).books = s.books.dup p fd f := books_dup hfree.live hfree.ne
  apply h.of_free (p := p)
  case hbooks =>
    rw [hbooks]
    refine h.books.dup hfree.tearing ?_ (?_ : s.books.fds p fd' = some f) ?_
    · rw [hfree.fds, hfd]
    · rw [hfree.fds, hfd']
    · exact hfresh
  case hinode => rfl
  case htearing => rw [hbooks]; rfl
  case hroot => rfl
  case hproc => exact fun q hq => proc_setProc_of_ne hq
  case hrest => exact rest_setFd (some f)
  case hfree => exact hfree.toFree
  case hrefs => intro j; rw [hbooks]; exact le_rfl
  case howner => intro q fd f _ _; rw [hbooks]; rfl

/-- Both ends of a pipe are opened on an inode that only this process holds. -/
theorem pipe (h : s.Valid) {fr fw : FileSlot} (hfree : s.Free p) (hrefs : 0 < s.books.refs p i)
    (hfr : s.books.fresh p fr = true) (hfw : s.books.fresh p fw = true) (hne : fw ≠ fr)
    (hcount : (s.inode i).iCount = 1) : (s.pipe p i fr fw).Valid := by
  have hbooks : (s.pipe p i fr fw).books =
      ((s.books.openFile p i fr).hold p i).openFile p i fw := books_pipe hcount hrefs
  have hopen := h.books.openFile hfree.tearing hrefs hfr
  have hhold := Books.Ok.hold (i := i) hopen hfree.tearing
  have hok : (((s.books.openFile p i fr).hold p i).openFile p i fw).Ok := by
    apply hhold.openFile hfree.tearing
    · change 0 < ((s.books.openFile p i fr).take p i).refs p i
      unfold Books.take
      rw [Books.refs_setRefs_self, Function.update_self]
      exact Nat.succ_pos _
    · change Function.update s.books.fresh p (Function.update (s.books.fresh p) fr false) p fw = _
      rw [update_row, if_neg fun he => hne he.2, hfw]
  have htearing : (s.pipe p i fr fw).books.tearing = s.books.tearing := by
    rw [hbooks]
    rfl
  have hrest : Rest ((s.pipe p i fr fw).proc p) = Rest (s.proc p) := by
    unfold Kernel.pipe
    dsimp only
    rw [rest_setInside, rest_give, rest_setFresh, rest_setFresh]
    rfl
  apply h.of_step (p := p) (i := i)
  case hbooks => rw [hbooks]; exact hok
  case hident =>
    intro j _
    unfold ident
    by_cases hj : j = i
    · subst hj
      rw [show (s.pipe p j fr fw).inode j = _ from inode_setInode_self]
      rfl
    · rw [show (s.pipe p i fr fw).inode j = s.inode j from inode_setInode_of_ne hj]
  case hinode => exact fun j hj => inode_setInode_of_ne hj
  case hcount =>
    intro _
    rw [hcount]
    exact one_ne_zero
  case hsealed =>
    intro q src hq
    rw [htearing] at hq
    obtain rfl := h.eq_of_torn hrefs hq
    rw [hfree.tearing] at hq
    cases hq
  case htearing => intro j src hq; rw [htearing] at hq; exact .inr hq
  case hproc =>
    intro q hq
    unfold Kernel.pipe
    dsimp only
    rw [core_setInside]
    refine congrArg Process.core ((proc_setProc_of_ne hq).trans ?_)
    exact (proc_setProc_of_ne hq).trans (proc_setProc_of_ne hq)
  case hroot => rfl
  case hknown =>
    intro j hj
    rw [show ((s.pipe p i fr fw).proc p).ids = (s.proc p).ids from congrArg Prod.fst hrest]
    apply h.known p j
    by_cases hji : j = i
    · subst hji
      exact hrefs
    · rw [hbooks] at hj
      change 0 < (((s.books.openFile p i fr).hold p i).give p i).refs p j at hj
      replace hj := hj.trans_le (Books.give_refs_le j)
      change 0 < ((s.books.openFile p i fr).take p i).refs p j at hj
      unfold Books.take at hj
      rw [Books.refs_setRefs_self, Function.update_of_ne hji] at hj
      exact hj.trans_le (Books.give_refs_le (b := (s.books.setOwner fr (some i)).setFresh p fr
        false) j)
  case hborrowed =>
    intro b hb
    rw [show ((s.pipe p i fr fw).loc p).borrowed = (s.loc p).borrowed from
      congrArg (fun r => r.2.1) hrest, hfree.borrowed] at hb
    cases hb
  case howner =>
    intro q fd g hqp hq
    have hg : ∀ f, s.books.fresh p f = true → g ≠ f := by
      rintro f hf rfl
      exact hqp (h.books.eq_of_fresh hf hq)
    rw [hbooks]
    exact (Function.update_of_ne (hg fw hfw) _ _).trans (Function.update_of_ne (hg fr hfr) _ _)
  case hgone =>
    apply Process.GoneOk.of_live
    rw [show ((s.pipe p i fr fw).proc p).live = (s.proc p).live from
      congrArg (fun r => r.2.2) hrest]
    exact hfree.live

/-! ### Processes -/

theorem enter (h : s.Valid) (hlive : (s.proc p).live = true) : (s.enter p).Valid := by
  apply h.of_core (books_enter hlive) rfl
  · apply core_setProc
    unfold Process.core
    rw [hlive]
    rfl
  · exact fun q i src hq => (h.sealed q i src hq).2

theorem leave (h : s.Valid) : (s.leave p).Valid := by
  apply h.of_core books_leave
  · unfold Kernel.leave
    split <;> rfl
  · intro q
    unfold Kernel.leave
    split
    · next hk =>
      apply core_setProc
      unfold Process.core Process.live
      rw [hk]
      rfl
    · rfl
  · intro q i src hq
    have hinode : (s.leave p).inode = s.inode := by
      unfold Kernel.leave
      split <;> rfl
    rw [hinode]
    exact (h.sealed q i src hq).2

theorem cloned_inode (hchild : (s.proc child).live = false) :
    (s.clone p child).inode = (s.setCount (s.proc p).uCdir
      ((s.inode (s.proc p).uCdir).iCount + 1)).inode := by
  have hinode : ((s.countFiles (s.proc p)).countText (s.proc p)).inode = s.inode := by
    unfold countText
    split <;> rfl
  unfold Kernel.clone
  rw [hchild]
  simp only [Bool.false_eq_true, if_false]
  change Function.update ((s.countFiles (s.proc p)).countText (s.proc p)).inode _ _ = _
  rw [hinode]
  rfl

theorem cloned_proc (hchild : (s.proc child).live = false) (hq : q ≠ child) :
    (s.clone p child).proc q = s.proc q := by
  unfold Kernel.clone
  rw [hchild]
  simp only [Bool.false_eq_true, if_false]
  refine (proc_setProc_of_ne hq).trans ?_
  exact congrFun (proc_countText _) q

theorem cloned_child (hchild : (s.proc child).live = false) :
    ((s.clone p child).proc child).live = true ∧
      ((s.clone p child).proc child).ids = (s.proc child).ids ∧
      (s.clone p child).loc child = s.loc child := by
  have hproc : ((s.countFiles (s.proc p)).countText (s.proc p)).proc = s.proc :=
    proc_countText _
  unfold Kernel.clone
  rw [hchild]
  simp only [Bool.false_eq_true, if_false]
  dsimp only [loc]
  rw [proc_setProc_self]
  refine ⟨rfl, ?_, ?_⟩
  · change (((s.countFiles (s.proc p)).countText (s.proc p)).proc child).ids = _
    rw [hproc]
  · change (((s.countFiles (s.proc p)).countText (s.proc p)).proc child).loc = _
    rw [hproc]

theorem clone (h : s.Valid) (hfree : s.Free p) (hset : Settled (s.loc p))
    (hfresh : ∀ f, s.books.fresh p f = false) : (s.clone p child).Valid := by
  by_cases hchild : (s.proc child).live = true
  · unfold Kernel.clone
    rw [hchild]
    exact h
  rw [Bool.not_eq_true] at hchild
  obtain ⟨htorn, hset'⟩ := h.gone child hchild
  have hbooks : (s.clone p child).books = s.books.clone p child :=
    books_clone hchild hfree.live hset hset'
  have hinode := cloned_inode (p := p) hchild
  obtain ⟨hlive', hids', hloc'⟩ := cloned_child (p := p) hchild
  have hcwd : s.books.cwd p = some (s.proc p).uCdir :=
    (counts_of_live hfree.live hset.1 hset.2.1 hset.2.2.1).2.1
  have howned : s.books.Owned (s.proc p).uCdir := .inl ⟨p, hcwd⟩
  have hnone : ∀ e : Process, e.live = false → e.fds = (fun _ => none) ∧ e.cwd = none ∧
      e.textUse = none := by
    intro e he
    refine ⟨funext fun fd => if_pos (.inl he), if_pos (.inl he), if_pos (.inl he)⟩
  obtain ⟨hfds, hnocwd, hnotext⟩ := hnone (s.proc child) hchild
  apply h.of_step (p := child) (i := (s.proc p).uCdir)
  case hbooks =>
    rw [hbooks]
    exact h.books.clone (fun fd => congrFun hfds fd) hnocwd hnotext hfresh htorn
  case hident =>
    intro j _
    unfold ident
    rw [hinode]
    exact congrFun (ident_setCount (s := s) _) j
  case hinode =>
    intro j hj
    rw [hinode]
    exact inode_setInode_of_ne hj
  case hcount =>
    intro _
    have hlt := howned.refs_lt_holders p
    change s.books.count (s.proc p).uCdir ≠ 0
    rw [h.books.holders]
    omega
  case hsealed =>
    intro q src hq
    rw [hbooks] at hq
    exact absurd hq (h.not_torn_of_owned howned)
  case htearing =>
    intro j src hq
    rw [hbooks] at hq
    exact .inr hq
  case hproc => exact fun q hq => congrArg Process.core (cloned_proc hchild hq)
  case hroot => exact congrArg Books.root hbooks
  case hknown =>
    intro j hj
    rw [hids']
    rw [hbooks] at hj
    exact h.known child j hj
  case hborrowed =>
    intro b hb
    rw [hloc', hset'.2.2.2] at hb
    cases hb
  case howner =>
    intro q fd f _ _
    rw [hbooks]
    rfl
  case hgone => exact .of_live hlive'

theorem exit (h : s.Valid) (hfree : s.FreeFds p) (hfds : ∀ fd, (s.proc p).uOfiles fd = none)
    (htaken : (s.loc p).cdirTaken = true) (htext : (s.proc p).pTextp = none)
    (hdropping : (s.loc p).dropping = false) : (s.exit p).Valid := by
  have hbooks : (s.exit p).books = s.books := books_exit hfds htaken htext
  have hproc : (s.exit p).proc p = _ := proc_setProc_self
  apply h.of_local (p := p)
  case hbooks => rw [hbooks]; exact h.books
  case hinode => rfl
  case htearing => rw [hbooks]
  case hproc => exact fun q hq => proc_setProc_of_ne hq
  case hroot => rfl
  case hknown =>
    intro j hj
    rw [hbooks] at hj
    rw [hproc]
    exact h.known p j hj
  case hborrowed =>
    dsimp only [loc]
    rw [hproc]
    exact hfree.borrowed
  case howner => intro q fd f _ _; rw [hbooks]
  case hgone =>
    intro _
    rw [hproc]
    exact ⟨hfree.tearing, hfree.closingFd, rfl, hdropping, hfree.borrowed⟩

/-! ### Text segments -/

theorem shareText (h : s.Valid) (hfree : s.Free p) (hdropping : (s.loc p).dropping = false)
    (htext : (s.proc p).pTextp = none) (howner : s.books.textOwner t = some i) :
    (s.shareText p t).Valid := by
  have hbooks : (s.shareText p t).books = s.books.shareText p t :=
    books_shareText hfree.live hdropping
  have huse : s.books.textUse p = none := by
    change (s.proc p).textUse = none
    unfold Process.textUse
    rw [htext, ite_self]
  apply h.of_free (p := p)
  case hbooks => rw [hbooks]; exact h.books.shareText hfree.tearing huse howner
  case hinode => rfl
  case htearing => rw [hbooks]; rfl
  case hroot => rfl
  case hproc => exact fun q hq => proc_setProc_of_ne hq
  case hrest =>
    apply rest_setProc
    rfl
  case hfree => exact hfree
  case hrefs => intro j; rw [hbooks]; exact le_rfl
  case howner => intro q fd f _ _; rw [hbooks]; rfl

theorem newText (h : s.Valid) (hfree : s.Free p) (hdropping : (s.loc p).dropping = false)
    (htext : (s.proc p).pTextp = none) (hx : (s.text t).xIptr = none)
    (hrefs : 0 < s.books.refs p i) : (s.newText p i t).Valid := by
  have hbooks : (s.newText p i t).books = s.books.newText p i t :=
    books_newText hfree.live hdropping
  have huse : s.books.textUse p = none := by
    change (s.proc p).textUse = none
    unfold Process.textUse
    rw [htext, ite_self]
  have hrest : Rest ((s.newText p i t).proc p) = Rest (s.proc p) := by
    apply rest_setProc
    rfl
  apply h.of_step (p := p) (i := i)
  case hbooks => rw [hbooks]; exact h.books.newText hfree.tearing huse hx
  case hident => exact fun j _ => congrFun (ident_setCount (s := s) _) j
  case hinode => exact fun j hj => inode_setInode_of_ne hj
  case hcount =>
    intro _
    exact (h.count_pos (.inl (.inl hrefs))).ne'
  case hsealed =>
    intro q src hq
    rw [hbooks] at hq
    obtain rfl := h.eq_of_torn hrefs hq
    exact absurd (hfree.tearing.symm.trans hq) (by simp)
  case htearing =>
    intro j src hq
    rw [hbooks] at hq
    exact .inr hq
  case hproc => exact fun q hq => congrArg Process.core (proc_setProc_of_ne hq)
  case hroot => rfl
  case hknown =>
    intro j hj
    rw [show ((s.newText p i t).proc p).ids = (s.proc p).ids from congrArg Prod.fst hrest]
    apply h.known p j
    rw [hbooks] at hj
    exact hj
  case hborrowed =>
    intro b hb
    rw [show ((s.newText p i t).loc p).borrowed = (s.loc p).borrowed from
      congrArg (fun r => r.2.1) hrest, hfree.borrowed] at hb
    cases hb
  case howner => intro q fd f _ _; rw [hbooks]; rfl
  case hgone =>
    apply Process.GoneOk.of_live
    rw [show ((s.newText p i t).proc p).live = (s.proc p).live from
      congrArg (fun r => r.2.2) hrest]
    exact hfree.live

theorem decText (h : s.Valid) (hfree : s.Free p) (hdropping : (s.loc p).dropping = false)
    (htext : (s.proc p).pTextp = some t) : (s.decText p t).Valid := by
  have hbooks : (s.decText p t).books = s.books.decText p t := books_decText
  have huse : s.books.textUse p = some t := by
    change (s.proc p).textUse = some t
    unfold Process.textUse
    rw [hfree.live, hdropping, htext]
    simp
  apply h.of_free (p := p)
  case hbooks => rw [hbooks]; exact h.books.decText hfree.tearing huse
  case hinode => rfl
  case htearing => rw [hbooks]; rfl
  case hroot => rfl
  case hproc => exact fun q hq => proc_setProc_of_ne hq
  case hrest => exact rest_setLoc (by rfl)
  case hfree => exact hfree
  case hrefs => intro j; rw [hbooks]; exact le_rfl
  case howner => intro q fd f _ _; rw [hbooks]; rfl

theorem dropText (h : s.Valid) (hfree : s.Free p) (hdropping : (s.loc p).dropping = true) :
    (s.dropText p).Valid := by
  have hbooks : (s.dropText p).books = s.books := books_dropText hdropping
  apply h.of_free (p := p)
  case hbooks => rw [hbooks]; exact h.books
  case hinode => rfl
  case htearing => rw [hbooks]
  case hroot => rfl
  case hproc => exact fun q hq => proc_setProc_of_ne hq
  case hrest =>
    apply rest_setProc
    rfl
  case hfree => exact hfree
  case hrefs => intro j; rw [hbooks]
  case howner => intro q fd f _ _; rw [hbooks]

/-! ### Borrowing -/

theorem borrow (h : s.Valid) {v : Via} (hlive : (s.proc p).live = true) (hvia : s.ViaOk p i v) :
    (s.borrow p i v).Valid := by
  have hbooks : (s.borrow p i v).books = s.books := by
    unfold Kernel.borrow setLoc
    exact books_setProc_same rfl rfl rfl rfl rfl rfl rfl
  have hproc : (s.borrow p i v).proc p = _ := proc_setProc_self
  apply h.of_step (p := p) (i := i)
  case hbooks => rw [hbooks]; exact h.books
  case hident => exact fun _ _ => rfl
  case hinode => exact fun _ _ => rfl
  case hcount => exact id
  case hsealed =>
    intro q src hq
    rw [hbooks] at hq
    exact h.sealed q i src hq
  case htearing =>
    intro j src hq
    rw [hbooks] at hq
    exact .inr hq
  case hproc => exact fun q hq => congrArg Process.core (proc_setProc_of_ne hq)
  case hroot => rfl
  case hknown =>
    intro j hj
    rw [hbooks] at hj
    rw [hproc]
    exact h.known p j hj
  case hborrowed =>
    intro b hb
    dsimp only [loc] at hb
    rw [hproc] at hb
    cases hb
    refine ⟨rfl, ?_⟩
    cases v with
    | root => exact hvia
    | _ =>
      unfold ViaOk at hvia ⊢
      rwa [hbooks]
  case howner => intro q fd f _ _; rw [hbooks]
  case hgone =>
    apply Process.GoneOk.of_live
    rw [hproc]
    exact hlive

theorem unborrow (h : s.Valid) (hlive : (s.proc p).live = true) : (s.unborrow p).Valid := by
  have hbooks : (s.unborrow p).books = s.books := by
    unfold Kernel.unborrow setLoc
    exact books_setProc_same rfl rfl rfl rfl rfl rfl rfl
  have hproc : (s.unborrow p).proc p = _ := proc_setProc_self
  apply h.of_local (p := p)
  case hbooks => rw [hbooks]; exact h.books
  case hinode => rfl
  case htearing => rw [hbooks]
  case hproc => exact fun q hq => proc_setProc_of_ne hq
  case hroot => rfl
  case hknown =>
    intro j hj
    rw [hbooks] at hj
    rw [hproc]
    exact h.known p j hj
  case hborrowed =>
    dsimp only [loc]
    rw [hproc]
  case howner => intro q fd f _ _; rw [hbooks]
  case hgone =>
    apply Process.GoneOk.of_live
    rw [hproc]
    exact hlive

end Valid

/-! ### All actions -/


/-- What the code has made sure of before each action.  With `E` a process clears a lock only
that it has set itself, and before it lets go of an inode. -/
def Allowed (E : Prop) (s : Kernel n) (p : Fin n) : Action n → Prop
  | .enter => (s.proc p).live = true
  | .unborrow => (s.proc p).live = true ∧ (E → ∀ b, (s.loc p).borrowed = some b →
      (s.loc p).inside b.slot = true → 0 < s.books.refs p b.slot)
  | .want i chan => (s.inode i).locked = true ∧ (s.inode i).iCount ≠ 0 ∧
      (chan = .pInode ∨ chan = .inode i.val)
  | .lock i => (s.inode i).locked = false ∧ s.Grip p i
  | .prele i | .clearLock i =>
    s.Token p i ∧ s.books.tearing p = none ∧ (E → (s.loc p).inside i = true)
  | .hold i => (s.proc p).live = true ∧ s.books.tearing p = none ∧ (s.inode i).iCount ≠ 0 ∧
      (s.inode i).locked = false
  | .load i dev number => (s.proc p).live = true ∧ s.books.tearing p = none ∧
      (s.inode i).iCount = 0 ∧ s.isLoaded dev number = none
  | .lockLast i src => (s.proc p).live = true ∧ s.books.tearing p = none ∧
      s.books.Ready p i src ∧ (s.inode i).iCount = 1 ∧ (src = .hand ∨ (s.loc p).borrowed = none)
  | .release i true src => (s.proc p).live = true ∧ s.books.tearing p = some (i, src) ∧
      (src = .hand ∨ (s.loc p).borrowed = none) ∧ (E → src.keepsDir)
  | .release i false src => (s.proc p).live = true ∧ s.books.tearing p = none ∧
      s.books.Ready p i src ∧ (s.inode i).iCount ≠ 1 ∧
      (src = .hand ∨ (s.loc p).borrowed = none) ∧ (E → src.keepsDir)
  | .syncLock i => (s.inode i).locked = false
  | .syncPrele i => ∀ q src, s.books.tearing q ≠ some (i, src)
  | .borrow i v =>
    (s.proc p).live = true ∧ s.ViaOk p i v ∧ (s.loc p).borrowed = none
  | .forget i => s.Free p ∧ 0 < s.books.refs p i
  | .fAlloc fd f =>
    s.FreeFds p ∧ (s.proc p).uOfiles fd = none ∧ (s.file f).fCount = 0
  | .openFile f _ i => s.Free p ∧ 0 < s.books.refs p i ∧ s.books.fresh p f = true ∧
      (E → (s.loc p).inside i = false)
  | .undoOpen fd f => s.FreeFds p ∧ (s.proc p).uOfiles fd = some f ∧ (s.file f).owns = true ∧
      (s.file f).fCount = 1
  | .undoPipe fd f => s.FreeFds p ∧ (s.proc p).uOfiles fd = some f ∧ s.books.fresh p f = true
  | .pipe fr fw i => s.Free p ∧ 0 < s.books.refs p i ∧ s.books.fresh p fr = true ∧
      s.books.fresh p fw = true ∧ fw ≠ fr ∧ (s.inode i).iCount = 1
  | .clearFd fd f | .takeFd fd f => s.FreeFds p ∧ (s.proc p).uOfiles fd = some f ∧
      s.books.closing p = none ∧ s.books.fresh p f = false
  | .dropFd fd => s.Free p ∧ (s.loc p).closingFd = some fd
  | .decFile f => s.Free p ∧ s.books.closing p = some f ∧ (s.file f).fCount ≠ 1
  | .dup fd f => s.FreeFds p ∧ (s.proc p).uOfiles fd = none ∧
      (∃ fd', (s.proc p).uOfiles fd' = some f) ∧ s.books.fresh p f = false
  | .clone _ => s.Free p ∧ Settled (s.loc p) ∧ ∀ f, s.books.fresh p f = false
  | .exit => s.FreeFds p ∧ (∀ fd, (s.proc p).uOfiles fd = none) ∧
      (s.loc p).cdirTaken = true ∧ (s.proc p).pTextp = none ∧ (s.loc p).dropping = false
  | .shareText t => s.Free p ∧ (s.loc p).dropping = false ∧ (s.proc p).pTextp = none ∧
      ∃ i, s.books.textOwner t = some i
  | .newText t i => s.Free p ∧ (s.loc p).dropping = false ∧ (s.proc p).pTextp = none ∧
      (s.text t).xIptr = none ∧ 0 < s.books.refs p i
  | .decText t => s.Free p ∧ (s.loc p).dropping = false ∧ (s.proc p).pTextp = some t
  | .dropText => s.Free p ∧ (s.loc p).dropping = true
  | _ => True

namespace Valid

/-- A token protects against all who are giving back last references. -/
theorem not_torn_of_token (h : s.Valid) (htoken : s.Token p i)
    (htearing : s.books.tearing p = none) (q : Fin n) (src : Source) :
    s.books.tearing q ≠ some (i, src) := by
  by_cases hqp : q = p
  · subst hqp
    rw [htearing]
    exact (Option.some_ne_none _).symm
  · exact h.not_torn htoken hqp

/-- A change of the flags, the mode and the like of one entry that locks what it does not leave. -/
theorem setInode_flag (h : s.Valid) {e : InodeEntry} (hcount : e.iCount = (s.inode i).iCount)
    (hdev : e.iDev = (s.inode i).iDev) (hnumber : e.iNumber = (s.inode i).iNumber)
    (hflag : (s.inode i).locked = true → e.locked = true) : (s.setInode i e).Valid :=
  h.setInode hcount hdev hnumber fun q src hq => hflag (h.sealed q i src hq).2

/-- **The step lemma**: an allowed action keeps the tables valid. -/
theorem exec {E : Prop} (h : s.Valid) {a : Action n} (ha : Allowed E s p a) :
    (s.exec p a).Valid := by
  cases a with
  | enter => exact h.enter ha
  | leave => exact h.leave
  | setError =>
    apply h.of_core
    · exact books_setProc_same rfl rfl rfl rfl rfl rfl rfl
    · rfl
    · exact core_setProc rfl
    · exact fun q i src hq => (h.sealed q i src hq).2
  | want i chan =>
    apply Valid.sleepOn
    exact h.setInode_flag rfl rfl rfl fun hl => flag_or_left hl
  | lock i =>
    apply Valid.setInside
    exact h.setInode_flag rfl rfl rfl fun hl => flag_or_left hl
  | prele i => exact (h.prele (h.not_torn_of_token ha.1 ha.2.1)).setInside false
  | clearLock i =>
    apply Valid.setInside
    exact h.setInode rfl rfl rfl fun q src hq => absurd hq (h.not_torn_of_token ha.1 ha.2.1 q src)
  | hold i => exact h.hold ha.1 ha.2.1 ha.2.2.1 ha.2.2.2
  | load i dev number => exact h.load ha.1 ha.2.1 ha.2.2.1 ha.2.2.2
  | iCopy i => exact h.setInode_flag rfl rfl rfl id
  | lockLast i src => exact h.lockLast ha.1 ha.2.1 ha.2.2.1 ha.2.2.2.1 ha.2.2.2.2
  | iTrunc i => exact h.setInode_flag rfl rfl rfl fun hl => flag_or_left hl
  | clearMode i => exact h.setInode_flag rfl rfl rfl id
  | writeDisk i =>
    exact h.of_core rfl rfl (fun _ => rfl) fun q i src hq => (h.sealed q i src hq).2
  | release i last src =>
    cases last with
    | true => exact h.releaseLast ha.1 ha.2.1 ha.2.2.1
    | false => exact h.release ha.1 ha.2.1 ha.2.2.1 ha.2.2.2.2.1
  | syncLock i => exact h.setInode_flag rfl rfl rfl fun hl => flag_or_left hl
  | syncPrele i => exact h.prele ha
  | borrow i v => exact h.borrow ha.1 ha.2.1
  | unborrow => exact h.unborrow ha.1
  | forget i => exact h.forget ha.1 ha.2
  | clean i => exact h.setInode_flag rfl rfl rfl id
  | setFields i flag mode nlink =>
    exact h.setInode_flag rfl rfl rfl fun hl => flag_or_left hl
  | fAlloc fd f => exact h.fAlloc ha.1 ha.2.1 ha.2.2
  | openFile f flag i => exact h.openFile ha.1 ha.2.1 ha.2.2.1 flag
  | undoOpen fd f => exact h.undoOpen ha.1 ha.2.1 ha.2.2.1 ha.2.2.2
  | undoPipe fd f => exact h.undoPipe ha.1 ha.2.1 ha.2.2
  | pipe fr fw i => exact h.pipe ha.1 ha.2.1 ha.2.2.1 ha.2.2.2.1 ha.2.2.2.2.1 ha.2.2.2.2.2
  | clearFd fd f => exact h.clearFd ha.1 ha.2.1 ha.2.2.1 ha.2.2.2
  | takeFd fd f => exact h.takeFd ha.1 ha.2.1 ha.2.2.1 ha.2.2.2
  | dropFd fd => exact h.dropFd ha.1 ha.2
  | closePipe i =>
    apply Valid.wakeUpAll
    apply Valid.wakeUpAll
    exact h.setInode_flag rfl rfl rfl id
  | decFile f => exact h.decFile ha.1 ha.2.1 ha.2.2
  | dup fd f =>
    obtain ⟨hfree, hfd, ⟨fd', hfd'⟩, hfresh⟩ := ha
    exact h.dup hfree hfd hfd' hfresh
  | clone child => exact h.clone ha.1 ha.2.1 ha.2.2
  | exit => exact h.exit ha.1 ha.2.1 ha.2.2.1 ha.2.2.2.1 ha.2.2.2.2
  | shareText t =>
    obtain ⟨hfree, hdropping, htext, i, howner⟩ := ha
    exact h.shareText hfree hdropping htext howner
  | newText t i => exact h.newText ha.1 ha.2.1 ha.2.2.1 ha.2.2.2.1 ha.2.2.2.2
  | decText t => exact h.decText ha.1 ha.2.1 ha.2.2
  | dropText => exact h.dropText ha.1 ha.2
  | exeSleep => exact h.sleepOn .exeCnt none
  | exeInc => exact h.of_core rfl rfl (fun _ => rfl) fun q i src hq => (h.sealed q i src hq).2
  | exeDec wake =>
    have hwake : (if wake = true then s.wakeUpAll .exeCnt else s).Valid := by
      split
      · exact h.wakeUpAll .exeCnt
      · exact h
    exact hwake.of_core rfl rfl (fun _ => rfl) fun q i src hq => (hwake.sealed q i src hq).2

end Valid
end Kernel
end UnixV6pp
