import UnixV6pp.Fs.InodeLock

/-!
# Who waits for an inode is woken

A process that finds an inode locked notes so by `IWANT` and goes to sleep.  Whoever
unlocks the inode has to wake it, on the channel on which it sleeps.

`IGet` sleeps on the address of its own local variable, which nobody wakes, and `Link`
unlocks an inode without looking at `IWANT`.

* `WakesAll` — whoever sleeps for the lock of an inode sleeps where it will be woken.
* `WakesAll.exec` — **every action keeps this, apart from these two.**
-/

namespace UnixV6pp

open Inode Flags

/-- Actions that take nothing from any entry of the table of inodes. -/
def Action.keepsEntries {n : ℕ} : Action n → Prop
  | .prele _ | .clearLock _ | .release .. | .syncPrele _ | .pipe .. | .load .. => False
  | _ => True

namespace Kernel

variable {n : ℕ} {s s' s'' : Kernel n} {p q : Fin n} {i j : Slot} {src : Source}

/-- Whoever sleeps for the lock of an inode will be woken when it is unlocked. -/
def WakesAll (s : Kernel n) : Prop :=
  ∀ q j, (s.proc q).awaiting = some j → (s.inode j).locked = true ∧ (s.inode j).wanted = true ∧
    (s.proc q).pWchan = some (.inode j.val) ∧ (s.inode j).iCount ≠ 0

/-- `IGet` does not find its inode locked, and `Link` unlocks no inode that is wanted. -/
def WaitApart (_ : Fin n) (s : Kernel n) : Action n → Prop
  | .want _ chan => chan ≠ .pInode
  | .clearLock i => (s.inode i).wanted = false
  | _ => True

/-- Whoever sleeps for a lock after a step did so before. -/
def Dozes (s s' : Kernel n) : Prop :=
  ∀ q j, (s'.proc q).awaiting = some j →
    (s.proc q).awaiting = some j ∧ (s'.proc q).pWchan = (s.proc q).pWchan

theorem Dozes.refl : Dozes s s := fun _ _ h => ⟨h, rfl⟩

theorem Dozes.of_eq (h : s'.proc = s.proc) : Dozes s s' := by
  intro q j hq
  rw [h] at hq ⊢
  exact ⟨hq, rfl⟩

theorem Dozes.trans (h : Dozes s s') (h' : Dozes s' s'') : Dozes s s'' := by
  intro q j hq
  obtain ⟨hq', hchan⟩ := h' q j hq
  obtain ⟨hq'', hchan'⟩ := h q j hq'
  exact ⟨hq'', hchan.trans hchan'⟩

theorem dozes_wakeUpAll (chan : Chan) : Dozes s (s.wakeUpAll chan) := by
  intro q j hq
  unfold wakeUpAll at hq ⊢
  dsimp only at hq ⊢
  split at hq
  · cases hq
  · next hchan =>
    rw [if_neg hchan]
    exact ⟨hq, rfl⟩

theorem dozes_prele : Dozes s (s.prele i) := by
  unfold prele
  dsimp only
  split
  · exact dozes_wakeUpAll (s := (s.setFlag i _).setFlag i _) _
  · exact .refl

theorem dozes_setProc {e : Process} (he : e.awaiting = (s.proc p).awaiting)
    (hchan : e.pWchan = (s.proc p).pWchan) : Dozes s (s.setProc p e) := by
  intro q j hq
  by_cases hqp : q = p
  · subst hqp
    rw [proc_setProc_self] at hq ⊢
    rw [he] at hq
    exact ⟨hq, hchan⟩
  · rw [proc_setProc_of_ne hqp] at hq ⊢
    exact ⟨hq, rfl⟩

/-- A process that does not sleep for a lock. -/
theorem dozes_setProc_none {e : Process} (he : e.awaiting = none) : Dozes s (s.setProc p e) := by
  intro q j hq
  by_cases hqp : q = p
  · subst hqp
    rw [proc_setProc_self, he] at hq
    cases hq
  · rw [proc_setProc_of_ne hqp] at hq ⊢
    exact ⟨hq, rfl⟩

theorem dozes_setLoc {l : Local} : Dozes s (s.setLoc p l) := dozes_setProc rfl rfl

theorem dozes_setFd {fd : Fd} {v : Option FileSlot} : Dozes s (s.setFd p fd v) :=
  dozes_setProc rfl rfl

theorem dozes_take : Dozes s (s.take p i) := dozes_setProc rfl rfl

theorem dozes_takeFrom : Dozes s (s.takeFrom p i src) := by
  cases src with
  | hand => exact .refl
  | file f => exact dozes_take (s := s.setFile f _)
  | text t => exact dozes_take (s := s.setText t _)
  | cdir new => exact dozes_setLoc.trans dozes_take

theorem dozes_settle : Dozes s (s.settle p src) := by
  cases src with
  | hand => exact .refl
  | file f => exact dozes_setLoc (s := s.setFile f _)
  | text t => exact .refl
  | cdir new =>
    cases new with
    | none => exact .refl
    | some j =>
      apply Dozes.trans (dozes_setProc (s := s) (p := p) (e := { s.proc p with
        uCdir := j, loc := { s.loc p with cdirTaken := false } }) rfl rfl)
      exact dozes_setLoc

theorem dozes_letGo {last : Bool} : Dozes s (s.letGo p i last src) := by
  unfold letGo
  split
  · exact dozes_setLoc.trans dozes_setLoc
  · cases src with
    | hand => exact dozes_setLoc
    | cdir new =>
      cases new with
      | none => exact dozes_setLoc
      | some j => exact .refl
    | _ => exact .refl

theorem dozes_dropCount : Dozes s (s.dropCount i) := dozes_prele (s := s.setCount i _)

theorem dozes_release {last : Bool} : Dozes s (s.release p i last src) := by
  have hlast : Dozes s (if last then s.invalidate i else s) := by
    split
    · exact dozes_prele
    · exact .refl
  unfold release
  dsimp only
  generalize (if last then s.invalidate i else s) = r at *
  have hdrop : Dozes s ((r.dropCount i).setInside p i false) :=
    (hlast.trans dozes_dropCount).trans dozes_setLoc
  generalize (r.dropCount i).setInside p i false = r' at *
  exact (hdrop.trans dozes_letGo).trans dozes_settle

theorem dozes_pipe {fr fw : FileSlot} : Dozes s (s.pipe p i fr fw) := by
  have hfiles : ∀ r : Kernel n, r.proc = s.proc → Dozes s (((((r.setFresh p fr false).setFresh p fw
      false).give p i).setInside p i false)) := by
    intro r hr
    have hstart : Dozes s (r.setFresh p fr false) := (Dozes.of_eq hr).trans dozes_setLoc
    exact ((hstart.trans dozes_setLoc).trans dozes_setLoc).trans dozes_setLoc
  apply hfiles
  rfl

/-- Going to sleep for a lock is the only way to sleep for one. -/
theorem dozes_exec {a : Action n} (ha : ∀ i chan, a ≠ .want i chan) : Dozes s (s.exec p a) := by
  cases a with
  | want i chan => exact absurd rfl (ha i chan)
  | leave =>
    change Dozes s (s.leave p)
    unfold leave
    split
    · exact dozes_setProc rfl rfl
    · exact .refl
  | lock i => exact dozes_setLoc (s := s.setFlag i _)
  | prele i => exact dozes_prele.trans dozes_setLoc
  | clearLock i => exact dozes_setLoc (s := s.setFlag i _)
  | hold i => exact (dozes_take (s := (s.setCount i _).setFlag i _)).trans dozes_setLoc
  | load i dev number => exact (dozes_take (s := s.setInode i _)).trans dozes_setLoc
  | lockLast i src => exact (dozes_takeFrom (s := s.setFlag i _)).trans dozes_setLoc
  | release i last src =>
    exact dozes_release
  | syncPrele i => exact dozes_prele
  | closePipe i =>
    exact (dozes_wakeUpAll (s := s.setInode i _) _).trans (dozes_wakeUpAll _)
  | fAlloc fd f => exact (dozes_setFd (s := s.setFile f _)).trans dozes_setLoc
  | openFile f flag i => exact (dozes_setLoc (s := s.setFile f _)).trans dozes_setLoc
  | undoOpen fd f => exact dozes_setFd.trans (dozes_take (s := (s.setFd p fd none).setFile f _))
  | undoPipe fd f => exact (dozes_setFd (s := s.setFile f _)).trans dozes_setLoc
  | pipe fr fw i => exact dozes_pipe
  | clearFd fd f => exact dozes_setFd.trans dozes_setLoc
  | takeFd fd f => exact dozes_setLoc.trans dozes_setLoc
  | clone child =>
    change Dozes s (s.clone p child)
    unfold clone
    split
    · exact .refl
    · dsimp only
      have htext : ∀ r : Kernel n, (r.countText (s.proc p)).proc = r.proc := by
        intro r
        unfold countText
        split <;> rfl
      refine Dozes.trans (.of_eq ?_) (dozes_setProc_none rfl)
      exact htext _
  | exeDec wake =>
    cases wake with
    | true => exact dozes_wakeUpAll _
    | false => exact .of_eq rfl
  | exeSleep => exact dozes_setProc_none rfl
  | iCopy | iTrunc | clearMode | writeDisk | syncLock | clean | setFields | exeInc =>
    exact .of_eq rfl
  | _ => exact dozes_setProc rfl rfl

/-! ### Entries of the table -/

/-- What keeps a process asleep stays as it is. -/
structure Firm (e e' : InodeEntry) : Prop where
  locked : e.locked = true → e'.locked = true
  wanted : e.wanted = true → e'.wanted = true
  count : e.iCount ≠ 0 → e'.iCount ≠ 0

theorem Firm.refl (e : InodeEntry) : Firm e e := ⟨id, id, id⟩

theorem Firm.trans {e e' e'' : InodeEntry} (h : Firm e e') (h' : Firm e' e'') : Firm e e'' :=
  ⟨h'.locked ∘ h.locked, h'.wanted ∘ h.wanted, h'.count ∘ h.count⟩

/-- Flags are added. -/
theorem Firm.of_flags {e e' : InodeEntry} {flag : UInt32} (hflag : e'.iFlag = e.iFlag ||| flag)
    (hcount : e'.iCount = e.iCount) : Firm e e' := by
  refine ⟨fun h => ?_, fun h => ?_, fun h => hcount ▸ h⟩
  · unfold InodeEntry.locked at h ⊢
    rw [hflag]
    exact flag_or_left h
  · unfold InodeEntry.wanted at h ⊢
    rw [hflag]
    exact flag_or_left h

theorem Firm.of_same {e e' : InodeEntry} (hflag : e'.iFlag = e.iFlag)
    (hcount : e'.iCount = e.iCount) : Firm e e' := by
  apply @Firm.of_flags e e' 0 _ hcount
  rw [hflag, UInt32.or_zero]

theorem Firm.of_count {e e' : InodeEntry} (hflag : e'.iFlag = e.iFlag)
    (hcount : e'.iCount = e.iCount + 1) (hpos : 0 ≤ e.iCount) : Firm e e' := by
  refine ⟨fun h => ?_, fun h => ?_, fun _ => by omega⟩
  · unfold InodeEntry.locked at h ⊢
    rwa [hflag]
  · unfold InodeEntry.wanted at h ⊢
    rwa [hflag]

theorem firm_setInode {e : InodeEntry} (he : Firm (s.inode i) e) (j : Slot) :
    Firm (s.inode j) ((s.setInode i e).inode j) := by
  by_cases hj : j = i
  · subst hj
    rwa [inode_setInode_self]
  · rw [inode_setInode_of_ne hj]
    exact .refl _

theorem firm_exec (hs : ∀ i, 0 ≤ (s.inode i).iCount) {a : Action n} (ha : a.keepsEntries)
    (j : Slot) : Firm (s.inode j) ((s.exec p a).inode j) := by
  cases a with
  | prele | clearLock | release | syncPrele | pipe | load => exact ha.elim
  | want i chan =>
    refine @firm_setInode n s i _ ?_ j
    exact .of_flags rfl rfl
  | lock i =>
    refine @firm_setInode n s i _ ?_ j
    exact .of_flags rfl rfl
  | hold i =>
    have hcount : Firm (s.inode j) ((s.setCount i ((s.inode i).iCount + 1)).inode j) := by
      refine @firm_setInode n s i _ ?_ j
      exact .of_count rfl rfl (hs i)
    apply hcount.trans
    refine @firm_setInode n (s.setCount i _) i _ ?_ j
    exact .of_flags rfl rfl
  | iCopy i =>
    refine @firm_setInode n s i _ ?_ j
    exact .of_same rfl rfl
  | lockLast i src =>
    change Firm _ (((s.setFlag i _).takeFrom p i src).inode j)
    rw [inode_takeFrom]
    refine @firm_setInode n s i _ ?_ j
    exact .of_flags rfl rfl
  | iTrunc i =>
    refine @firm_setInode n s i _ ?_ j
    exact .of_flags rfl rfl
  | clearMode i =>
    refine @firm_setInode n s i _ ?_ j
    exact .of_same rfl rfl
  | syncLock i =>
    refine @firm_setInode n s i _ ?_ j
    exact .of_flags rfl rfl
  | clean i =>
    refine @firm_setInode n s i _ ?_ j
    exact .of_same rfl rfl
  | setFields i flag mode nlink =>
    refine @firm_setInode n s i _ ?_ j
    exact .of_flags rfl rfl
  | closePipe i =>
    refine @firm_setInode n s i _ ?_ j
    exact .of_same rfl rfl
  | newText t i =>
    refine @firm_setInode n s i _ ?_ j
    exact .of_count rfl rfl (hs i)
  | leave =>
    change Firm _ ((s.leave p).inode j)
    unfold leave
    split <;> exact .refl _
  | clone child =>
    change Firm _ ((s.clone p child).inode j)
    unfold clone
    split
    · exact .refl _
    · dsimp only
      have htext : ∀ r : Kernel n, (r.countText (s.proc p)).inode = r.inode := by
        intro r
        unfold countText
        split <;> rfl
      have hinode := htext (s.countFiles (s.proc p))
      generalize (s.countFiles (s.proc p)).countText (s.proc p) = r at *
      change Firm _ ((r.setInode (s.proc p).uCdir _).inode j)
      rw [show s.inode j = r.inode j from (congrFun hinode j).symm]
      refine @firm_setInode n r _ _ ?_ j
      refine .of_count rfl ?_ ?_
      · rw [hinode]
      · rw [hinode]
        exact hs _
  | exeDec wake => cases wake <;> exact .refl _
  | _ => exact .refl _

/-! ### Every action -/

theorem Valid.count_nonneg (hs : s.Valid) (i : Slot) : 0 ≤ (s.inode i).iCount := by
  change 0 ≤ s.books.count i
  rw [hs.books.holders]
  obtain ⟨hrefs, hcwd, howner, htext, hroot⟩ := s.books.parts_nonneg i
  unfold Books.holders
  omega

/-- `Prele` wakes all who sleep for the lock. -/
theorem prele_wakes (h : ∀ q, (s.proc q).awaiting = some i → (s.inode i).wanted = true ∧
    (s.proc q).pWchan = some (.inode i.val)) (q : Fin n) :
    ((s.prele i).proc q).awaiting ≠ some i := by
  intro hq
  obtain ⟨hwait, hchan⟩ := dozes_prele q i hq
  obtain ⟨hwanted, hinode⟩ := h q hwait
  have hflag : ((s.setFlag i ((s.inode i).iFlag &&& ~~~ILOCK)).inode i).wanted = true := by
    unfold setFlag
    rw [inode_setInode_self]
    have hmask : ~~~ILOCK &&& IWANT = IWANT := by decide
    exact (flag_and_of_eq hmask).trans hwanted
  unfold prele at hq
  dsimp only at hq
  rw [if_pos hflag] at hq
  unfold wakeUpAll at hq
  dsimp only at hq
  split at hq
  · cases hq
  · next hne => exact hne hinode

namespace WakesAll

/-- A step after which nobody sleeps for the entry that it changes. -/
theorem of_entry (h : s.WakesAll) (hdozes : Dozes s s')
    (hinode : ∀ j, j ≠ i → s'.inode j = s.inode j)
    (hnone : ∀ q, (s'.proc q).awaiting ≠ some i) : s'.WakesAll := by
  intro q j hq
  obtain ⟨hwait, hchan⟩ := hdozes q j hq
  have hji : j ≠ i := by
    rintro rfl
    exact hnone q hq
  rw [hinode j hji, hchan]
  exact h q j hwait

theorem release (h : s.WakesAll) {last : Bool} : (s.release p i last src).WakesAll := by
  have hwaits : ∀ r : Kernel n, r.proc = s.proc → (r.inode i).wanted = (s.inode i).wanted →
      ∀ q, ((r.prele i).proc q).awaiting ≠ some i := by
    intro r hproc hwanted
    apply prele_wakes
    intro q hq
    rw [hproc] at hq ⊢
    rw [hwanted]
    exact ⟨(h q i hq).2.1, (h q i hq).2.2.1⟩
  have hnone : ∀ q, (((if last then s.invalidate i else s).dropCount i).proc q).awaiting ≠
      some i := by
    intro q hq
    cases last with
    | true =>
      have hq' := (dozes_dropCount q i hq).1
      exact hwaits s rfl rfl q hq'
    | false =>
      refine hwaits (s.setCount i ((s.inode i).iCount - 1)) rfl ?_ q hq
      unfold setCount
      rw [inode_setInode_self]
      rfl
  apply h.of_entry (i := i) dozes_release
  · exact (release_frame s p i last src).1
  · intro q hq
    unfold Kernel.release at hq
    dsimp only at hq
    generalize (if last then s.invalidate i else s).dropCount i = r at *
    have hdozes : Dozes r (((r.setInside p i false).letGo p i last src).settle p src) :=
      (dozes_setLoc.trans dozes_letGo).trans dozes_settle
    exact hnone q (hdozes q i hq).1

/-- **Every action keeps this**, apart from two. -/
theorem exec (h : s.WakesAll) (hs : s.Valid) {a : Action n} (ha : Allowed False s p a)
    (hplain : a.plain ∨ ∃ i, a = .forget i) (hok : WaitApart p s a) : (s.exec p a).WakesAll := by
  have hquiet : a.keepsEntries → (∀ i chan, a ≠ .want i chan) → (s.exec p a).WakesAll := by
    intro hkeeps hwant q j hq
    obtain ⟨hwait, hchan⟩ := dozes_exec hwant q j hq
    obtain ⟨hlocked, hwanted, hinode, hcount⟩ := h q j hwait
    have hfirm := firm_exec (p := p) hs.count_nonneg hkeeps j
    exact ⟨hfirm.locked hlocked, hfirm.wanted hwanted, hchan.trans hinode, hfirm.count hcount⟩
  cases a with
  | want i chan =>
    obtain ⟨hlocked, hcount, hchan⟩ := ha
    obtain rfl := hchan.resolve_left hok
    intro q j hq
    have hfirm : ∀ j, Firm (s.inode j) ((s.exec p (.want i (.inode i.val))).inode j) :=
      firm_exec hs.count_nonneg trivial
    by_cases hqp : q = p
    · subst hqp
      have hself : (s.exec q (.want i (.inode i.val))).proc q = { s.proc q with
          pWchan := some (.inode i.val), awaiting := some i } := proc_setProc_self
      rw [hself] at hq ⊢
      cases hq
      refine ⟨(hfirm i).locked hlocked, ?_, rfl, (hfirm i).count hcount⟩
      change ((s.setFlag i _).inode i).wanted = true
      unfold setFlag
      rw [inode_setInode_self]
      exact flag_or_right (by decide)
    · have hother : (s.exec p (.want i (.inode i.val))).proc q = s.proc q :=
        proc_setProc_of_ne hqp
      rw [hother] at hq ⊢
      obtain ⟨hl, hw, hc, hn⟩ := h q j hq
      exact ⟨(hfirm j).locked hl, (hfirm j).wanted hw, hc, (hfirm j).count hn⟩
  | prele i =>
    apply h.of_entry (i := i) (dozes_exec fun _ _ h => by cases h)
    · exact fun j hj => inode_prele_of_ne hj
    · intro q hq
      have hq' := (dozes_setLoc (s := s.prele i) q i hq).1
      exact prele_wakes (fun q hq => ⟨(h q i hq).2.1, (h q i hq).2.2.1⟩) q hq'
  | clearLock i =>
    apply h.of_entry (i := i) (dozes_exec fun _ _ h => by cases h)
    · exact fun j hj => inode_setInode_of_ne hj
    · intro q hq
      have hwait := (dozes_exec (fun _ _ h => by cases h) q i hq).1
      have hwanted := (h q i hwait).2.1
      rw [hok] at hwanted
      cases hwanted
  | load i dev number =>
    apply h.of_entry (i := i) (dozes_exec fun _ _ h => by cases h)
    · exact fun j hj => inode_setInode_of_ne hj
    · intro q hq
      have hwait := (dozes_exec (fun _ _ h => by cases h) q i hq).1
      exact (h q i hwait).2.2.2 ha.2.2.1
  | release i last src => exact h.release
  | syncPrele i | pipe => rcases hplain with hplain | ⟨j, hj⟩ <;> [exact hplain.elim; cases hj]
  | _ => exact hquiet trivial fun _ _ h => by cases h

end WakesAll
end Kernel
end UnixV6pp
