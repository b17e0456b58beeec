import UnixV6pp.Fs.Valid
import UnixV6pp.Lib.Flags

/-!
# References to inodes come and go

The steps by which a process gets a reference to an inode and gives it back keep the
tables valid.  Each of them touches one entry of the table of inodes, and what the other
processes know of theirs is not disturbed.

* `Valid.of_core`, `Valid.of_step`, `Valid.of_local` — what a step has to leave alone.
* `Valid.hold`, `Valid.load` — the end of `IGet`.
* `Valid.lockLast`, `Valid.release`, `Valid.releaseLast` — the parts of `IPut`.
-/

namespace UnixV6pp

open Tally Flags Inode

/-- What the tables say about a process, but for its sleeping and its locks. -/
def Process.core (q : Process) : Process :=
  { q with
    whereabouts := if q.live then .user else .gone
    pWchan := none
    awaiting := none
    uError := false
    loc := { q.loc with inside := fun _ => false } }

theorem Process.live_core (q : Process) : q.core.live = q.live := by
  unfold core live
  cases q.whereabouts <;> rfl

theorem Process.of_core {β : Type} {a b : Process} (g : Process → β) (hg : ∀ q, g q.core = g q)
    (h : a.core = b.core) : g a = g b := by
  rw [← hg a, h, hg b]

theorem Process.fds_core (q : Process) : q.core.fds = q.fds := by
  funext fd
  unfold fds
  rw [live_core]
  rfl

theorem Process.cwd_core (q : Process) : q.core.cwd = q.cwd := by
  unfold cwd
  rw [live_core]
  rfl

theorem Process.GoneOk.of_core {a b : Process} (h : a.core = b.core) (hb : b.GoneOk) :
    a.GoneOk := by
  intro ha
  rw [Process.of_core Process.live Process.live_core h] at ha
  have htearing := Process.of_core (fun q => q.loc.tearing) (fun _ => rfl) h
  have hfd := Process.of_core (fun q => q.loc.closingFd) (fun _ => rfl) h
  have htaken := Process.of_core (fun q => q.loc.cdirTaken) (fun _ => rfl) h
  have hdropping := Process.of_core (fun q => q.loc.dropping) (fun _ => rfl) h
  have hborrowed := Process.of_core (fun q => q.loc.borrowed) (fun _ => rfl) h
  obtain ⟨hb, hset⟩ := hb ha
  unfold Kernel.Settled
  rw [htearing, hfd, htaken, hdropping, hborrowed]
  exact ⟨hb, hset⟩

theorem Process.GoneOk.of_live {q : Process} (h : q.live = true) : q.GoneOk := by
  intro h'
  rw [h] at h'
  cases h'

namespace Books

variable {n : ℕ} {b : Books n} {p q : Fin n} {i j : Slot} {src : Source}

theorem give_refs_le (j : Slot) : (b.give p i).refs q j ≤ b.refs q j := by
  unfold give
  by_cases hqp : q = p
  · subst hqp
    rw [refs_setRefs_self]
    by_cases hj : j = i
    · subst hj
      rw [Function.update_self]
      exact Nat.sub_le _ _
    · rw [Function.update_of_ne hj]
  · rw [refs_setRefs_of_ne hqp]

theorem putBack_refs_le (j : Slot) : (b.putBack p i src).refs q j ≤ b.refs q j := by
  unfold putBack
  cases src with
  | hand => exact give_refs_le (b := b.setCount i (b.count i - 1)) j
  | cdir new =>
    cases new with
    | none => exact le_rfl
    | some k => exact give_refs_le (b := (b.setCount i (b.count i - 1)).setCwd p (some k)) j
  | _ => exact le_rfl

theorem discharge_refs_le (j : Slot) : (b.discharge p i src).refs q j ≤ b.refs q j := by
  have hgive : (((b.setCount i (b.count i - 1)).give p i).setTearing p none).refs q j ≤
      b.refs q j := give_refs_le (b := b.setCount i (b.count i - 1)) j
  unfold discharge
  cases src with
  | cdir new =>
    cases new with
    | none => exact hgive
    | some k => exact (give_refs_le j).trans hgive
  | _ => exact hgive

/-- Only the file that is given up loses its reference. -/
theorem putBack_owner {f : FileSlot} (hf : src ≠ .file f) :
    (b.putBack p i src).owner f = b.owner f := by
  unfold putBack
  cases src with
  | cdir new => cases new <;> rfl
  | file g =>
    apply Function.update_of_ne
    rintro rfl
    exact hf rfl
  | _ => rfl

end Books

namespace Kernel

variable {n : ℕ} {s s' : Kernel n} {p q : Fin n} {i j : Slot} {src : Source}

/-! ### What is left alone -/

theorem inode_setInode_of_ne {e : InodeEntry} (hj : j ≠ i) :
    (s.setInode i e).inode j = s.inode j :=
  Function.update_of_ne hj _ _

theorem inode_setInode_self {e : InodeEntry} : (s.setInode i e).inode i = e :=
  Function.update_self _ _ _

theorem proc_setProc_of_ne {e : Process} (hq : q ≠ p) : (s.setProc p e).proc q = s.proc q :=
  Function.update_of_ne hq _ _

theorem proc_setProc_self {e : Process} : (s.setProc p e).proc p = e := Function.update_self _ _ _

theorem ident_setInode {e : InodeEntry} (hdev : e.iDev = (s.inode i).iDev)
    (hnumber : e.iNumber = (s.inode i).iNumber) : (s.setInode i e).ident = s.ident := by
  funext j
  unfold ident
  by_cases hj : j = i
  · subst hj
    rw [inode_setInode_self, hdev, hnumber]
  · rw [inode_setInode_of_ne hj]

theorem ident_setFlag (flag : UInt32) : (s.setFlag i flag).ident = s.ident :=
  ident_setInode rfl rfl

theorem ident_setCount (k : ℤ) : (s.setCount i k).ident = s.ident := ident_setInode rfl rfl

theorem ident_prele : (s.prele i).ident = s.ident := by
  unfold prele
  dsimp only
  split
  · exact (ident_setFlag _).trans (ident_setFlag _)
  · exact ident_setFlag _

theorem inode_prele_of_ne (hj : j ≠ i) : (s.prele i).inode j = s.inode j := by
  unfold prele
  dsimp only
  split
  · exact (inode_setInode_of_ne hj).trans (inode_setInode_of_ne hj)
  · exact inode_setInode_of_ne hj

theorem core_setProc {e : Process} (he : e.core = (s.proc p).core) (q : Fin n) :
    ((s.setProc p e).proc q).core = (s.proc q).core := by
  by_cases hq : q = p
  · subst hq
    rw [proc_setProc_self, he]
  · rw [proc_setProc_of_ne hq]

theorem core_setInside (v : Bool) (q : Fin n) :
    ((s.setInside p i v).proc q).core = (s.proc q).core := by
  apply core_setProc
  rfl

theorem core_sleepOn (chan : Chan) (w : Option Slot) (q : Fin n) :
    ((s.sleepOn p chan w).proc q).core = (s.proc q).core := by
  apply core_setProc
  rfl

theorem core_wakeUpAll (chan : Chan) (q : Fin n) :
    ((s.wakeUpAll chan).proc q).core = (s.proc q).core := by
  unfold wakeUpAll
  dsimp only
  split <;> rfl

theorem core_prele (q : Fin n) : ((s.prele i).proc q).core = (s.proc q).core := by
  unfold prele
  dsimp only
  split
  · exact core_wakeUpAll _ q
  · rfl

namespace Valid

/-- Flags, modes and sleeping processes do not matter, as long as what is being torn down stays
locked. -/
theorem of_core (h : s.Valid) (hbooks : s'.books = s.books) (hident : s'.ident = s.ident)
    (hcore : ∀ q, (s'.proc q).core = (s.proc q).core)
    (hlocked : ∀ q i src, s.books.tearing q = some (i, src) → (s'.inode i).locked = true) :
    s'.Valid := by
  have hcount : ∀ i, (s'.inode i).iCount = (s.inode i).iCount :=
    fun i => congrFun (congrArg Books.count hbooks) i
  apply h.of_ident
  case hbooks => rw [hbooks]; exact h.books
  case hident => exact fun i _ => congrFun hident i
  case hcount =>
    intro i hi
    rwa [← hcount]
  case hsealed =>
    intro q i src hq
    rw [hbooks] at hq
    rw [hcount]
    exact ⟨(h.sealed q i src hq).1, hlocked q i src hq⟩
  case hknown =>
    intro q i hrefs
    rw [hbooks] at hrefs
    have hids := Process.of_core (fun q => q.ids) (fun _ => rfl) (hcore q)
    exact (congrFun hids i).trans (h.known q i hrefs)
  case hborrowed =>
    intro q b hb
    have hb' : (s.loc q).borrowed = some b := by
      rw [← hb]
      exact (Process.of_core (fun q => q.loc.borrowed) (fun _ => rfl) (hcore q)).symm
    have hroot : s'.rootDirInode = s.rootDirInode := congrArg Books.root hbooks
    refine ⟨(h.borrowed q b hb').1, ?_⟩
    have hvia := (h.borrowed q b hb').2
    cases hv : b.via with
    | cwd =>
      rw [hv] at hvia
      unfold ViaOk at hvia ⊢
      rwa [hbooks]
    | root =>
      rw [hv] at hvia
      unfold ViaOk at hvia ⊢
      rwa [hroot]
    | file fd f =>
      rw [hv] at hvia
      unfold ViaOk at hvia ⊢
      rwa [hbooks]
  case hgone => exact fun q => (h.gone q).of_core (hcore q)

/-- A change of one entry that sets flags or clears some others. -/
theorem setInode (h : s.Valid) {e : InodeEntry} (hcount : e.iCount = (s.inode i).iCount)
    (hdev : e.iDev = (s.inode i).iDev) (hnumber : e.iNumber = (s.inode i).iNumber)
    (hlocked : ∀ q src, s.books.tearing q = some (i, src) → e.locked = true) :
    (s.setInode i e).Valid := by
  apply h.of_core
  case hbooks => exact books_setInode_same hcount
  case hident => exact ident_setInode hdev hnumber
  case hcore => exact fun _ => rfl
  case hlocked =>
    intro q j src hq
    by_cases hj : j = i
    · subst hj
      rw [inode_setInode_self]
      exact hlocked q src hq
    · rw [inode_setInode_of_ne hj]
      exact (h.sealed q j src hq).2

theorem setInside (h : s.Valid) (v : Bool) : (s.setInside p i v).Valid :=
  h.of_core (books_setInside v) rfl (core_setInside v) fun q i src hq => (h.sealed q i src hq).2

theorem wakeUpAll (h : s.Valid) (chan : Chan) : (s.wakeUpAll chan).Valid :=
  h.of_core (books_wakeUpAll chan) rfl (core_wakeUpAll chan)
    fun q i src hq => (h.sealed q i src hq).2

theorem sleepOn (h : s.Valid) (chan : Chan) (w : Option Slot) : (s.sleepOn p chan w).Valid :=
  h.of_core (books_sleepOn chan w) rfl (core_sleepOn chan w)
    fun q i src hq => (h.sealed q i src hq).2

/-- A lock is released of an inode that nobody is tearing down. -/
theorem prele (h : s.Valid) (hi : ∀ q src, s.books.tearing q ≠ some (i, src)) :
    (s.prele i).Valid := by
  apply h.of_core books_prele ident_prele core_prele
  intro q j src hq
  rw [inode_prele_of_ne]
  · exact (h.sealed q j src hq).2
  · rintro rfl
    exact hi q src hq

/-! ### What one process does -/

/-- A step of the process `p` that touches the entry `i` of the table of inodes and leaves the
files alone that others use. -/
theorem of_step (h : s.Valid) (hbooks : s'.books.Ok)
    (hident : ∀ j, (s'.inode j).iCount ≠ 0 → s'.ident j = s.ident j)
    (hinode : ∀ j, j ≠ i → s'.inode j = s.inode j)
    (hcount : (s'.inode i).iCount ≠ 0 → (s.inode i).iCount ≠ 0)
    (hsealed : ∀ q src, s'.books.tearing q = some (i, src) →
      (s'.inode i).iCount = 1 ∧ (s'.inode i).locked = true)
    (htearing : ∀ j src, s'.books.tearing p = some (j, src) →
      j = i ∨ s.books.tearing p = some (j, src))
    (hproc : ∀ q, q ≠ p → (s'.proc q).core = (s.proc q).core)
    (hroot : s'.rootDirInode = s.rootDirInode)
    (hknown : ∀ j, 0 < s'.books.refs p j → (s'.proc p).ids j = s.ident j)
    (hborrowed : ∀ b, (s'.loc p).borrowed = some b →
      (b.iDev, b.iNumber) = s.ident b.slot ∧ s'.ViaOk p b.slot b.via)
    (howner : ∀ q fd f, q ≠ p → s.books.fds q fd = some f →
      s'.books.owner f = s.books.owner f)
    (hgone : (s'.proc p).GoneOk) : s'.Valid := by
  apply h.of_ident hbooks hident
  case hcount =>
    intro j hj
    by_cases hji : j = i
    · subst hji
      exact hcount hj
    · rwa [hinode j hji] at hj
  case hsealed =>
    intro q j src hq
    by_cases hji : j = i
    · subst hji
      exact hsealed q src hq
    · rw [hinode j hji]
      by_cases hqp : q = p
      · subst hqp
        exact h.sealed q j src ((htearing j src hq).resolve_left hji)
      · apply h.sealed q j src
        rw [← hq]
        exact (Process.of_core (fun q => q.loc.tearing) (fun _ => rfl) (hproc q hqp)).symm
  case hknown =>
    intro q j hrefs
    by_cases hqp : q = p
    · subst hqp
      exact hknown j hrefs
    · have hids := Process.of_core (fun q => q.ids) (fun _ => rfl) (hproc q hqp)
      have hrefs' := Process.of_core (fun q => q.loc.refs) (fun _ => rfl) (hproc q hqp)
      refine (congrFun hids j).trans (h.known q j ?_)
      rwa [show s'.books.refs q j = s.books.refs q j from congrFun hrefs' j] at hrefs
  case hborrowed =>
    intro q b hb
    by_cases hqp : q = p
    · subst hqp
      exact hborrowed b hb
    · have hb' : (s.loc q).borrowed = some b := by
        rw [← hb]
        exact (Process.of_core (fun q => q.loc.borrowed) (fun _ => rfl) (hproc q hqp)).symm
      have hfds : s'.books.fds q = s.books.fds q :=
        Process.of_core Process.fds Process.fds_core (hproc q hqp)
      have hcwd : s'.books.cwd q = s.books.cwd q :=
        Process.of_core Process.cwd Process.cwd_core (hproc q hqp)
      obtain ⟨hb, hvia⟩ := h.borrowed q b hb'
      refine ⟨hb, ?_⟩
      cases hv : b.via with
      | cwd =>
        rw [hv] at hvia
        exact hcwd.trans hvia
      | root =>
        rw [hv] at hvia
        exact hroot.trans hvia
      | file fd f =>
        rw [hv] at hvia
        exact ⟨(congrFun hfds fd).trans hvia.1, (howner q fd f hqp hvia.1).trans hvia.2⟩
  case hgone =>
    intro q
    by_cases hqp : q = p
    · subst hqp
      exact hgone
    · exact (h.gone q).of_core (hproc q hqp)

/-- A step of the process `p` that does not touch the table of inodes. -/
theorem of_local (h : s.Valid) (hbooks : s'.books.Ok) (hinode : s'.inode = s.inode)
    (htearing : s'.books.tearing = s.books.tearing)
    (hproc : ∀ q, q ≠ p → s'.proc q = s.proc q) (hroot : s'.rootDirInode = s.rootDirInode)
    (hknown : ∀ j, 0 < s'.books.refs p j → (s'.proc p).ids j = s.ident j)
    (hborrowed : (s'.loc p).borrowed = none)
    (howner : ∀ q fd f, q ≠ p → s.books.fds q fd = some f →
      s'.books.owner f = s.books.owner f)
    (hgone : (s'.proc p).GoneOk) : s'.Valid := by
  apply h.of_step (i := 0) hbooks
  case hident =>
    intro j _
    unfold ident
    rw [hinode]
  case hinode => exact fun j _ => congrFun hinode j
  case hcount => rw [hinode]; exact id
  case hsealed =>
    intro q src hq
    rw [htearing] at hq
    rw [hinode]
    exact h.sealed q 0 src hq
  case htearing =>
    intro j src hq
    rw [htearing] at hq
    exact .inr hq
  case hproc => exact fun q hqp => congrArg Process.core (hproc q hqp)
  case hroot => exact hroot
  case hknown => exact hknown
  case hborrowed =>
    intro b hb
    rw [hborrowed] at hb
    cases hb
  case howner => exact howner
  case hgone => exact hgone

/-! ### References to inodes -/

/-- A new reference in hand goes with the device and the number of the inode. -/
theorem known_take (h : s.Valid) {s₁ : Kernel n} (hids : (s₁.proc p).ids = (s.proc p).ids)
    (hzero : s₁.books.refs p = s.books.refs p) (hident : s₁.ident i = s.ident i) (j : Slot) (hrefs : 0 < (s₁.take p i).books.refs p j) :
    ((s₁.take p i).proc p).ids j = s.ident j := by
  have hrefs' : 0 < Function.update (s.books.refs p) i (s.books.refs p i + 1) j := by
    rw [books_take] at hrefs
    unfold Books.take at hrefs
    rwa [Books.refs_setRefs_self, hzero] at hrefs
  unfold Kernel.take
  rw [proc_setProc_self]
  dsimp only
  by_cases hj : j = i
  · subst hj
    split
    · rw [Function.update_self]
      exact hident
    · next hne =>
      rw [show (s₁.loc p).refs = s.books.refs p from hzero] at hne
      rw [hids]
      exact h.known p j (Nat.pos_of_ne_zero hne)
  · rw [Function.update_of_ne hj] at hrefs'
    split
    · rw [Function.update_of_ne hj, hids]
      exact h.known p j hrefs'
    · rw [hids]
      exact h.known p j hrefs'

/-- What a process borrows stays where it is. -/
theorem borrowed_congr (h : s.Valid) (hloc : (s'.loc p).borrowed = (s.loc p).borrowed)
    (hcwd : s'.books.cwd p = s.books.cwd p) (hroot : s'.rootDirInode = s.rootDirInode)
    (hfds : s'.books.fds p = s.books.fds p) (howner : s'.books.owner = s.books.owner)
    (b : Borrowed) (hb : (s'.loc p).borrowed = some b) :
    (b.iDev, b.iNumber) = s.ident b.slot ∧ s'.ViaOk p b.slot b.via := by
  rw [hloc] at hb
  obtain ⟨hb, hvia⟩ := h.borrowed p b hb
  refine ⟨hb, ?_⟩
  cases hv : b.via with
  | cwd =>
    rw [hv] at hvia
    exact hcwd.trans hvia
  | root =>
    rw [hv] at hvia
    exact hroot.trans hvia
  | file fd f =>
    rw [hv] at hvia
    exact ⟨(congrFun hfds fd).trans hvia.1, (congrFun howner f).trans hvia.2⟩

theorem hold (h : s.Valid) (hlive : (s.proc p).live = true) (htearing : s.books.tearing p = none)
    (hcount : (s.inode i).iCount ≠ 0) (hlocked : (s.inode i).locked = false) :
    (s.hold p i).Valid := by
  have hbooks := books_hold (s := s) (p := p) (i := i)
  unfold Kernel.hold at hbooks ⊢
  dsimp only at hbooks ⊢
  rw [books_setInside] at hbooks
  apply Valid.setInside
  apply h.of_step (p := p) (i := i)
  case hbooks => rw [hbooks]; exact h.books.hold htearing
  case hident => exact fun j _ => congrFun ((ident_setFlag _).trans (ident_setCount _)) j
  case hinode =>
    intro j hj
    exact (inode_setInode_of_ne hj).trans (inode_setInode_of_ne hj)
  case hcount => exact fun _ => hcount
  case hsealed =>
    intro q src hq
    rw [hbooks] at hq
    have htorn := (h.sealed q i src hq).2
    rw [hlocked] at htorn
    cases htorn
  case htearing =>
    intro j src hq
    rw [hbooks] at hq
    exact .inr hq
  case hproc => exact fun q hqp => congrArg Process.core (proc_setProc_of_ne hqp)
  case hroot => rfl
  case hknown =>
    apply h.known_take
    · rfl
    · rfl
    · rw [ident_setFlag, ident_setCount]
  case hborrowed =>
    apply h.borrowed_congr
    · unfold Kernel.take
      dsimp only [loc]
      rw [proc_setProc_self]
      rfl
    · rw [hbooks]; rfl
    · rfl
    · rw [hbooks]; rfl
    · rw [hbooks]; rfl
  case howner =>
    intro q fd f _ _
    rw [hbooks]
    rfl
  case hgone =>
    apply Process.GoneOk.of_live
    unfold Kernel.take
    rw [proc_setProc_self]
    exact hlive

theorem of_isLoaded_none {dev number : ℤ} (hloaded : s.isLoaded dev number = none) (j : Slot)
    (hj : (s.inode j).iCount ≠ 0) : s.ident j ≠ (dev, number) := by
  intro hident
  have hnot := List.find?_eq_none.1 hloaded j (List.mem_finRange j)
  have hdev : (s.inode j).iDev = dev := congrArg Prod.fst hident
  have hnumber : (s.inode j).iNumber = number := congrArg Prod.snd hident
  simp only [hdev, hnumber, hj, ne_eq, not_false_eq_true, and_self, decide_true,
    not_true_eq_false] at hnot

theorem load (h : s.Valid) (hlive : (s.proc p).live = true) (htearing : s.books.tearing p = none)
    (hcount : (s.inode i).iCount = 0) {dev number : ℤ} (hloaded : s.isLoaded dev number = none) :
    (s.load p i dev number).Valid := by
  have hbooks := books_load (s := s) (p := p) (i := i) dev number
  unfold Kernel.load at hbooks ⊢
  dsimp only at hbooks ⊢
  rw [books_setInside] at hbooks
  apply Valid.setInside
  have hzero : s.books.count i = 0 := hcount
  -- nobody knows the entry yet
  have hrefs : ∀ q, s.books.refs q i = 0 := by
    intro q
    have hle := Books.refs_le_holders (b := s.books) (p := q) (i := i)
    rw [← h.books.holders, hzero] at hle
    omega
  have howned : ¬ s.books.Owned i := by
    intro howned
    have hlt := howned.refs_lt_holders p
    rw [← h.books.holders, hzero] at hlt
    omega
  generalize he : ({ s.inode i with
    iDev := dev, iNumber := number, iFlag := ILOCK,
    iCount := (s.inode i).iCount + 1, iLastr := -1 } : InodeEntry) = e at *
  have hident : ∀ j, (((s.setInode i e).take p i)).ident j =
      if j = i then (dev, number) else s.ident j := by
    intro j
    change ((Function.update s.inode i e j).iDev, (Function.update s.inode i e j).iNumber) = _
    by_cases hj : j = i
    · subst hj
      rw [Function.update_self, if_pos rfl, ← he]
    · rw [Function.update_of_ne hj, if_neg hj]
      rfl
  have hinode : ∀ j, j ≠ i → ((s.setInode i e).take p i).inode j = s.inode j :=
    fun j hj => inode_setInode_of_ne hj
  have hproc : ∀ q, q ≠ p → ((s.setInode i e).take p i).proc q = s.proc q :=
    fun q hq => proc_setProc_of_ne hq
  have hproc' : ((s.setInode i e).take p i).proc p = _ := proc_setProc_self
  constructor
  case books => rw [hbooks]; exact h.books.hold htearing
  case sealed =>
    intro q j src hq
    rw [hbooks] at hq
    have htorn := h.sealed q j src hq
    have hj : j ≠ i := by
      rintro rfl
      rw [hcount] at htorn
      exact absurd htorn.1 (by decide)
    rw [hinode j hj]
    exact htorn
  case unique =>
    intro j k hj hk heq
    rw [hident, hident] at heq
    by_cases hji : j = i
    · by_cases hki : k = i
      · rw [hji, hki]
      · rw [if_pos hji, if_neg hki] at heq
        rw [hinode k hki] at hk
        exact absurd heq.symm (of_isLoaded_none hloaded k hk)
    · rw [hinode j hji] at hj
      rw [if_neg hji] at heq
      by_cases hki : k = i
      · rw [if_pos hki] at heq
        exact absurd heq (of_isLoaded_none hloaded j hj)
      · rw [if_neg hki] at heq
        rw [hinode k hki] at hk
        exact h.unique j k hj hk heq
  case known =>
    intro q j hq
    rw [hident]
    by_cases hqp : q = p
    · subst hqp
      by_cases hji : j = i
      · subst hji
        rw [if_pos rfl, hproc']
        dsimp only
        rw [if_pos (show ((s.setInode j e).loc q).refs j = 0 from hrefs q), Function.update_self]
        have hself : (s.setInode j e).inode j = e := inode_setInode_self
        rw [hself, ← he]
      · rw [if_neg hji, hproc']
        dsimp only
        rw [if_pos (show ((s.setInode i e).loc q).refs i = 0 from hrefs q),
          Function.update_of_ne hji]
        apply h.known q j
        rw [hbooks] at hq
        unfold Books.hold Books.take Books.setCount at hq
        dsimp only at hq
        rwa [Books.refs_setRefs_self, Function.update_of_ne hji] at hq
    · have hrefs' : 0 < s.books.refs q j := by
        rw [hbooks] at hq
        unfold Books.hold Books.take Books.setCount at hq
        dsimp only at hq
        rwa [Books.refs_setRefs_of_ne hqp] at hq
      have hji : j ≠ i := by
        rintro rfl
        rw [hrefs] at hrefs'
        omega
      rw [if_neg hji, hproc q hqp]
      exact h.known q j hrefs'
  case borrowed =>
    intro q b hb
    have hloc : (((s.setInode i e).take p i).loc q).borrowed = (s.loc q).borrowed := by
      by_cases hqp : q = p
      · subst hqp
        change (((s.setInode i e).take q i).proc q).loc.borrowed = _
        rw [hproc']
        rfl
      · exact congrArg (fun e => e.loc.borrowed) (hproc q hqp)
    have hvia := h.borrowed_congr hloc (by rw [hbooks]; rfl) rfl (by rw [hbooks]; rfl)
      (by rw [hbooks]; rfl) b hb
    rw [hident, if_neg]
    · exact hvia
    · intro hslot
      rw [hloc] at hb
      exact howned (hslot ▸ (h.borrowed q b hb).2.owned)
  case gone =>
    intro q
    by_cases hqp : q = p
    · subst hqp
      apply Process.GoneOk.of_live
      rw [hproc']
      exact hlive
    · rw [hproc q hqp]
      exact h.gone q

end Valid

theorem inode_takeFrom : (s.takeFrom p i src).inode = s.inode := by cases src <;> rfl

theorem root_takeFrom : (s.takeFrom p i src).rootDirInode = s.rootDirInode := by
  cases src <;> rfl

theorem proc_takeFrom_of_ne (hq : q ≠ p) : (s.takeFrom p i src).proc q = s.proc q := by
  cases src with
  | cdir new => exact (proc_setProc_of_ne hq).trans (proc_setProc_of_ne hq)
  | hand => rfl
  | _ => exact proc_setProc_of_ne hq

theorem loc_setProc_self {e : Process} : (s.setProc p e).loc p = e.loc :=
  congrArg Process.loc proc_setProc_self

theorem loc_setLoc {l : Local} : (s.setLoc p l).loc p = l := loc_setProc_self

theorem live_take : ((s.take p i).proc p).live = (s.proc p).live := by
  unfold take
  rw [proc_setProc_self]
  rfl

theorem borrowed_take : ((s.take p i).loc p).borrowed = (s.loc p).borrowed := by
  unfold take
  rw [loc_setProc_self]

theorem live_takeFrom : ((s.takeFrom p i src).proc p).live = (s.proc p).live := by
  cases src with
  | cdir new => exact live_take.trans (live_setLoc _ p)
  | hand => rfl
  | _ => exact live_take

theorem borrowed_takeFrom : ((s.takeFrom p i src).loc p).borrowed = (s.loc p).borrowed := by
  cases src with
  | cdir new =>
    unfold takeFrom
    dsimp only
    rw [borrowed_take, loc_setLoc]
  | hand => rfl
  | _ => exact borrowed_take

namespace Valid

theorem known_takeFrom (h : s.Valid) (j : Slot)
    (hrefs : 0 < (s.takeFrom p i src).books.refs p j) :
    ((s.takeFrom p i src).proc p).ids j = s.ident j := by
  cases src with
  | hand => exact h.known p j hrefs
  | file f => exact h.known_take (by rfl) (by rfl) rfl j hrefs
  | text t => exact h.known_take (by rfl) (by rfl) rfl j hrefs
  | cdir new =>
    unfold takeFrom at hrefs ⊢
    dsimp only at hrefs ⊢
    refine h.known_take ?_ ?_ ?_ j hrefs
    · unfold setLoc
      rw [proc_setProc_self]
    · change ((s.setLoc p _).loc p).refs = _
      rw [loc_setLoc]
      rfl
    · rfl

/-- What a process borrows is not changed when it takes over a reference. -/
theorem borrowed_takeFrom (h : s.Valid) (hsrc : src = .hand ∨ (s.loc p).borrowed = none)
    (b : Borrowed) (hb : ((s.takeFrom p i src).loc p).borrowed = some b) :
    (b.iDev, b.iNumber) = s.ident b.slot ∧ (s.takeFrom p i src).ViaOk p b.slot b.via := by
  rw [Kernel.borrowed_takeFrom] at hb
  rcases hsrc with rfl | hnone
  · exact h.borrowed p b hb
  · rw [hnone] at hb
    cases hb

/-- A file that is named by somebody is not the one that is given up. -/
theorem not_fds_of_ready (h : s.Valid) {fd : Fd} {f : FileSlot}
    (hready : s.books.Ready p i (.file f)) : s.books.fds q fd ≠ some f := by
  intro hq
  have htwo := Books.two_le_names_closing hq hready.2.2
  rw [← h.books.names, hready.2.1] at htwo
  omega

/-- Files that others use keep their references. -/
theorem owner_takeFrom (h : s.Valid) (hready : s.books.Ready p i src) {fd : Fd}
    {f : FileSlot} (hq : s.books.fds q fd = some f) :
    (s.takeFrom p i src).books.owner f = s.books.owner f := by
  rw [books_takeFrom, Books.takeFrom_owner, if_neg]
  rintro rfl
  exact h.not_fds_of_ready hready hq

theorem lockLast (h : s.Valid) (hlive : (s.proc p).live = true)
    (htearing : s.books.tearing p = none) (hready : s.books.Ready p i src)
    (hcount : (s.inode i).iCount = 1) (hsrc : src = .hand ∨ (s.loc p).borrowed = none) :
    (s.lockLast p i src).Valid := by
  have hbooks := books_lockLast (s := s) (p := p) (i := i) src
  have hlock : ((s.setFlag i ((s.inode i).iFlag ||| ILOCK)).inode i).locked = true := by
    unfold setFlag
    rw [inode_setInode_self]
    exact flag_or_right (by decide)
  have hflag : (s.setFlag i ((s.inode i).iFlag ||| ILOCK)).Valid := by
    apply h.setInode
    · rfl
    · rfl
    · rfl
    · exact fun _ _ _ => flag_or_right (by decide)
  have hcount' : ((s.setFlag i ((s.inode i).iFlag ||| ILOCK)).inode i).iCount = 1 := by
    unfold setFlag
    rw [inode_setInode_self]
    exact hcount
  have hb : (s.setFlag i ((s.inode i).iFlag ||| ILOCK)).books = s.books := books_setFlag _
  have hborrowed : src = .hand ∨
      ((s.setFlag i ((s.inode i).iFlag ||| ILOCK)).loc p).borrowed = none := hsrc
  have hlive' : ((s.setFlag i ((s.inode i).iFlag ||| ILOCK)).proc p).live = true := hlive
  unfold Kernel.lockLast at hbooks ⊢
  generalize s.setFlag i ((s.inode i).iFlag ||| ILOCK) = s₁ at *
  rw [← hb] at htearing hready hbooks
  have hproc : ((s₁.takeFrom p i src).setTearing p (some (i, src))).proc p = _ :=
    proc_setProc_self
  apply hflag.of_step (p := p) (i := i)
  case hbooks => rw [hbooks]; exact hflag.books.seize htearing hready
  case hident =>
    intro j _
    unfold ident
    rw [show ((s₁.takeFrom p i src).setTearing p (some (i, src))).inode = s₁.inode from
      inode_takeFrom]
  case hinode => exact fun j _ => congrFun inode_takeFrom j
  case hcount =>
    rw [show ((s₁.takeFrom p i src).setTearing p (some (i, src))).inode = s₁.inode from
      inode_takeFrom]
    exact id
  case hsealed =>
    intro q src' _
    rw [show ((s₁.takeFrom p i src).setTearing p (some (i, src))).inode = s₁.inode from
      inode_takeFrom]
    exact ⟨hcount', hlock⟩
  case htearing =>
    intro j src' hq
    rw [hbooks] at hq
    unfold Books.seize Books.setTearing at hq
    dsimp only at hq
    rw [Function.update_self] at hq
    cases hq
    exact .inl rfl
  case hproc =>
    exact fun q hqp => congrArg Process.core
      ((proc_setProc_of_ne hqp).trans (proc_takeFrom_of_ne hqp))
  case hroot => exact root_takeFrom
  case hknown =>
    intro j hrefs
    rw [hproc]
    apply hflag.known_takeFrom
    rw [hbooks] at hrefs
    rw [books_takeFrom]
    exact hrefs
  case hborrowed =>
    intro b hb
    have hloc : (((s₁.takeFrom p i src).setTearing p (some (i, src))).loc p).borrowed =
        ((s₁.takeFrom p i src).loc p).borrowed := by
      dsimp only [loc]
      rw [hproc]
    rw [hloc] at hb
    obtain ⟨hid, hvia⟩ := hflag.borrowed_takeFrom hborrowed b hb
    refine ⟨hid, ?_⟩
    cases hv : b.via with
    | cwd =>
      rw [hv] at hvia
      unfold ViaOk at hvia ⊢
      rwa [books_setTearing]
    | root =>
      rw [hv] at hvia
      exact hvia
    | file fd f =>
      rw [hv] at hvia
      unfold ViaOk at hvia ⊢
      rwa [books_setTearing]
  case howner =>
    intro q fd f _ hq
    rw [books_setTearing]
    exact hflag.owner_takeFrom hready hq
  case hgone =>
    apply Process.GoneOk.of_live
    unfold setTearing
    rw [live_setLoc, live_takeFrom]
    exact hlive'

end Valid

/-! ### The end of a reference -/

theorem inode_settle : (s.settle p src).inode = s.inode := by
  cases src with
  | cdir new => cases new <;> rfl
  | _ => rfl

theorem root_settle : (s.settle p src).rootDirInode = s.rootDirInode := by
  cases src with
  | cdir new => cases new <;> rfl
  | _ => rfl

theorem proc_settle_of_ne (hq : q ≠ p) : (s.settle p src).proc q = s.proc q := by
  cases src with
  | file f => exact proc_setProc_of_ne hq
  | cdir new =>
    cases new with
    | none => rfl
    | some j => exact (proc_setProc_of_ne hq).trans (proc_setProc_of_ne hq)
  | _ => rfl

/-- What giving back a reference leaves alone in the process. -/
def Rest (q : Process) : (Slot → ℤ × ℤ) × Option Borrowed × Bool :=
  (q.ids, q.loc.borrowed, q.live)

theorem rest_setLoc {l : Local} (hl : l.borrowed = (s.loc p).borrowed) :
    Rest ((s.setLoc p l).proc p) = Rest (s.proc p) := by
  unfold setLoc
  rw [proc_setProc_self]
  unfold Rest
  rw [hl]
  rfl

theorem rest_settle : Rest ((s.settle p src).proc p) = Rest (s.proc p) := by
  cases src with
  | file f => exact rest_setLoc rfl
  | cdir new =>
    cases new with
    | none => rfl
    | some j =>
      unfold settle give
      dsimp only
      rw [rest_setLoc, proc_setProc_self]
      · rfl
      · rfl
  | _ => rfl

theorem rest_core (q : Process) : Rest q.core = Rest q := by
  unfold Rest
  rw [Process.live_core]
  rfl

theorem rest_setInside (v : Bool) : Rest ((s.setInside p i v).proc p) = Rest (s.proc p) :=
  Process.of_core Rest rest_core (core_setInside v p)

theorem inode_dropCount_of_ne (hj : j ≠ i) : (s.dropCount i).inode j = s.inode j :=
  (inode_prele_of_ne hj).trans (inode_setInode_of_ne hj)

theorem ident_dropCount : (s.dropCount i).ident = s.ident := ident_prele.trans (ident_setCount _)

theorem core_dropCount (q : Fin n) : ((s.dropCount i).proc q).core = (s.proc q).core :=
  core_prele q

theorem inode_letGo {last : Bool} : (s.letGo p i last src).inode = s.inode := by
  unfold letGo
  split
  · rfl
  · split <;> rfl

theorem root_letGo {last : Bool} : (s.letGo p i last src).rootDirInode = s.rootDirInode := by
  unfold letGo
  split
  · rfl
  · split <;> rfl

theorem proc_letGo_of_ne {last : Bool} (hq : q ≠ p) :
    (s.letGo p i last src).proc q = s.proc q := by
  unfold letGo
  split
  · exact (proc_setProc_of_ne hq).trans (proc_setProc_of_ne hq)
  · split
    · exact proc_setProc_of_ne hq
    · exact proc_setProc_of_ne hq
    · rfl

theorem rest_letGo {last : Bool} : Rest ((s.letGo p i last src).proc p) = Rest (s.proc p) := by
  unfold letGo
  split
  · exact (rest_setLoc (by rfl)).trans (rest_setLoc (by rfl))
  · split
    · exact rest_setLoc (by rfl)
    · exact rest_setLoc (by rfl)
    · rfl

theorem core_invalidate (q : Fin n) : ((s.invalidate i).proc q).core = (s.proc q).core :=
  core_prele q

theorem inode_invalidate_of_ne (hj : j ≠ i) : (s.invalidate i).inode j = s.inode j :=
  (inode_setInode_of_ne hj).trans ((inode_setInode_of_ne hj).trans (inode_prele_of_ne hj))

/-- What `IPut` leaves alone at its end. -/
theorem release_frame (s : Kernel n) (p : Fin n) (i : Slot) (last : Bool) (src : Source) :
    (∀ j, j ≠ i → (s.release p i last src).inode j = s.inode j) ∧
      (∀ q, q ≠ p → ((s.release p i last src).proc q).core = (s.proc q).core) ∧
      Rest ((s.release p i last src).proc p) = Rest (s.proc p) ∧
      (s.release p i last src).rootDirInode = s.rootDirInode := by
  have hlast : (∀ j, j ≠ i → (if last then s.invalidate i else s).inode j = s.inode j) ∧
      (∀ q, ((if last then s.invalidate i else s).proc q).core = (s.proc q).core) ∧
      (if last then s.invalidate i else s).rootDirInode = s.rootDirInode := by
    split
    · exact ⟨fun j hj => inode_invalidate_of_ne hj, core_invalidate, congrArg Books.root
        books_invalidate⟩
    · exact ⟨fun _ _ => rfl, fun _ => rfl, rfl⟩
  obtain ⟨hinode, hcore, hroot⟩ := hlast
  unfold release
  dsimp only
  generalize (if last then s.invalidate i else s) = s₁ at *
  refine ⟨fun j hj => ?_, fun q hq => ?_, ?_, ?_⟩
  · rw [inode_settle, inode_letGo]
    exact (inode_dropCount_of_ne hj).trans (hinode j hj)
  · rw [proc_settle_of_ne hq, proc_letGo_of_ne hq]
    exact (core_setInside _ q).trans ((core_dropCount q).trans (hcore q))
  · rw [rest_settle, rest_letGo, rest_setInside]
    exact (Process.of_core Rest rest_core ((core_dropCount p).trans (hcore p)))
  · rw [root_settle, root_letGo]
    exact (congrArg Books.root books_prele).trans hroot

theorem ident_release_false : (s.release p i false src).ident = s.ident := by
  unfold release ident
  dsimp only
  rw [inode_settle, inode_letGo, if_neg Bool.false_ne_true]
  exact ident_dropCount

/-- What a process borrows is kept when it gives back a reference of its own. -/
theorem Valid.borrowed_release {last : Bool} (h : s.Valid)
    (hsrc : src = .hand ∨ (s.loc p).borrowed = none)
    (hbooks : src = .hand → (s.release p i last src).books.cwd = s.books.cwd ∧
      (s.release p i last src).books.fds = s.books.fds ∧
      (s.release p i last src).books.owner = s.books.owner) (b : Borrowed)
    (hb : ((s.release p i last src).loc p).borrowed = some b) :
    (b.iDev, b.iNumber) = s.ident b.slot ∧ (s.release p i last src).ViaOk p b.slot b.via := by
  obtain ⟨-, -, hrest, hroot⟩ := release_frame s p i last src
  have hloc : ((s.release p i last src).loc p).borrowed = (s.loc p).borrowed :=
    congrArg (fun r => r.2.1) hrest
  rcases hsrc with rfl | hnone
  · obtain ⟨hcwd, hfds, howner⟩ := hbooks rfl
    exact h.borrowed_congr hloc (congrFun hcwd p) hroot (congrFun hfds p) howner b hb
  · rw [hloc, hnone] at hb
    cases hb

theorem Valid.release (h : s.Valid) (hlive : (s.proc p).live = true)
    (htearing : s.books.tearing p = none) (hready : s.books.Ready p i src)
    (hsrc : src = .hand ∨ (s.loc p).borrowed = none) : (s.release p i false src).Valid := by
  have hbooks : (s.release p i false src).books = s.books.putBack p i src := books_release hlive
  obtain ⟨hinode, hproc, hrest, hroot⟩ := release_frame s p i false src
  have hseized := h.books.seize htearing hready
  have htorn : (s.books.seize p i src).tearing p = some (i, src) := Function.update_self _ _ _
  have hput := hseized.discharge htorn
  rw [Books.putBack_eq htearing] at hput
  have htearing' : (s.books.putBack p i src).tearing = s.books.tearing := by
    unfold Books.putBack
    cases src with
    | cdir new => cases new <;> rfl
    | _ => rfl
  apply h.of_step (p := p) (i := i)
  case hbooks => rw [hbooks]; exact hput
  case hident => exact fun j _ => congrFun ident_release_false j
  case hinode => exact hinode
  case hcount =>
    intro _
    exact (hready.count_pos h.books).ne'
  case hsealed =>
    intro q src' hq
    rw [hbooks, htearing'] at hq
    exact absurd hq (h.not_torn_of_ready hready htearing)
  case htearing =>
    intro j src' hq
    rw [hbooks, htearing'] at hq
    exact .inr hq
  case hproc => exact hproc
  case hroot => exact hroot
  case hknown =>
    intro j hrefs
    rw [show ((s.release p i false src).proc p).ids = (s.proc p).ids from congrArg Prod.fst hrest]
    apply h.known p j
    rw [hbooks] at hrefs
    exact hrefs.trans_le (Books.putBack_refs_le j)
  case hborrowed =>
    apply h.borrowed_release hsrc
    rintro rfl
    rw [hbooks]
    exact ⟨rfl, rfl, rfl⟩
  case howner =>
    intro q fd f _ hq
    rw [hbooks]
    exact Books.putBack_owner fun hf => h.not_fds_of_ready (hf ▸ hready) hq
  case hgone =>
    apply Process.GoneOk.of_live
    rw [show ((s.release p i false src).proc p).live = (s.proc p).live from
      congrArg (fun r => r.2.2) hrest]
    exact hlive

/-- **The last reference is gone**, and with it the entry of the table. -/
theorem Valid.releaseLast (h : s.Valid) (hlive : (s.proc p).live = true)
    (htorn : s.books.tearing p = some (i, src)) (hsrc : src = .hand ∨ (s.loc p).borrowed = none) :
    (s.release p i true src).Valid := by
  obtain ⟨hrefs, hsrc'⟩ := h.books.torn p i src htorn
  have hbooks : (s.release p i true src).books = s.books.discharge p i src :=
    books_release_last hlive hsrc'
  obtain ⟨hinode, hproc, hrest, hroot⟩ := release_frame s p i true src
  have hzero : ((s.release p i true src).inode i).iCount = 0 := by
    change (s.release p i true src).books.count i = 0
    rw [hbooks]
    unfold Books.discharge
    rw [Books.settle_count]
    refine (Function.update_self _ _ _).trans ?_
    rw [show s.books.count i = 1 from (h.sealed p i src htorn).1]
    rfl
  have htearing : (s.books.discharge p i src).tearing =
      Function.update s.books.tearing p none := Books.settle_tearing
  apply h.of_step (p := p) (i := i)
  case hbooks => rw [hbooks]; exact h.books.discharge htorn
  case hident =>
    intro j hj
    have hji : j ≠ i := by
      rintro rfl
      exact hj hzero
    unfold ident
    rw [hinode j hji]
  case hinode => exact hinode
  case hcount => exact fun hne => absurd hzero hne
  case hsealed =>
    intro q src' hq
    rw [hbooks, htearing] at hq
    by_cases hqp : q = p
    · subst hqp
      rw [Function.update_self] at hq
      cases hq
    · rw [Function.update_of_ne hqp] at hq
      exact absurd (h.eq_of_torn hrefs hq) hqp
  case htearing =>
    intro j src' hq
    rw [hbooks, htearing, Function.update_self] at hq
    cases hq
  case hproc => exact hproc
  case hroot => exact hroot
  case hknown =>
    intro j hj
    rw [show ((s.release p i true src).proc p).ids = (s.proc p).ids from congrArg Prod.fst hrest]
    apply h.known p j
    rw [hbooks] at hj
    exact hj.trans_le (Books.discharge_refs_le j)
  case hborrowed =>
    apply h.borrowed_release hsrc
    rintro rfl
    rw [hbooks]
    exact ⟨rfl, rfl, rfl⟩
  case howner =>
    intro q fd f _ _
    rw [hbooks]
    exact congrFun Books.settle_owner f
  case hgone =>
    apply Process.GoneOk.of_live
    rw [show ((s.release p i true src).proc p).live = (s.proc p).live from
      congrArg (fun r => r.2.2) hrest]
    exact hlive

end Kernel
end UnixV6pp
