import UnixV6pp.Fs.Pipe
import UnixV6pp.Lib.Tally
import Mathlib.Algebra.BigOperators.Group.Finset.Basic
import Mathlib.Algebra.Order.BigOperators.Group.Finset
import Mathlib.Data.Fintype.BigOperators
import Mathlib.Data.List.Infix

/-!
# What each step does to a pipe

Whatever a process does with a pipe, it keeps what the counts mean, that who sleeps will be
called, and that what has come in is what has gone out and what is still there.

* `Counted`, `Rest` — the counts, and what holds of the processes that are not inside the inode.
* `Inv` — **the invariant**, with what holds of the one that is.
* `Alone` — a process has the lock and is about to go on inside or to leave.
* `Inv.plock`, `Inv.readI`, `Inv.writeI` — the steps of `ReadP` and `WriteP`.
-/

namespace UnixV6pp
namespace Pipe

open State

variable {ι : Type}

/-! ### Bytes -/

theorem slice_self (mem : ℕ → UInt8) (a : ℕ) : slice mem a a = [] := by
  rw [slice, Nat.sub_self]
  rfl

theorem slice_append (mem : ℕ → UInt8) {a b c : ℕ} (hab : a ≤ b) (hbc : b ≤ c) :
    slice mem a b ++ slice mem b c = slice mem a c := by
  have hsplit : c - a = (b - a) + (c - b) := by omega
  have hb : a + 1 * (b - a) = b := by omega
  rw [slice, slice, slice, ← List.map_append, hsplit, ← List.range'_append, hb]

theorem slice_congr {mem mem' : ℕ → UInt8} {a b : ℕ} (h : ∀ o, a ≤ o → o < b → mem o = mem' o) :
    slice mem a b = slice mem' a b := by
  apply List.map_congr_left
  intro o ho
  rw [List.mem_range'_1] at ho
  exact h o ho.1 (by omega)

theorem slice_shift (mem : ℕ → UInt8) (a b n : ℕ) :
    slice (fun o => mem (b + (o - a))) a (a + n) = slice mem b (b + n) := by
  apply List.ext_getElem
  · simp [slice]
  · intro k _ _
    simp [slice]

/-! ### Waking up and unlocking -/

namespace Place

variable (chan : Chan) (pl : Place)

@[simp] theorem side_wake : (pl.wake chan).side = pl.side := by
  cases chan <;> rcases pl with _ | c | c | c | _ | _ <;> try rfl
  all_goals cases c <;> rfl

@[simp] theorem inside_wake : (pl.wake chan).inside = pl.inside := by
  cases chan <;> rcases pl with _ | c | c | c | _ | _ <;> try rfl
  all_goals cases c <;> rfl

variable {chan pl}

theorem wake_of_inside (h : pl.inside = true) : pl.wake chan = pl := by
  cases pl <;> first | (cases chan <;> rfl) | exact absurd h Bool.false_ne_true

/-- A process that still sleeps has slept before. -/
theorem wantsLock_of_wake {c : Call} (h : pl.wake chan = .wantsLock c) : pl = .wantsLock c := by
  rcases pl with _ | d | d | d | _ | _ <;> cases chan <;> try cases d
  all_goals first | exact h | exact absurd h (by simp [wake])

theorem asleep_of_wake {c : Call} (h : pl.wake chan = .asleep c) : pl = .asleep c := by
  rcases pl with _ | d | d | d | _ | _ <;> cases chan <;> try cases d
  all_goals first | exact h | exact absurd h (by simp [wake])

theorem wake_lock_ne {c : Call} : pl.wake .lock ≠ .wantsLock c := by
  cases pl <;> simp [wake]

theorem wake_readers_ne {mCount : ℕ} : pl.wake .readers ≠ .asleep (.read mCount) := by
  rcases pl with _ | d | d | d | _ | _ <;> try cases d
  all_goals simp [wake]

theorem wake_writers_ne {mem : ℕ → UInt8} {mBase count : ℕ} {uError : Bool} :
    pl.wake .writers ≠ .asleep (.write mem mBase count uError) := by
  rcases pl with _ | d | d | d | _ | _ <;> try cases d
  all_goals simp [wake]

end Place

namespace State

variable (s : State ι)

/-- `Prele` field by field. -/
theorem prele_eq : s.prele = { s with
    ilock := false
    iwant := false
    place := if s.iwant then fun p => (s.place p).wake .lock else s.place } := by
  cases h : s.iwant
  · exact (if_neg (by simp [h])).trans (by simp [h])
  · exact (if_pos h).trans rfl

@[simp] theorem prele_iSize : s.prele.iSize = s.iSize := by rw [prele_eq]
@[simp] theorem prele_bytes : s.prele.bytes = s.bytes := by rw [prele_eq]
@[simp] theorem prele_ilock : s.prele.ilock = false := by rw [prele_eq]
@[simp] theorem prele_iread : s.prele.iread = s.iread := by rw [prele_eq]
@[simp] theorem prele_iwrite : s.prele.iwrite = s.iwrite := by rw [prele_eq]
@[simp] theorem prele_iCount : s.prele.iCount = s.iCount := by rw [prele_eq]
@[simp] theorem prele_fOffset : s.prele.fOffset = s.fOffset := by rw [prele_eq]
@[simp] theorem prele_fCount : s.prele.fCount = s.fCount := by rw [prele_eq]
@[simp] theorem prele_fds : s.prele.fds = s.fds := by rw [prele_eq]
@[simp] theorem prele_accepted : s.prele.accepted = s.accepted := by rw [prele_eq]
@[simp] theorem prele_delivered : s.prele.delivered = s.delivered := by rw [prele_eq]

theorem place_prele (p : ι) : s.prele.place p = s.place p ∨ s.prele.place p = (s.place p).wake .lock := by
  rw [prele_eq]
  dsimp only
  split
  · exact .inr rfl
  · exact .inl rfl

@[simp] theorem side_prele (p : ι) : (s.prele.place p).side = (s.place p).side := by
  rcases s.place_prele p with h | h <;> simp [h]

@[simp] theorem inside_prele (p : ι) : (s.prele.place p).inside = (s.place p).inside := by
  rcases s.place_prele p with h | h <;> simp [h]

variable {s} in
theorem asleep_of_prele {p : ι} {c : Call} (h : s.prele.place p = .asleep c) :
    s.place p = .asleep c := by
  rcases s.place_prele p with heq | heq
  · rwa [heq] at h
  · exact Place.asleep_of_wake (heq ▸ h)

variable {s} in
/-- After it, nothing is in the file. -/
theorem reset_empty (h : s.fOffset = s.iSize) : s.reset.iSize = 0 ∧ s.reset.fOffset = 0 := by
  unfold reset
  split
  · next h0 => exact ⟨h ▸ h0, h0⟩
  · split <;> exact ⟨rfl, rfl⟩

@[simp] theorem reset_fds : s.reset.fds = s.fds := by
  unfold reset; split <;> [rfl; (split <;> rfl)]

@[simp] theorem reset_iCount : s.reset.iCount = s.iCount := by
  unfold reset; split <;> [rfl; (split <;> rfl)]

@[simp] theorem callReaders_iread : s.callReaders.iread = false := by
  unfold callReaders
  split
  · rfl
  · next h => exact Bool.not_eq_true _ ▸ h

@[simp] theorem callReaders_ilock : s.callReaders.ilock = s.ilock := by
  unfold callReaders; split <;> rfl

@[simp] theorem callReaders_fds : s.callReaders.fds = s.fds := by
  unfold callReaders; split <;> rfl

variable [DecidableEq ι] {s} {p q : ι} {pl pl' : Place}

@[simp] theorem setPlace_self : (s.setPlace p pl).place p = pl := Function.update_self ..

theorem setPlace_of_ne (h : q ≠ p) : (s.setPlace p pl).place q = s.place q :=
  Function.update_of_ne h _ _

theorem wake_update (f : ι → Place) (p : ι) (chan : Chan) :
    (fun q => (Function.update f p .user q).wake chan) =
      Function.update (fun q => (f q).wake chan) p .user := by
  funext q
  by_cases hq : q = p
  · subst hq
    rw [Function.update_self, Function.update_self]
    cases chan <;> rfl
  · rw [Function.update_of_ne hq, Function.update_of_ne hq]

theorem wakeUpAll_setPlace (chan : Chan) :
    (s.setPlace p .user).wakeUpAll chan = (s.wakeUpAll chan).setPlace p .user :=
  congrArg (fun f => { s with place := f }) (wake_update s.place p chan)

theorem prele_setPlace : (s.setPlace p .user).prele = s.prele.setPlace p .user := by
  rw [prele_eq, prele_eq]
  cases h : s.iwant
  · simp [setPlace, h]
  · simp [setPlace, h, wake_update]

theorem callReaders_setPlace :
    (s.setPlace p .user).callReaders = s.callReaders.setPlace p .user := by
  by_cases h : s.iread
  · rw [callReaders, callReaders, if_pos h, if_pos (by exact h), ← wakeUpAll_setPlace]
    rfl
  · rw [callReaders, callReaders, if_neg h, if_neg (by exact h)]

theorem reset_setPlace : (s.setPlace p .user).reset = s.reset.setPlace p .user := by
  by_cases h0 : s.fOffset = 0
  · rw [reset, reset, if_pos h0, if_pos (by exact h0)]
  · rw [reset, reset, if_neg h0, if_neg (by exact h0)]
    by_cases hw : s.iwrite
    · rw [if_pos hw, if_pos (by exact hw), ← wakeUpAll_setPlace]
      rfl
    · rw [if_neg hw, if_neg (by exact hw)]
      rfl

end State

/-! ### The invariant -/

/-- The counts are the numbers of descriptors and of open files, and whoever is in a call has a
descriptor for it. -/
structure Counted [Fintype ι] (s : State ι) : Prop where
  fCount_eq : ∀ e, s.fCount e = ∑ p, s.fds p e
  iCount_eq : s.iCount = (if s.fCount .read = 0 then 0 else 1) + if s.fCount .write = 0 then 0 else 1
  has : ∀ p e, (s.place p).side = some e → 0 < s.fds p e

/-- What holds of the file, and of the processes that are not inside. -/
structure Rest [Fintype ι] (s : State ι) : Prop where
  counted : Counted s
  /-- Whoever sleeps will be called: for the lock, -/
  wants : ∀ p c, s.place p = .wantsLock c → s.ilock = true ∧ s.iwant = true
  /-- by a writer, -/
  reader : ∀ p mCount, s.place p = .asleep (.read mCount) → s.iread = true
  /-- and by a reader. -/
  writer : ∀ p mem mBase count uError,
    s.place p = .asleep (.write mem mBase count uError) → s.iwrite = true
  full : s.iwrite = true → s.iSize = PIPSIZ
  size_le : s.iSize ≤ PIPSIZ
  offset_le : s.iCount ≠ 0 → s.fOffset ≤ s.iSize
  stream : s.iCount ≠ 0 → s.accepted = s.delivered ++ s.unread
  sound : s.delivered <+: s.accepted

namespace Counted

variable [Fintype ι] {s s' : State ι} {e : End} {p : ι}

theorem congr (h : Counted s) (hfCount : s'.fCount = s.fCount) (hfds : s'.fds = s.fds)
    (hiCount : s'.iCount = s.iCount)
    (hside : ∀ p e, (s'.place p).side = some e → 0 < s.fds p e) : Counted s' where
  fCount_eq e := by rw [hfCount, hfds]; exact h.fCount_eq e
  iCount_eq := by rw [hiCount, hfCount]; exact h.iCount_eq
  has p e hp := by rw [hfds]; exact hside p e hp

theorem fds_le (h : Counted s) (p : ι) (e : End) : s.fds p e ≤ s.fCount e := by
  rw [h.fCount_eq]
  exact Finset.single_le_sum (f := fun p => s.fds p e) (fun _ _ => Nat.zero_le _) (Finset.mem_univ p)

theorem iCount_ne (h : Counted s) (hfds : 0 < s.fds p e) : s.iCount ≠ 0 := by
  have hle := h.fds_le p e
  have heq := h.iCount_eq
  cases e
  · rw [if_neg (by omega)] at heq
    omega
  · rw [if_neg (c := s.fCount .write = 0) (by omega)] at heq
    omega

end Counted

/-- The file and what has gone through it are the same. -/
structure Same (s s' : State ι) : Prop where
  iSize_eq : s'.iSize = s.iSize
  bytes_eq : s'.bytes = s.bytes
  fOffset_eq : s'.fOffset = s.fOffset
  accepted_eq : s'.accepted = s.accepted
  delivered_eq : s'.delivered = s.delivered

theorem Same.prele (s : State ι) : Same s s.prele := by
  constructor <;> simp

namespace Rest

variable [Fintype ι] {s s' : State ι}

/-- Nothing happens to the file. -/
theorem frame (h : Rest s) (hsame : Same s s') (hcounted : Counted s')
    (hiCount : s'.iCount ≠ 0 → s.iCount ≠ 0) (hiwrite : s'.iwrite = true → s.iwrite = true)
    (hwants : ∀ p c, s'.place p = .wantsLock c → s'.ilock = true ∧ s'.iwant = true)
    (hreader : ∀ p mCount, s'.place p = .asleep (.read mCount) → s'.iread = true)
    (hwriter : ∀ p mem mBase count uError,
      s'.place p = .asleep (.write mem mBase count uError) → s'.iwrite = true) : Rest s' where
  counted := hcounted
  wants := hwants
  reader := hreader
  writer := hwriter
  full hw := by rw [hsame.iSize_eq]; exact h.full (hiwrite hw)
  size_le := by rw [hsame.iSize_eq]; exact h.size_le
  offset_le hc := by rw [hsame.iSize_eq, hsame.fOffset_eq]; exact h.offset_le (hiCount hc)
  stream hc := by
    rw [unread, hsame.accepted_eq, hsame.delivered_eq, hsame.bytes_eq, hsame.iSize_eq,
      hsame.fOffset_eq]
    exact h.stream (hiCount hc)
  sound := by rw [hsame.accepted_eq, hsame.delivered_eq]; exact h.sound

theorem wakeUpAll (h : Rest s) (chan : Chan) : Rest (s.wakeUpAll chan) := by
  refine h.frame ⟨rfl, rfl, rfl, rfl, rfl⟩ (h.counted.congr rfl rfl rfl ?_) id id ?_ ?_ ?_
  · intro p e hp
    exact h.counted.has p e ((Place.side_wake ..).symm.trans hp)
  · exact fun p c hp => h.wants p c (Place.wantsLock_of_wake hp)
  · exact fun p n hp => h.reader p n (Place.asleep_of_wake hp)
  · exact fun p mem b n e hp => h.writer p mem b n e (Place.asleep_of_wake hp)

theorem prele (h : Rest s) : Rest s.prele := by
  refine h.frame (Same.prele s) (h.counted.congr ?_ ?_ ?_ ?_) ?_ ?_ ?_ ?_ ?_
  · rw [prele_fCount]
  · rw [prele_fds]
  · rw [prele_iCount]
  · intro p e hp
    rw [side_prele] at hp
    exact h.counted.has p e hp
  · rw [prele_iCount]
    exact id
  · rw [prele_iwrite]
    exact id
  · -- nobody waits for the lock any more
    intro p c hp
    exfalso
    rw [prele_eq] at hp
    cases hwant : s.iwant
    · have hasked := (h.wants p c (by simpa [hwant] using hp)).2
      rw [hwant] at hasked
      exact Bool.false_ne_true hasked
    · exact Place.wake_lock_ne (by simpa [hwant] using hp)
  · intro p n hp
    rw [prele_iread]
    exact h.reader p n (asleep_of_prele hp)
  · intro p mem b n e hp
    rw [prele_iwrite]
    exact h.writer p mem b n e (asleep_of_prele hp)

/-- The readers are called and the bit is cleared. -/
theorem clearRead (h : Rest s) : Rest ({ s with iread := false }.wakeUpAll .readers) := by
  have hw := h.wakeUpAll .readers
  refine hw.frame ⟨rfl, rfl, rfl, rfl, rfl⟩ (hw.counted.congr rfl rfl rfl hw.counted.has) id id
    hw.wants ?_ hw.writer
  intro p n hp
  exact absurd hp Place.wake_readers_ne

theorem callReaders (h : Rest s) : Rest s.callReaders := by
  unfold State.callReaders
  split
  · exact h.clearRead
  · exact h

/-- The writers are called and the bit is cleared. -/
theorem clearWrite (h : Rest s) : Rest ({ s with iwrite := false }.wakeUpAll .writers) := by
  have hw := h.wakeUpAll .writers
  refine hw.frame ⟨rfl, rfl, rfl, rfl, rfl⟩ (hw.counted.congr rfl rfl rfl hw.counted.has) id
    (fun hf => absurd hf Bool.false_ne_true) hw.wants hw.reader ?_
  intro p mem b n e hp
  exact absurd hp Place.wake_writers_ne

/-- The file starts anew. -/
theorem restart (h : Rest s) (hfOffset : s.fOffset = s.iSize) (hiwrite : s.iwrite = false) :
    Rest { s with fOffset := 0, iSize := 0 } where
  counted := h.counted.congr rfl rfl rfl h.counted.has
  wants := h.wants
  reader := h.reader
  writer := h.writer
  full hw := absurd (hiwrite.symm.trans hw) Bool.false_ne_true
  size_le := Nat.zero_le _
  offset_le _ := Nat.le_refl _
  stream hc := by
    rw [unread, slice_self, h.stream hc, unread, hfOffset, slice_self]
  sound := h.sound

theorem reset (h : Rest s) (hfOffset : s.fOffset = s.iSize) : Rest s.reset := by
  unfold State.reset
  split
  · exact h
  · split
    · exact h.clearWrite.restart hfOffset rfl
    · next hw => exact h.restart hfOffset (Bool.not_eq_true _ ▸ hw)

end Rest

/-! ### Inside the inode -/

section Inside

variable [Fintype ι] [DecidableEq ι] {s s' : State ι} {p q : ι} {pl : Place}

/-- The process `p` has taken its place in the inode, or is about to leave it. -/
structure Alone (s : State ι) (p : ι) : Prop where
  rest : Rest (s.setPlace p .user)
  others : ∀ q, q ≠ p → (s.place q).inside = false

/-- The invariant. -/
structure Inv (s : State ι) : Prop where
  rest : Rest s
  /-- Who is inside has the lock, and has it alone. -/
  locked : ∀ p, (s.place p).inside = true → s.ilock = true
  alone : ∀ p q, (s.place p).inside = true → (s.place q).inside = true → q = p
  held : s.ilock = true → ∃ p, (s.place p).inside = true
  /-- When readers have gone to sleep, nothing comes in but by a writer that has the lock. -/
  empty : s.ilock = false → s.iread = true → s.iSize = 0 ∧ s.fOffset = 0
  reading : ∀ p mOffset mCount got, s.place p = .readI mOffset mCount got →
    s.iread = false ∧ s.fOffset ≤ mOffset ∧ mOffset ≤ s.iSize ∧
      got = slice s.bytes s.fOffset mOffset
  writing : ∀ p mem mBase mOffset mCount count uError,
    s.place p = .writeI mem mBase mOffset mCount count uError →
      mOffset = s.iSize ∧ mOffset + mCount ≤ PIPSIZ

/-- A process that is nowhere is put in a place. -/
theorem Rest.setPlace (h : Rest (s.setPlace p .user))
    (hside : ∀ e, pl.side = some e → 0 < s.fds p e)
    (hwants : ∀ c, pl = .wantsLock c → s.ilock = true ∧ s.iwant = true)
    (hreader : ∀ mCount, pl = .asleep (.read mCount) → s.iread = true)
    (hwriter : ∀ mem mBase count uError,
      pl = .asleep (.write mem mBase count uError) → s.iwrite = true) :
    Rest (s.setPlace p pl) := by
  have hother : ∀ q, q ≠ p → (s.setPlace p pl).place q = (s.setPlace p .user).place q := by
    intro q hq
    rw [setPlace_of_ne hq, setPlace_of_ne hq]
  refine h.frame ⟨rfl, rfl, rfl, rfl, rfl⟩ (h.counted.congr rfl rfl rfl ?_) id id ?_ ?_ ?_
  · intro q e hq
    by_cases hqp : q = p
    · subst hqp
      rw [setPlace_self] at hq
      exact hside e hq
    · rw [hother q hqp] at hq
      exact h.counted.has q e hq
  · intro q c hq
    by_cases hqp : q = p
    · subst hqp
      rw [setPlace_self] at hq
      exact hwants c hq
    · rw [hother q hqp] at hq
      exact h.wants q c hq
  · intro q n hq
    by_cases hqp : q = p
    · subst hqp
      rw [setPlace_self] at hq
      exact hreader n hq
    · rw [hother q hqp] at hq
      exact h.reader q n hq
  · intro q mem b n e hq
    by_cases hqp : q = p
    · subst hqp
      rw [setPlace_self] at hq
      exact hwriter mem b n e hq
    · rw [hother q hqp] at hq
      exact h.writer q mem b n e hq

/-- A process leaves for user mode. -/
theorem Rest.user (h : Rest s) (p : ι) : Rest (s.setPlace p .user) := by
  refine h.frame ⟨rfl, rfl, rfl, rfl, rfl⟩ (h.counted.congr rfl rfl rfl ?_) id id ?_ ?_ ?_
  all_goals intro q
  all_goals by_cases hqp : q = p
  all_goals first
    | (subst hqp; rw [setPlace_self]; intros; contradiction)
    | rw [setPlace_of_ne hqp]
  · exact h.counted.has q
  · exact h.wants q
  · exact h.reader q
  · exact h.writer q

namespace Alone

theorem prele (h : Alone s p) : Alone s.prele p := by
  constructor
  · rw [← prele_setPlace]
    exact h.rest.prele
  · intro q hq
    rw [inside_prele]
    exact h.others q hq

theorem callReaders (h : Alone s p) : Alone s.callReaders p := by
  constructor
  · rw [← callReaders_setPlace]
    exact h.rest.callReaders
  · intro q hq
    unfold State.callReaders
    split
    · exact (Place.inside_wake ..).trans (h.others q hq)
    · exact h.others q hq

theorem reset (h : Alone s p) (hfOffset : s.fOffset = s.iSize) : Alone s.reset p := by
  constructor
  · rw [← reset_setPlace]
    exact h.rest.reset hfOffset
  · intro q hq
    unfold State.reset
    split
    · exact h.others q hq
    · split
      · exact (Place.inside_wake ..).trans (h.others q hq)
      · exact h.others q hq

/-- The process leaves the inode and takes a place outside. -/
theorem leave (h : Alone s p) (hlock : s.ilock = false)
    (hempty : s.iread = true → s.iSize = 0 ∧ s.fOffset = 0) (hpl : pl.inside = false)
    (hside : ∀ e, pl.side = some e → 0 < s.fds p e) (hwants : ∀ c, pl ≠ .wantsLock c)
    (hreader : ∀ mCount, pl = .asleep (.read mCount) → s.iread = true)
    (hwriter : ∀ mem mBase count uError,
      pl = .asleep (.write mem mBase count uError) → s.iwrite = true) : Inv (s.setPlace p pl) := by
  have hout : ∀ q, ((s.setPlace p pl).place q).inside = false := by
    intro q
    by_cases hq : q = p
    · subst hq
      rwa [setPlace_self]
    · rw [setPlace_of_ne hq]
      exact h.others q hq
  have hno : ∀ q, ((s.setPlace p pl).place q).inside ≠ true := fun q => by simp [hout q]
  exact {
    rest := h.rest.setPlace hside (fun c hc => absurd hc (hwants c)) hreader hwriter
    locked := fun q hq => absurd hq (hno q)
    alone := fun q _ hq => absurd hq (hno q)
    held := fun hl => absurd (hlock.symm.trans hl) Bool.false_ne_true
    empty := fun _ => hempty
    reading := fun q off n got hq => absurd (by rw [hq]; rfl) (hno q)
    writing := fun q mem b off n c e hq => absurd (by rw [hq]; rfl) (hno q) }

/-- The process goes on inside. -/
theorem stay (h : Alone s p) (hlock : s.ilock = true) (hpl : pl.inside = true)
    (hside : ∀ e, pl.side = some e → 0 < s.fds p e)
    (hreading : ∀ mOffset mCount got, pl = .readI mOffset mCount got →
      s.iread = false ∧ s.fOffset ≤ mOffset ∧ mOffset ≤ s.iSize ∧
        got = slice s.bytes s.fOffset mOffset)
    (hwriting : ∀ mem mBase mOffset mCount count uError,
      pl = .writeI mem mBase mOffset mCount count uError →
        mOffset = s.iSize ∧ mOffset + mCount ≤ PIPSIZ) : Inv (s.setPlace p pl) := by
  have hin : ∀ q, ((s.setPlace p pl).place q).inside = true → q = p := by
    intro q hq
    by_contra hne
    rw [setPlace_of_ne hne, h.others q hne] at hq
    exact Bool.false_ne_true hq
  have hself : ∀ q pl', (s.setPlace p pl).place q = pl' → pl'.inside = true → pl = pl' := by
    rintro q pl' rfl hq
    rw [hin q hq, setPlace_self]
  refine ⟨h.rest.setPlace hside ?_ ?_ ?_, fun _ _ => hlock, ?_, fun _ => ⟨p, ?_⟩, ?_, ?_, ?_⟩
  · rintro c rfl
    exact absurd hpl Bool.false_ne_true
  · rintro n rfl
    exact absurd hpl Bool.false_ne_true
  · rintro mem b n e rfl
    exact absurd hpl Bool.false_ne_true
  · intro q r hq hr
    rw [hin q hq, hin r hr]
  · rwa [setPlace_self]
  · intro hf
    exact absurd (hf.symm.trans hlock) Bool.false_ne_true
  · exact fun q off n got hq => hreading off n got (hself q _ hq rfl)
  · exact fun q mem b off n c e hq => hwriting mem b off n c e (hself q _ hq rfl)

end Alone

namespace Inv

/-- Nobody is inside, and `p` takes the lock. -/
theorem enter (h : Inv s) (hlock : s.ilock = false) (p : ι) : Alone { s with ilock := true } p := by
  have hnobody : ∀ q, (s.place q).inside = false := by
    intro q
    by_contra hin
    rw [Bool.not_eq_false] at hin
    exact Bool.false_ne_true (hlock.symm.trans (h.locked q hin))
  refine ⟨?_, fun q _ => hnobody q⟩
  have hr := h.rest.user p
  refine hr.frame ⟨rfl, rfl, rfl, rfl, rfl⟩ (hr.counted.congr rfl rfl rfl hr.counted.has) id id
    ?_ hr.reader hr.writer
  intro q c hq
  exact ⟨rfl, (hr.wants q c hq).2⟩

/-- A process is inside. -/
theorem inside (h : Inv s) (hp : (s.place p).inside = true) : Alone s p := by
  refine ⟨h.rest.user p, fun q hq => ?_⟩
  by_contra hin
  exact hq (h.alone p q hp (Bool.not_eq_false _ ▸ hin))

end Inv

end Inside

/-! ### The steps of a read and of a write -/

section Steps

variable [Fintype ι] [DecidableEq ι] {s s' : State ι} {p q : ι} {pl : Place} {e : End}

omit [DecidableEq ι] in
/-- What does not touch those inside keeps the invariant. -/
theorem Inv.frame (h : Inv s) (hr : Rest s') (hsame : Same s s') (hlock : s'.ilock = s.ilock)
    (hiread : s'.iread = true → s.iread = true)
    (hplace : ∀ q, (s'.place q).inside = true → s'.place q = s.place q)
    (hinside : ∀ q, (s.place q).inside = true → (s'.place q).inside = true) : Inv s' where
  rest := hr
  locked q hq := by
    rw [hlock]
    rw [hplace q hq] at hq
    exact h.locked q hq
  alone q r hq hr := by
    rw [hplace q hq] at hq
    rw [hplace r hr] at hr
    exact h.alone q r hq hr
  held hl := by
    obtain ⟨q, hq⟩ := h.held (hlock ▸ hl)
    exact ⟨q, hinside q hq⟩
  empty hl hi := by
    rw [hsame.iSize_eq, hsame.fOffset_eq]
    exact h.empty (hlock ▸ hl) (hiread hi)
  reading q off n got hq := by
    rw [hplace q (by rw [hq]; rfl)] at hq
    obtain ⟨hread, hrest⟩ := h.reading q off n got hq
    rw [hsame.iSize_eq, hsame.fOffset_eq, hsame.bytes_eq]
    refine ⟨?_, hrest⟩
    by_contra hne
    rw [hiread (Bool.not_eq_false _ ▸ hne)] at hread
    exact Bool.false_ne_true hread.symm
  writing q mem b off n c e hq := by
    rw [hplace q (by rw [hq]; rfl)] at hq
    rw [hsame.iSize_eq]
    exact h.writing q mem b off n c e hq

/-- A process goes from one place outside to another. -/
theorem Inv.aside (h : Inv s) (hp : (s.place p).inside = false) (hpl : pl.inside = false)
    (hside : ∀ e, pl.side = some e → 0 < s.fds p e)
    (hwants : ∀ c, pl = .wantsLock c → s.ilock = true ∧ s.iwant = true)
    (hawake : ∀ c, pl ≠ .asleep c) : Inv (s.setPlace p pl) := by
  have hr : Rest (s.setPlace p pl) := (h.rest.user p).setPlace hside hwants
    (fun n hn => absurd hn (hawake _)) (fun mem b n e hn => absurd hn (hawake _))
  refine h.frame hr ⟨rfl, rfl, rfl, rfl, rfl⟩ rfl id ?_ ?_
  · intro q hq
    by_cases hqp : q = p
    · subst hqp
      rw [setPlace_self, hpl] at hq
      exact absurd hq Bool.false_ne_true
    · exact setPlace_of_ne hqp
  · intro q hq
    have hqp : q ≠ p := by
      rintro rfl
      exact Bool.false_ne_true (hp.symm.trans hq)
    rwa [setPlace_of_ne hqp]

omit [DecidableEq ι] in
theorem Inv.want (h : Inv s) : Inv { s with iwant := true } := by
  have hr := h.rest
  refine h.frame (hr.frame ⟨rfl, rfl, rfl, rfl, rfl⟩ (hr.counted.congr rfl rfl rfl hr.counted.has)
    id id ?_ hr.reader hr.writer) ⟨rfl, rfl, rfl, rfl, rfl⟩ rfl id
    (fun _ _ => rfl) fun _ => id
  exact fun q c hq => ⟨(hr.wants q c hq).1, rfl⟩

namespace Alone

/-- It notes that a reader will be asleep. -/
theorem markRead (h : Alone s p) : Alone { s with iread := true } p := by
  have hr := h.rest
  refine ⟨hr.frame ⟨rfl, rfl, rfl, rfl, rfl⟩ (hr.counted.congr rfl rfl rfl hr.counted.has) id id
    hr.wants (fun _ _ _ => rfl) hr.writer, h.others⟩

/-- It notes that a writer will be asleep. -/
theorem markWrite (h : Alone s p) (hfull : s.iSize = PIPSIZ) : Alone { s with iwrite := true } p := by
  have hr := h.rest
  refine ⟨{ hr with
    counted := hr.counted.congr rfl rfl rfl hr.counted.has
    writer := fun _ _ _ _ _ _ => rfl
    full := fun _ => hfull }, h.others⟩

/-- The bytes that it has read are taken out. -/
theorem deliver (h : Alone s p) {mOffset : ℕ} (hlow : s.fOffset ≤ mOffset)
    (hhigh : mOffset ≤ s.iSize) (hcount : s.iCount ≠ 0) :
    Alone { s with
      fOffset := mOffset
      delivered := s.delivered ++ slice s.bytes s.fOffset mOffset } p := by
  have hr := h.rest
  have hstream : s.accepted =
      (s.delivered ++ slice s.bytes s.fOffset mOffset) ++ slice s.bytes mOffset s.iSize := by
    rw [List.append_assoc, slice_append _ hlow hhigh]
    exact hr.stream hcount
  refine ⟨{ hr with
    counted := hr.counted.congr rfl rfl rfl hr.counted.has
    offset_le := fun _ => hhigh
    stream := fun _ => hstream
    sound := ⟨_, hstream.symm⟩ }, h.others⟩

/-- A block is taken from the writer. -/
theorem accept (h : Alone s p) (mem : ℕ → UInt8) (mBase : ℕ) {n : ℕ} (hn : 0 < n)
    (hroom : s.iSize + n ≤ PIPSIZ) :
    Alone { s with
      bytes := fun o => if s.iSize ≤ o ∧ o < s.iSize + n then mem (mBase + (o - s.iSize))
        else s.bytes o
      iSize := max s.iSize (s.iSize + n)
      accepted := s.accepted ++ slice mem mBase (mBase + n) } p := by
  have hr := h.rest
  have hmax : max s.iSize (s.iSize + n) = s.iSize + n := by omega
  refine ⟨{ hr with
    counted := hr.counted.congr rfl rfl rfl hr.counted.has
    full := fun hw => ?_
    size_le := ?_
    offset_le := fun hc => ?_
    stream := fun hc => ?_
    sound := ?_ }, h.others⟩
  · have hfull : s.iSize = PIPSIZ := hr.full hw
    omega
  · exact hmax.le.trans hroom
  · have hle : s.fOffset ≤ s.iSize := hr.offset_le hc
    exact le_trans hle (le_max_left ..)
  · have hle : s.fOffset ≤ s.iSize := hr.offset_le hc
    have hstream : s.accepted = s.delivered ++ slice s.bytes s.fOffset s.iSize := hr.stream hc
    change s.accepted ++ _ = s.delivered ++ slice _ s.fOffset (max s.iSize (s.iSize + n))
    rw [hmax, ← slice_append _ hle (Nat.le_add_right _ _), hstream, List.append_assoc]
    congr 2
    · exact slice_congr fun o _ ho => (if_neg (by omega)).symm
    · rw [← slice_shift mem s.iSize mBase n]
      exact slice_congr fun o hlo hhi => (if_pos ⟨hlo, hhi⟩).symm
  · exact hr.sound.trans (List.prefix_append ..)

end Alone

variable {mem : ℕ → UInt8} {mBase mOffset mCount count : ℕ} {uError : Bool} {got : List UInt8}

/-- `ReadP` with the lock. -/
theorem Inv.readP (h : Inv s) (hlock : s.ilock = false) (hfds : 0 < s.fds p .read) (n : ℕ) :
    Inv ({ s with ilock := true }.readP p n) := by
  have ha := h.enter hlock p
  have hside : ∀ {pl : Place}, pl.side = some .read →
      ∀ e, pl.side = some e → 0 < s.fds p e := by
    intro pl hpl e he
    cases hpl.symm.trans he
    exact hfds
  unfold State.readP
  split
  · next hoff =>
    have hempty := reset_empty (s := { s with ilock := true }) hoff
    have hout := (ha.reset hoff).prele
    dsimp only
    split
    · refine hout.leave (prele_ilock _) (fun _ => ?_) rfl nofun nofun nofun nofun
      rwa [prele_iSize, prele_fOffset]
    · refine hout.markRead.leave (prele_ilock _) (fun _ => ?_) rfl ?_ nofun (fun _ _ => rfl) nofun
      · change (State.prele _).iSize = 0 ∧ (State.prele _).fOffset = 0
        rwa [prele_iSize, prele_fOffset]
      · change ∀ e, some End.read = some e → 0 < (State.prele _).fds p e
        rw [prele_fds, reset_fds]
        exact @hside (.asleep (.read n)) rfl
  · next hoff =>
    refine ha.stay rfl rfl (hside rfl) ?_ nofun
    rintro off m got ⟨⟩
    have hle : s.fOffset ≤ s.iSize := h.rest.offset_le (h.rest.counted.iCount_ne hfds)
    refine ⟨?_, le_refl _, hle, (slice_self ..).symm⟩
    -- where there is something to read, no reader has gone to sleep since
    by_contra hread
    obtain ⟨hsize, hzero⟩ := h.empty hlock (Bool.not_eq_false _ ▸ hread)
    exact hoff (hzero.trans hsize.symm)

/-- `WriteP` with the lock. -/
theorem Inv.writeP (h : Inv s) (hlock : s.ilock = false) (hfds : 0 < s.fds p .write) :
    Inv ({ s with ilock := true }.writeP p mem mBase count uError) := by
  have ha := h.enter hlock p
  have hempty : ∀ t : State ι, t.iread = s.iread → t.iSize = s.iSize → t.fOffset = s.fOffset →
      t.iread = true → t.iSize = 0 ∧ t.fOffset = 0 := by
    intro t hi hsize hoff ht
    rw [hsize, hoff]
    exact h.empty hlock (hi ▸ ht)
  unfold State.writeP
  split
  · exact ha.prele.leave (prele_ilock _) (hempty _ (prele_iread _) (prele_iSize _) (prele_fOffset _)) rfl nofun
      nofun nofun nofun
  split
  · exact ha.prele.leave (prele_ilock _) (hempty _ (prele_iread _) (prele_iSize _) (prele_fOffset _)) rfl nofun
      nofun nofun nofun
  split
  · next hfull =>
    refine (ha.markWrite hfull).prele.leave (prele_ilock _)
      (hempty _ (prele_iread _) (prele_iSize _) (prele_fOffset _)) rfl ?_ nofun nofun ?_
    · rintro e ⟨⟩
      rwa [prele_fds]
    · rintro _ _ _ _ ⟨⟩
      rw [prele_iwrite]
  · refine ha.stay rfl rfl ?_ nofun ?_
    · rintro e ⟨⟩
      exact hfds
    · rintro _ _ _ _ _ _ ⟨⟩
      have hle := h.rest.size_le
      exact ⟨rfl, by dsimp only; omega⟩

/-- `Plock` and what follows. -/
theorem Inv.plock (h : Inv s) {c : Call} (hp : s.place p = .plock c) : Inv (s.plock p c) := by
  have hfds : 0 < s.fds p c.side := h.rest.counted.has p c.side (by rw [hp]; rfl)
  unfold State.plock
  split
  · next hlock =>
    refine h.want.aside (by rw [hp]; rfl) rfl ?_ (fun _ _ => ⟨hlock, rfl⟩) nofun
    rintro e ⟨⟩
    exact hfds
  · next hlock =>
    rw [Bool.not_eq_true] at hlock
    cases c with
    | read n => exact h.readP hlock hfds n
    | write mem b n e => exact h.writeP hlock hfds

/-- A turn of `ReadI`, and the end of `ReadP`. -/
theorem Inv.readI (h : Inv s) (hp : s.place p = .readI mOffset mCount got) :
    Inv (s.readI p mOffset mCount got) := by
  have hin : (s.place p).inside = true := by rw [hp]; rfl
  have hfds : 0 < s.fds p .read := h.rest.counted.has p .read (by rw [hp]; rfl)
  have ha := h.inside hin
  obtain ⟨hread, hlow, hhigh, hgot⟩ := h.reading p _ _ _ hp
  unfold State.readI
  split
  · have hout := (ha.deliver hlow hhigh (h.rest.counted.iCount_ne hfds)).prele
    rw [hgot]
    refine hout.leave (prele_ilock _) (fun hr => ?_) rfl nofun nofun nofun nofun
    rw [prele_iread] at hr
    exact absurd (hread.symm.trans hr) Bool.false_ne_true
  · next hmore =>
    refine ha.stay (h.locked p hin) rfl ?_ ?_ nofun
    · rintro e ⟨⟩
      exact hfds
    · rintro off n got' ⟨⟩
      refine ⟨hread, by omega, by omega, ?_⟩
      rw [hgot, slice_append _ hlow (Nat.le_add_right _ _)]

/-- A turn of `WriteI`, and the end of the round. -/
theorem Inv.writeI (h : Inv s) (hp : s.place p = .writeI mem mBase mOffset mCount count uError) :
    Inv (s.writeI p mem mBase mOffset mCount count uError) := by
  have hin : (s.place p).inside = true := by rw [hp]; rfl
  have hfds : 0 < s.fds p .write := h.rest.counted.has p .write (by rw [hp]; rfl)
  have ha := h.inside hin
  obtain ⟨rfl, hroom⟩ := h.writing p _ _ _ _ _ _ hp
  unfold State.writeI
  split
  · refine ha.prele.callReaders.leave ?_ (fun hr => ?_) rfl ?_ nofun nofun nofun
    · rw [callReaders_ilock, prele_ilock]
    · rw [callReaders_iread] at hr
      exact absurd hr Bool.false_ne_true
    · rintro e ⟨⟩
      rwa [callReaders_fds, prele_fds]
  · next hmore =>
    rw [not_or] at hmore
    refine (ha.accept mem mBase (n := min (512 - s.iSize % 512) mCount)
      (by omega) (by omega)).stay (h.locked p hin) rfl ?_ nofun ?_
    · rintro e ⟨⟩
      exact hfds
    · rintro _ _ _ _ _ _ ⟨⟩
      exact ⟨(max_eq_right (Nat.le_add_right _ _)).symm, by omega⟩

/-- `Bmap` fails in `WriteI`. -/
theorem Inv.noSpace (h : Inv s) (hp : s.place p = .writeI mem mBase mOffset mCount count uError) :
    Inv (s.setPlace p (.writeI mem mBase mOffset mCount count true)) := by
  have hin : (s.place p).inside = true := by rw [hp]; rfl
  refine (h.inside hin).stay (h.locked p hin) rfl ?_ nofun ?_
  · rintro e ⟨⟩
    exact h.rest.counted.has p .write (by rw [hp]; rfl)
  · rintro _ _ _ _ _ _ ⟨⟩
    exact h.writing p _ _ _ _ _ _ hp

end Steps

end Pipe
end UnixV6pp
