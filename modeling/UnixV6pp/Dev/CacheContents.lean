import UnixV6pp.Dev.ReadErrors

/-!
# What the buffers hold

The blocks of a disk are an array: a write leaves its contents there, and a read finds what was
written last.  The cache has to give this impression with a few buffers, some of which hold what
the disk does not have yet, and some of which are on their way to or from the disk.

* `Contents` — what is in the buffers and on the disk, with the array that they stand for.
* `Contents.next` — what a step of the cache does to it.
* `Formed`, `Fits` — what the flags and the keeper of a buffer say about it.
* `Kept` — **the invariant**, and `Kept.change`, by which one buffer changes.
-/

namespace UnixV6pp
namespace Cache

open Buf Flags

variable {ι π δ : Type}

/-- What is in the buffers and on the disk. -/
structure Contents (ι δ : Type) where
  data : ι → δ
  disk : Address → δ
  /-- The array: what was last given to `Bwrite`, `Bawrite` or `Bdwrite` for the block, or what was
  on the disk at first. -/
  latest : Address → δ
  /-- Its process has overwritten the buffer and not written it yet. -/
  changed : ι → Bool
  /-- The disk does not have the block, or a transfer of it has failed after all attempts. -/
  spoiled : Address → Bool

namespace Contents

variable [DecidableEq ι] (k : Contents ι δ) (s : Buffers ι π) (b : ι)

/-- The buffer is given to be written. -/
def give : Contents ι δ :=
  { k with
    latest := Function.update k.latest (s.buf b).address (k.data b)
    changed := Function.update k.changed b false }

/-- The disk has done what the request asked for. -/
def transfer : Contents ι δ :=
  let x := s.buf b
  if flag x.bFlags B_READ then { k with data := Function.update k.data b (k.disk x.address) }
  else { k with disk := Function.update k.disk x.address (k.data b) }

/-- The disk has given up, and has left something behind. -/
def fail (new : δ) : Contents ι δ :=
  let x := s.buf b
  let k := { k with spoiled := Function.update k.spoiled x.address true }
  if flag x.bFlags B_READ then { k with data := Function.update k.data b new }
  else { k with disk := Function.update k.disk x.address new }

/-- What an event does to the contents; `new` is what a process puts into a buffer. -/
def next (new : δ) : Buffers.Event ι π → Contents ι δ
  | .overwrite _ b =>
    { k with data := Function.update k.data b new, changed := Function.update k.changed b true }
  | .bdwrite _ b => k.give s b
  | .bwrite _ b => k.give s b
  | .bawrite _ b => k.give s b
  | .interrupt isError =>
    match s.queue with
    | [] => k
    | b :: _ =>
      if !isError then k.transfer s b
      else if s.dErrcnt + 1 ≤ 10 then k
      else k.fail s b new
  | _ => k

end Contents

/-- A step of the cache and of what is in it. -/
def Moves [DecidableEq ι] [DecidableEq π] [Fintype ι] (c : Buffers ι π × Contents ι δ)
    (l : Buffers.Event ι π × δ) (c' : Buffers ι π × Contents ι δ) : Prop :=
  c.1.Step l.1 c'.1 ∧ c'.2 = c.2.next c.1 l.2 l.1

/-- `DeviceManager::ROOTDEV`. -/
def ROOTDEV : ℤ := 0

/-- Blocks are asked for on the one disk, and what a process has overwritten it gives back by a
write. -/
def Regular (c : Buffers ι π × Contents ι δ) (l : Buffers.Event ι π × δ) : Prop :=
  match l.1 with
  | .bread _ a _ => a.bDev = ROOTDEV
  | .breada _ a _ _ => a.bDev = ROOTDEV
  | .getBlk _ a _ => a.bDev = ROOTDEV
  | .brelse _ b => c.2.changed b = false
  | _ => True

/-- The cache is empty, and the array is what is on the disk. -/
def bootContents (data : ι → δ) (disk : Address → δ) : Contents ι δ where
  data := data
  disk := disk
  latest := disk
  changed := fun _ => false
  spoiled := fun a => decide (Disk.NSECTOR ≤ a.bBlkno)

/-! ### One buffer -/

/-- What the flags of a buffer say about who has it. -/
structure Formed (x : Buffer π) (changed : Bool) : Prop where
  busy : flag x.bFlags B_BUSY = true ↔ x.keeper ≠ .free
  named : x.keeper ≠ .free ∨ flag x.bFlags B_DELWRI = true → x.address.bDev ≠ NODEV
  async : flag x.bFlags B_ASYNC = true → ∃ p, x.keeper = .device p
  waiting : (∃ p, x.keeper = .device p) → flag x.bFlags B_DONE = false
  changed : changed = true → ∃ p, x.keeper = .process p

/-- What they say about its contents, the block on the disk, and the one that is wanted. -/
structure Fits (x : Buffer π) (data onDisk want : δ) (changed : Bool) : Prop where
  delayed : flag x.bFlags B_DELWRI = true → flag x.bFlags B_DONE = true
  current : flag x.bFlags B_DONE = true → changed = false → data = want
  /-- Unless the buffer has to be written, or just is. -/
  clean : flag x.bFlags B_DELWRI = false →
    ((∃ p, x.keeper = .device p) → flag x.bFlags B_READ = true) → onDisk = want
  device : ∀ p, x.keeper = .device p → flag x.bFlags B_READ = false → data = want

/-- The buffer that a call is about. -/
def Call.buffer : Call ι → Option ι
  | .none => Option.none
  | .breada _ b _ => some b
  | .ioWait _ b => some b
  | .bwrite b => some b

/-- The process has the buffer, or the device has it and gives it back to the process. -/
def Owned (s : Buffers ι π) (p : π) (b : ι) : Prop :=
  (s.buf b).keeper = .process p ∨
    (s.buf b).keeper = .device p ∧ flag (s.buf b).bFlags B_ASYNC = false

/-- What is true of a process in a call. -/
structure CallOk (s : Buffers ι π) (k : Contents ι δ) (p : π) (call : Call ι) : Prop where
  owned : ∀ b, call.buffer = some b → Owned s p b ∧ k.changed b = false
  breada : ∀ a b r, call = .breada a b r → (s.buf b).address = a
  ioWait : ∀ a b, call = .ioWait a b → (s.buf b).address = a

/-- The invariant. -/
structure Kept (s : Buffers ι π) (k : Contents ι δ) : Prop where
  /-- A block is in one buffer at most. -/
  unique : ∀ b c, (s.buf b).address = (s.buf c).address → (s.buf b).address.bDev ≠ NODEV → b = c
  nodup : s.queue.Nodup
  queued : ∀ b, b ∈ s.queue ↔ ∃ p, (s.buf b).keeper = .device p
  formed : ∀ b, Formed (s.buf b) (k.changed b)
  /-- A block that is in no buffer is on the disk. -/
  absent : ∀ a, k.spoiled a = false → (∀ b, (s.buf b).address ≠ a) → k.disk a = k.latest a
  fits : ∀ b, k.spoiled (s.buf b).address = false →
    Fits (s.buf b) (k.data b) (k.disk (s.buf b).address) (k.latest (s.buf b).address) (k.changed b)
  missing : ∀ a, Disk.NSECTOR ≤ a.bBlkno → k.spoiled a = true
  calls : ∀ p, CallOk s k p (s.call p)

/-! ### One buffer at a time -/

namespace Keeper

variable {K : Keeper π} {p q : π}

theorem process_ne_free : Keeper.process p ≠ .free := by
  intro h
  cases h

theorem device_ne_free : Keeper.device p ≠ .free := by
  intro h
  cases h

theorem not_device_of_free (h : K = .free) (q : π) : K ≠ .device q := by
  rw [h]
  exact device_ne_free.symm

theorem not_device_of_process (h : K = .process p) (q : π) : K ≠ .device q := by
  rw [h]
  intro heq
  cases heq

end Keeper

section Buffer

variable {x : Buffer π} {p q : π} {d k w : δ} {ch : Bool}

theorem flag_released {m : UInt32} (hm : ~~~(B_WANTED ||| B_BUSY ||| B_ASYNC) &&& m = m) :
    flag (released x).bFlags m = flag x.bFlags m := flag_and_of_eq hm

/-- A buffer that is given back. -/
theorem Formed.released (hnamed : flag x.bFlags B_DELWRI = true → x.address.bDev ≠ NODEV) :
    Formed (Cache.released x) false where
  busy := by
    have hclear : flag (Cache.released x).bFlags B_BUSY = false := flag_and_of_zero (by decide)
    rw [hclear]
    exact ⟨fun h => absurd h Bool.false_ne_true, fun h => absurd rfl h⟩
  named h := by
    rw [flag_released (by decide)] at h
    exact hnamed (h.resolve_left fun hne => hne rfl)
  async h := by
    have hclear : flag (Cache.released x).bFlags B_ASYNC = false := flag_and_of_zero (by decide)
    exact absurd (hclear.symm.trans h) Bool.false_ne_true
  waiting := fun ⟨_, hp⟩ => absurd hp.symm Keeper.device_ne_free
  changed h := absurd h Bool.false_ne_true

/-- A buffer that a process has. -/
theorem Formed.of_process (hp : x.keeper = .process p) (hbusy : flag x.bFlags B_BUSY = true)
    (hnamed : x.address.bDev ≠ NODEV) (hasync : flag x.bFlags B_ASYNC = false) :
    Formed x false where
  busy := by
    rw [hp]
    exact ⟨fun _ => Keeper.process_ne_free, fun _ => hbusy⟩
  named _ := hnamed
  async h := absurd (hasync.symm.trans h) Bool.false_ne_true
  waiting := fun ⟨q, hq⟩ => absurd hq (Keeper.not_device_of_process hp q)
  changed h := absurd h Bool.false_ne_true

theorem Fits.released (h : Fits x d k w false) (hdevice : ∀ p, x.keeper ≠ .device p) :
    Fits (Cache.released x) d k w false where
  delayed hd := by
    rw [flag_released (by decide)] at hd ⊢
    exact h.delayed hd
  current hd := by
    rw [flag_released (by decide)] at hd
    exact h.current hd
  clean hd _ := by
    rw [flag_released (by decide)] at hd
    exact h.clean hd fun ⟨p, hp⟩ => absurd hp (hdevice p)
  device _ hp := absurd hp.symm Keeper.device_ne_free

theorem address_finished : (finished x p).address = x.address := by
  unfold finished
  split <;> rfl

theorem finished_keeper : (finished x p).keeper = .free ∨ (finished x p).keeper = .process p := by
  unfold finished
  split
  · exact .inl rfl
  · exact .inr rfl

theorem finished_not_device : (finished x p).keeper ≠ .device q := by
  rcases finished_keeper (x := x) (p := p) with h | h
  · exact Keeper.not_device_of_free h q
  · exact Keeper.not_device_of_process h q

theorem finished_of_sync (h : flag x.bFlags B_ASYNC = false) :
    (finished x p).keeper = .process p := by
  unfold finished
  rw [if_neg]
  rw [flag_or, h]
  decide

theorem finished_done : flag (finished x p).bFlags B_DONE = true := by
  unfold finished
  split
  · rw [flag_released (by decide)]
    exact flag_or_right (by decide)
  · dsimp only
    rw [flag_and_of_eq (by decide)]
    exact flag_or_right (by decide)

/-- A buffer whose transfer is over. -/
theorem Formed.finished (hbusy : flag x.bFlags B_BUSY = true) (hnamed : x.address.bDev ≠ NODEV) :
    Formed (Cache.finished x p) false := by
  unfold Cache.finished
  split
  · exact Formed.released fun _ => hnamed
  · next hasync =>
    refine Formed.of_process rfl ?_ hnamed ?_
    · dsimp only
      rw [flag_and_of_eq (by decide)]
      exact flag_or_left hbusy
    · dsimp only
      rw [flag_and_of_eq (by decide)]
      simpa using hasync

/-- The transfer has made the buffer, the disk and the array one. -/
theorem Fits.finished : Fits (Cache.finished x p) w w w ch where
  delayed _ := finished_done
  current _ _ := rfl
  clean _ _ := rfl
  device _ hq := absurd hq finished_not_device

end Buffer

/-! ### The invariant under a change of one buffer -/

section Change

variable {s s' : Buffers ι π} {k k' : Contents ι δ} {b c : ι} {p q : π} {a : Address}

theorem Owned.kept (h : Owned s p b) : ∃ K, (s.buf b).keeper = K ∧ K ≠ .free := by
  rcases h with h | ⟨h, -⟩
  · exact ⟨_, h, Keeper.process_ne_free⟩
  · exact ⟨_, h, Keeper.device_ne_free⟩

theorem kept_of_process (hp : (s.buf b).keeper = .process p) : (s.buf b).keeper ≠ .free := by
  rw [hp]
  exact Keeper.process_ne_free

theorem kept_of_device (hp : (s.buf b).keeper = .device p) : (s.buf b).keeper ≠ .free := by
  rw [hp]
  exact Keeper.device_ne_free

namespace Kept

theorem free_of_not_busy (h : Kept s k) (hbusy : flag (s.buf b).bFlags B_BUSY = false) :
    (s.buf b).keeper = .free := by
  by_contra hne
  exact absurd (hbusy.symm.trans ((h.formed b).busy.2 hne)) Bool.false_ne_true

theorem unchanged_of_free (h : Kept s k) (hfree : (s.buf b).keeper = .free) :
    k.changed b = false := by
  by_contra hne
  obtain ⟨p, hp⟩ := (h.formed b).changed (Bool.not_eq_false _ ▸ hne)
  exact Keeper.process_ne_free (hp.symm.trans hfree)

/-- No call is about a buffer that is free. -/
theorem not_in_call (h : Kept s k) (hfree : (s.buf b).keeper = .free) (q : π) :
    (s.call q).buffer ≠ some b := by
  intro hq
  obtain ⟨K, hK, hne⟩ := ((h.calls q).owned b hq).1.kept
  exact hne (hK.symm.trans hfree)

/-- No other process is in a call about a buffer that a process has. -/
theorem not_in_other (h : Kept s k) (hp : (s.buf b).keeper = .process p)
    (hcall : s.call p = .none) (q : π) : (s.call q).buffer ≠ some b := by
  intro hq
  rcases ((h.calls q).owned b hq).1 with hown | ⟨hown, -⟩
  · cases hp.symm.trans hown
    rw [hcall] at hq
    cases hq
  · exact Keeper.not_device_of_process hp q hown

theorem not_mem_queue (h : Kept s k) (hb : ∀ p, (s.buf b).keeper ≠ .device p) : b ∉ s.queue := by
  intro hmem
  obtain ⟨p, hp⟩ := (h.queued b).1 hmem
  exact hb p hp

/-- One buffer changes, and its block. -/
theorem change (h : Kept s k) (hbuf : ∀ c, c ≠ b → s'.buf c = s.buf c)
    (haddr : (s'.buf b).address = (s.buf b).address)
    (hdata : ∀ c, c ≠ b → k'.data c = k.data c ∧ k'.changed c = k.changed c)
    (hblock : ∀ a, a ≠ (s.buf b).address ∨ a.bDev = NODEV →
      k'.disk a = k.disk a ∧ k'.latest a = k.latest a ∧ k'.spoiled a = k.spoiled a)
    (hspoiled : ∀ a, k.spoiled a = true → k'.spoiled a = true)
    (hnodup : s'.queue.Nodup) (hqueue : ∀ c, c ∈ s'.queue ↔ ∃ p, (s'.buf c).keeper = .device p)
    (hformed : Formed (s'.buf b) (k'.changed b))
    (hfits : k'.spoiled (s.buf b).address = false → Fits (s'.buf b) (k'.data b)
      (k'.disk (s.buf b).address) (k'.latest (s.buf b).address) (k'.changed b))
    (hcall : s'.call = s.call)
    (hown : ∀ q, (s.call q).buffer = some b → Owned s' q b ∧ k'.changed b = false) :
    Kept s' k' := by
  have haddrs : ∀ c, (s'.buf c).address = (s.buf c).address := by
    intro c
    by_cases hc : c = b
    · rw [hc, haddr]
    · rw [hbuf c hc]
  refine ⟨?_, hnodup, hqueue, ?_, ?_, ?_, ?_, ?_⟩
  · intro c c' heq hdev
    rw [haddrs, haddrs] at heq
    rw [haddrs] at hdev
    exact h.unique c c' heq hdev
  · intro c
    by_cases hc : c = b
    · rw [hc]
      exact hformed
    · rw [hbuf c hc, (hdata c hc).2]
      exact h.formed c
  · intro a hs hno
    have hne : a ≠ (s.buf b).address := fun heq => hno b ((haddrs b).trans heq.symm)
    obtain ⟨hdisk, hlatest, hsp⟩ := hblock a (.inl hne)
    rw [hdisk, hlatest]
    exact h.absent a (hsp ▸ hs) fun c hc => hno c ((haddrs c).trans hc)
  · intro c hs
    rw [haddrs] at hs ⊢
    by_cases hc : c = b
    · subst hc
      exact hfits hs
    · have hother : (s.buf c).address ≠ (s.buf b).address ∨ (s.buf c).address.bDev = NODEV := by
        by_contra hnot
        rw [not_or, not_not] at hnot
        exact hc (h.unique c b hnot.1 hnot.2)
      obtain ⟨hdisk, hlatest, hsp⟩ := hblock _ hother
      rw [hbuf c hc, (hdata c hc).1, (hdata c hc).2, hdisk, hlatest]
      exact h.fits c (hsp ▸ hs)
  · exact fun a ha => hspoiled a (h.missing a ha)
  · intro q
    rw [hcall]
    have hq := h.calls q
    refine ⟨fun c hc => ?_, fun a c r hc => (haddrs c).trans (hq.breada a c r hc),
      fun a c hc => (haddrs c).trans (hq.ioWait a c hc)⟩
    by_cases hcb : c = b
    · subst hcb
      exact hown q hc
    · unfold Owned
      rw [hbuf c hcb, (hdata c hcb).2]
      exact hq.owned c hc

/-- What a call says does not depend on anything else of the process. -/
theorem other (h : Kept s k) (hbuf : s'.buf = s.buf) (hqueue : s'.queue = s.queue)
    (hcall : ∀ q, CallOk s k q (s'.call q)) : Kept s' k where
  unique := by rw [hbuf]; exact h.unique
  nodup := by rw [hqueue]; exact h.nodup
  queued := by rw [hbuf, hqueue]; exact h.queued
  formed := by rw [hbuf]; exact h.formed
  absent := by rw [hbuf]; exact h.absent
  fits := by rw [hbuf]; exact h.fits
  missing := h.missing
  calls q := by
    have hq := hcall q
    refine ⟨fun c hc => ?_, fun a c r hc => ?_, fun a c hc => ?_⟩
    · unfold Owned
      rw [hbuf]
      exact hq.owned c hc
    · rw [hbuf]
      exact hq.breada a c r hc
    · rw [hbuf]
      exact hq.ioWait a c hc

theorem setCall [DecidableEq π] (h : Kept s k) {call : Call ι} (hok : CallOk s k p call) :
    Kept (s.setCall p call) k := by
  refine h.other rfl rfl fun q => ?_
  by_cases hq : q = p
  · subst hq
    rw [show (s.setCall q call).call q = call from Function.update_self ..]
    exact hok
  · rw [show (s.setCall p call).call q = s.call q from Function.update_of_ne hq ..]
    exact h.calls q

theorem getError [DecidableEq π] (h : Kept s k) : Kept (s.getError b p) k := by
  unfold Buffers.getError
  split
  · exact h.other rfl rfl h.calls
  · exact h

end Kept

/-- No call. -/
theorem CallOk.none : CallOk s k p .none where
  owned _ h := by cases h
  breada _ _ _ h := by cases h
  ioWait _ _ h := by cases h

theorem CallOk.of_bwrite (hown : Owned s p b) (hch : k.changed b = false) :
    CallOk s k p (.bwrite b) where
  owned c hc := by
    cases hc
    exact ⟨hown, hch⟩
  breada _ _ _ h := by cases h
  ioWait _ _ h := by cases h

theorem CallOk.of_ioWait (hown : Owned s p b) (hch : k.changed b = false)
    (haddr : (s.buf b).address = a) : CallOk s k p (.ioWait a b) where
  owned c hc := by
    cases hc
    exact ⟨hown, hch⟩
  breada _ _ _ h := by cases h
  ioWait _ _ h := by
    cases h
    exact haddr

theorem CallOk.of_breada {r : ℤ} (hown : Owned s p b) (hch : k.changed b = false)
    (haddr : (s.buf b).address = a) : CallOk s k p (.breada a b r) where
  owned c hc := by
    cases hc
    exact ⟨hown, hch⟩
  breada _ _ _ h := by
    cases h
    exact haddr
  ioWait _ _ h := by cases h

/-- After the block itself `Breada` waits like `Bread`. -/
theorem CallOk.ioWait_of_breada {r : ℤ} (h : CallOk s k p (.breada a b r)) :
    CallOk s k p (.ioWait a b) :=
  have hb := h.owned b rfl
  of_ioWait hb.1 hb.2 (h.breada a b r rfl)

end Change

end Cache
end UnixV6pp
