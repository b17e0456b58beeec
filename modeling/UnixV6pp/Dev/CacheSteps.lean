import UnixV6pp.Dev.CacheContents

/-!
# The steps of the cache and its contents

Each step is put together from a few parts: a buffer is taken, given back, or sent to the disk, and
the disk is done with one.

* `Kept.set`, `Kept.strategy` — a buffer changes, without and with the disk.
* `Kept.getBlk`, `Kept.brelse`, `Kept.request`, `Kept.bwrite`, `Kept.interrupt` — the parts.
* `Kept.step` — **every step keeps the invariant.**
-/

namespace UnixV6pp
namespace Cache

open Buf Flags

variable {ι π δ : Type}

/-! ### The parts of the calls -/

section Parts

variable [DecidableEq ι] {s s' : Buffers ι π} {k k' : Contents ι δ} {b c : ι} {p q : π}
  {a : Address} {x : Buffer π}

theorem mem_queue_set (h : Kept s k) (hdevice : (∃ p, x.keeper = .device p) ↔ b ∈ s.queue) (c : ι) :
    c ∈ (s.set b x).queue ↔ ∃ p, ((s.set b x).buf c).keeper = .device p := by
  by_cases hc : c = b
  · subst hc
    rw [set_self]
    exact hdevice.symm
  · rw [set_of_ne s x hc]
    exact h.queued c

/-- One buffer changes, and nothing is asked from the disk. -/
theorem Kept.set (h : Kept s k) (haddr : x.address = (s.buf b).address)
    (hold : ∀ p, (s.buf b).keeper ≠ .device p) (hnew : ∀ p, x.keeper ≠ .device p)
    (hcall : ∀ q, (s.call q).buffer ≠ some b)
    (hdata : ∀ c, c ≠ b → k'.data c = k.data c ∧ k'.changed c = k.changed c)
    (hblock : ∀ a, a ≠ (s.buf b).address ∨ a.bDev = NODEV →
      k'.disk a = k.disk a ∧ k'.latest a = k.latest a ∧ k'.spoiled a = k.spoiled a)
    (hspoiled : ∀ a, k.spoiled a = true → k'.spoiled a = true)
    (hformed : Formed x (k'.changed b))
    (hfits : k'.spoiled (s.buf b).address = false → Fits x (k'.data b)
      (k'.disk (s.buf b).address) (k'.latest (s.buf b).address) (k'.changed b)) :
    Kept (s.set b x) k' := by
  refine h.change (fun c hc => set_of_ne s x hc) ?_ hdata hblock hspoiled h.nodup
    (mem_queue_set h ⟨fun ⟨p, hp⟩ => absurd hp (hnew p), fun hm => ?_⟩) ?_ (fun hs => ?_) rfl
    fun q hq => absurd hq (hcall q)
  · rw [set_self]
    exact haddr
  · obtain ⟨p, hp⟩ := (h.queued b).1 hm
    exact absurd hp (hold p)
  · rw [set_self]
    exact hformed
  · rw [set_self]
    exact hfits hs

/-- A buffer is given back. -/
theorem Kept.brelse (h : Kept s k) (hp : (s.buf b).keeper = .process p) (hch : k.changed b = false)
    (hcall : ∀ q, (s.call q).buffer ≠ some b) : Kept (s.brelse b) k := by
  have hdevice : ∀ q, (s.buf b).keeper ≠ .device q :=
    Keeper.not_device_of_process hp
  rw [brelse_eq]
  refine h.set rfl hdevice (Keeper.not_device_of_free rfl) hcall (fun _ _ => ⟨rfl, rfl⟩)
    (fun _ _ => ⟨rfl, rfl, rfl⟩)
    (fun _ => id) ?_ fun hs => ?_
  · rw [hch]
    exact Formed.released fun hd => (h.formed b).named (.inr hd)
  · have hfits := h.fits b hs
    rw [hch] at hfits ⊢
    exact hfits.released hdevice

/-- A request for the buffer `b`, whose flags are right, is queued, or it is refused. -/
theorem Kept.strategy (h : Kept s k) (haddr : x.address = (s.buf b).address)
    (hold : ∀ q, (s.buf b).keeper ≠ .device q) (hcall : ∀ q, (s.call q).buffer ≠ some b)
    (hbusy : flag x.bFlags B_BUSY = true) (hdone : flag x.bFlags B_DONE = false)
    (hnamed : x.address.bDev ≠ NODEV)
    (hdata : ∀ c, c ≠ b → k'.data c = k.data c ∧ k'.changed c = k.changed c)
    (hblock : ∀ a, a ≠ (s.buf b).address ∨ a.bDev = NODEV →
      k'.disk a = k.disk a ∧ k'.latest a = k.latest a ∧ k'.spoiled a = k.spoiled a)
    (hspoiled : k'.spoiled = k.spoiled) (hch : k'.changed b = false)
    (hfits : k.spoiled (s.buf b).address = false →
      flag x.bFlags B_DELWRI = false ∧
        (flag x.bFlags B_READ = false → k'.data b = k'.latest (s.buf b).address) ∧
        (flag x.bFlags B_READ = true → k'.disk (s.buf b).address = k'.latest (s.buf b).address))
    (p : π) : Kept ((s.set b x).strategy b p) k' := by
  have hnot := h.not_mem_queue hold
  unfold Buffers.strategy
  rw [set_self]
  split
  · next hmissing =>
    -- the disk does not have the block
    rw [ioDone_eq, Buffers.setFlags, set_self, set_set, set_self, set_set]
    have hsp := h.missing x.address hmissing
    refine h.set (address_finished.trans haddr) hold (fun _ => finished_not_device) hcall hdata hblock
      (fun a ha => hspoiled ▸ ha) ?_ fun hs => ?_
    · rw [hch]
      exact Formed.finished (flag_or_left hbusy) hnamed
    · rw [hspoiled, ← haddr, hsp] at hs
      cases hs
  · rw [set_set]
    refine h.change (fun c hc => set_of_ne _ _ hc) (by rw [set_self]; exact haddr) hdata hblock
      (fun a ha => hspoiled ▸ ha) ?_ (fun c => ?_) ?_ (fun hs => ?_) rfl
      fun q hq => absurd hq (hcall q)
    · exact List.nodup_append.mpr ⟨h.nodup, List.nodup_singleton b, fun c hc d hd heq => by
        rw [List.mem_singleton.mp hd] at heq
        exact hnot (heq ▸ hc)⟩
    · dsimp only
      rw [List.mem_append, List.mem_singleton]
      by_cases hc : c = b
      · subst hc
        rw [set_self]
        exact ⟨fun _ => ⟨p, rfl⟩, fun _ => .inr rfl⟩
      · rw [set_of_ne _ _ hc]
        exact ⟨fun hm => (h.queued c).1 (hm.resolve_right hc), fun hd => .inl ((h.queued c).2 hd)⟩
    · dsimp only
      rw [set_self, hch]
      exact ⟨⟨fun _ => Keeper.device_ne_free, fun _ => hbusy⟩, fun _ => hnamed, fun _ => ⟨p, rfl⟩,
        fun _ => hdone, fun h => absurd h Bool.false_ne_true⟩
    · rw [hspoiled] at hs
      obtain ⟨hdelwri, hwrite, hread⟩ := hfits hs
      dsimp only
      rw [set_self]
      refine ⟨fun hd => absurd (hdelwri.symm.trans hd) Bool.false_ne_true,
        fun hd => absurd (hdone.symm.trans hd) Bool.false_ne_true,
        fun _ hr => hread (hr ⟨p, rfl⟩), fun _ _ => hwrite⟩

/-- A request that is waited for leaves the buffer to the process. -/
theorem owned_strategy (hasync : flag x.bFlags B_ASYNC = false) :
    Owned ((s.set b x).strategy b p) p b ∧
      (((s.set b x).strategy b p).buf b).address = x.address := by
  unfold Buffers.strategy Owned
  rw [set_self]
  split
  · rw [ioDone_eq, Buffers.setFlags, set_self, set_self, set_self]
    refine ⟨.inl (finished_of_sync ?_), address_finished⟩
    rw [flag_or, hasync]
    rfl
  · rw [set_set]
    dsimp only
    rw [set_self]
    exact ⟨.inr ⟨rfl, hasync⟩, rfl⟩

theorem call_strategy : (s.strategy b p).call = s.call := by
  unfold Buffers.strategy
  split
  · rw [ioDone_eq]
    rfl
  · rfl

theorem returned_strategy : (s.strategy b p).returned = s.returned := by
  unfold Buffers.strategy
  split
  · rw [ioDone_eq]
    rfl
  · rfl

/-- The disk is asked for the block of a buffer that a process has just got. -/
theorem Kept.request (h : Kept s k) (hp : (s.buf b).keeper = .process p)
    (hcall : ∀ q, (s.call q).buffer ≠ some b) (hch : k.changed b = false)
    (hdone : flag (s.buf b).bFlags B_DONE = false) {m : UInt32} (hm : flag m B_DONE = false)
    (hread : flag m B_READ = true) (hdelwri : flag m B_DELWRI = false) :
    Kept (s.request b p m) k := by
  have hold : ∀ q, (s.buf b).keeper ≠ .device q :=
    Keeper.not_device_of_process hp
  have hne := kept_of_process hp
  have hbusy := (h.formed b).busy.2 hne
  unfold Buffers.request
  refine h.strategy (x := { s.buf b with bFlags := (s.buf b).bFlags ||| m, valid := false })
    rfl hold hcall (flag_or_left hbusy) (by dsimp only; rw [flag_or, hdone, hm]; rfl)
    ((h.formed b).named (.inl hne))
    (fun _ _ => ⟨rfl, rfl⟩) (fun _ _ => ⟨rfl, rfl, rfl⟩) rfl hch (fun hs => ?_) p
  have hfits := h.fits b hs
  have hclean : flag (s.buf b).bFlags B_DELWRI = false := by
    by_contra hd
    exact absurd (hdone.symm.trans (hfits.delayed (Bool.not_eq_false _ ▸ hd))) Bool.false_ne_true
  refine ⟨by rw [flag_or, hclean, hdelwri]; rfl, fun hr => ?_,
    fun _ => hfits.clean hclean fun ⟨q, hq⟩ => absurd hq (hold q)⟩
  rw [flag_or, hread, Bool.or_true] at hr
  cases hr

theorem owned_request {m : UInt32} (hasync : flag (s.buf b).bFlags B_ASYNC = false)
    (hm : flag m B_ASYNC = false) :
    Owned (s.request b p m) p b ∧ ((s.request b p m).buf b).address = (s.buf b).address := by
  unfold Buffers.request
  exact owned_strategy (by dsimp only; rw [flag_or, hasync, hm]; rfl)

omit [DecidableEq ι] in
theorem Kept.sync (h : Kept s k) (hp : (s.buf b).keeper = .process p) :
    flag (s.buf b).bFlags B_ASYNC = false := by
  by_contra ha
  obtain ⟨q, hq⟩ := (h.formed b).async (Bool.not_eq_false _ ▸ ha)
  exact Keeper.not_device_of_process hp q hq

/-- What `GetBlk` looks at before it takes a buffer of another block. -/
theorem getBlk_other [DecidableEq π] [Fintype ι] (h : s.getBlk p a b = some s')
    (hne : (s.buf b).address ≠ a) :
    (∀ c, (s.buf c).address ≠ a) ∧ flag (s.buf b).bFlags B_DELWRI = false := by
  unfold Buffers.getBlk at h
  dsimp only at h
  split at h
  · cases h
  · split at h
    · cases h
    · next hno =>
      rw [Bool.or_eq_true, not_or] at hno
      refine ⟨fun c hc => hno.1 ?_, by simpa using hno.2⟩
      unfold Buffers.inCore
      exact decide_eq_true ⟨c, hc⟩

/-- `GetBlk` gives the buffer of the block to the process. -/
theorem Kept.getBlk [DecidableEq π] [Fintype ι] (h : Kept s k) (hdev : a.bDev ≠ NODEV)
    (hget : s.getBlk p a b = some s') :
    Kept s' k ∧ (s.buf b).keeper = .free ∧ (s'.buf b).keeper = .process p ∧
      (s'.buf b).address = a ∧ s'.call = s.call ∧ s'.returned = s.returned := by
  obtain ⟨hbusy, hcases⟩ := getBlk_cases hget
  have hfree := h.free_of_not_busy hbusy
  have hch := h.unchanged_of_free hfree
  have hold : ∀ q, (s.buf b).keeper ≠ .device q :=
    Keeper.not_device_of_free hfree
  have hcall := h.not_in_call hfree
  rcases hcases with ⟨ha, rfl⟩ | ⟨hne, rfl⟩
  · have hor {m : UInt32} (hm : flag B_BUSY m = false) :
        flag ((s.buf b).bFlags ||| B_BUSY) m = flag (s.buf b).bFlags m := by
      rw [flag_or, hm, Bool.or_false]
    refine ⟨h.set rfl hold (Keeper.not_device_of_process rfl) hcall (fun _ _ => ⟨rfl, rfl⟩)
      (fun _ _ => ⟨rfl, rfl, rfl⟩)
      (fun _ => id) ?_ fun hs => ?_, hfree, by rw [set_self], by rw [set_self]; exact ha, rfl, rfl⟩
    · rw [hch]
      refine Formed.of_process rfl (flag_or_right (by decide)) (ha ▸ hdev) ?_
      dsimp only
      rw [hor (by decide)]
      by_contra hasync
      obtain ⟨q, hq⟩ := (h.formed b).async (Bool.not_eq_false _ ▸ hasync)
      exact absurd hq (hold q)
    · have hfits := h.fits b hs
      refine ⟨fun hd => ?_, fun hd => ?_, fun hd _ => ?_,
        fun q hq => absurd hq (Keeper.not_device_of_process rfl q)⟩
      · dsimp only at hd ⊢
        rw [hor (by decide)] at hd ⊢
        exact hfits.delayed hd
      · dsimp only at hd
        rw [hor (by decide)] at hd
        exact hfits.current hd
      · dsimp only at hd
        rw [hor (by decide)] at hd
        exact hfits.clean hd fun ⟨q, hq⟩ => absurd hq (hold q)
  · -- the buffer had another block, which is on the disk
    obtain ⟨hno, hclean⟩ := getBlk_other hget hne
    refine ⟨?_, hfree, by rw [set_self], by rw [set_self], rfl, rfl⟩
    have haddr : ∀ c, c ≠ b → ((s.set b ⟨B_BUSY, a, .process p, false⟩).buf c).address =
        (s.buf c).address := fun c hc => by rw [set_of_ne _ _ hc]
    refine {
      unique := ?_
      nodup := h.nodup
      queued := mem_queue_set h 
        ⟨fun ⟨q, hq⟩ => absurd hq (Keeper.not_device_of_process rfl q), fun hm => ?_⟩
      formed := fun c => ?_
      absent := fun a' hs hout => ?_
      fits := fun c hs => ?_
      missing := h.missing
      calls := fun q => ?_ }
    · intro c c' heq hd
      by_cases hc : c = b
      · by_cases hc' : c' = b
        · rw [hc, hc']
        · rw [hc, set_self, haddr c' hc'] at heq
          exact absurd heq.symm (hno c')
      · by_cases hc' : c' = b
        · rw [hc', set_self, haddr c hc] at heq
          exact absurd heq (hno c)
        · rw [haddr c hc, haddr c' hc'] at heq
          rw [haddr c hc] at hd
          exact h.unique c c' heq hd
    · obtain ⟨q, hq⟩ := (h.queued b).1 hm
      exact absurd hq (hold q)
    · by_cases hc : c = b
      · subst hc
        rw [set_self, hch]
        exact Formed.of_process rfl (by decide : flag B_BUSY B_BUSY = true) hdev
          (by decide : flag B_BUSY B_ASYNC = false)
      · rw [set_of_ne _ _ hc]
        exact h.formed c
    · by_cases ha : a' = (s.buf b).address
      · rw [ha] at hs ⊢
        exact (h.fits b hs).clean hclean fun ⟨q, hq⟩ => absurd hq (hold q)
      · refine h.absent a' hs fun c hc => ?_
        by_cases hcb : c = b
        · exact ha (hcb ▸ hc.symm)
        · exact hout c ((haddr c hcb).trans hc)
    · by_cases hc : c = b
      · subst hc
        rw [set_self] at hs ⊢
        rw [hch]
        exact ⟨fun hd => absurd hd (by decide : ¬ flag B_BUSY B_DELWRI = true),
          fun hd => absurd hd (by decide : ¬ flag B_BUSY B_DONE = true),
          fun _ _ => h.absent a hs hno, fun q hq => absurd hq (Keeper.not_device_of_process rfl q)⟩
      · rw [set_of_ne _ _ hc] at hs ⊢
        exact h.fits c hs
    · have hq := h.calls q
      have hnot : ∀ c, (s.call q).buffer = some c → c ≠ b := by
        rintro c hc rfl
        exact hcall q hc
      refine ⟨fun c hc => ?_, fun a' c r hc => ?_, fun a' c hc => ?_⟩
      · unfold Owned
        rw [set_of_ne _ _ (hnot c hc)]
        exact hq.owned c hc
      · change s.call q = _ at hc
        rw [set_of_ne _ _ (hnot c (by rw [hc]; rfl))]
        exact hq.breada a' c r hc
      · change s.call q = _ at hc
        rw [set_of_ne _ _ (hnot c (by rw [hc]; rfl))]
        exact hq.ioWait a' c hc

end Parts

/-! ### The ends of the calls, writes, and interrupts -/

section Ends

variable [DecidableEq ι] [DecidableEq π] {s s' : Buffers ι π} {k k' : Contents ι δ} {b c : ι}
  {p q : π} {a : Address} {f : UInt32}

omit [DecidableEq ι] in
theorem Kept.giveBuffer (h : Kept s k) {reported : Bool} : Kept (s.giveBuffer p a b reported) k :=
  (h.setCall .none).other rfl rfl (h.setCall .none).calls

/-- A buffer that nobody waits for is written, with these flags at first. -/
theorem Kept.bwrite (h : Kept s k) (hold : ∀ q, (s.buf b).keeper ≠ .device q)
    (hcall : ∀ q, (s.call q).buffer ≠ some b) (hbusy : flag f B_BUSY = true)
    (hnamed : (s.buf b).address.bDev ≠ NODEV)
    (hdata : ∀ c, c ≠ b → k'.data c = k.data c ∧ k'.changed c = k.changed c)
    (hblock : ∀ a, a ≠ (s.buf b).address ∨ a.bDev = NODEV →
      k'.disk a = k.disk a ∧ k'.latest a = k.latest a ∧ k'.spoiled a = k.spoiled a)
    (hspoiled : k'.spoiled = k.spoiled) (hch : k'.changed b = false)
    (hwrite : k.spoiled (s.buf b).address = false → k'.data b = k'.latest (s.buf b).address)
    (p : π) : Kept ((s.setFlags b f).bwrite b p) k' := by
  have hf : ((s.setFlags b f).buf b).bFlags = f := by rw [Buffers.setFlags, set_self]
  have hset : ∀ flags, (s.setFlags b f).setFlags b flags = s.set b { s.buf b with bFlags := flags } :=
    fun flags => by rw [Buffers.setFlags, Buffers.setFlags, set_self, set_set]
  have hclear {m : UInt32} (hm : ~~~(B_READ ||| B_DONE ||| B_ERROR ||| B_DELWRI) &&& m = 0) :
      flag (f &&& ~~~(B_READ ||| B_DONE ||| B_ERROR ||| B_DELWRI)) m = false := flag_and_of_zero hm
  unfold Buffers.bwrite
  dsimp only
  rw [hf, hset]
  have hstrategy : Kept ((s.set b { s.buf b with
      bFlags := f &&& ~~~(B_READ ||| B_DONE ||| B_ERROR ||| B_DELWRI) }).strategy b p) k' := by
    refine h.strategy
      (x := { s.buf b with bFlags := f &&& ~~~(B_READ ||| B_DONE ||| B_ERROR ||| B_DELWRI) })
      rfl hold hcall ?_ (hclear (by decide)) hnamed hdata hblock hspoiled hch
      (fun hs => ⟨hclear (by decide), fun _ => hwrite hs, fun hr => ?_⟩) p
    · rw [flag_and_of_eq (by decide)]
      exact hbusy
    · exact absurd ((hclear (m := B_READ) (by decide)).symm.trans hr) Bool.false_ne_true
  split
  · next hasync =>
    refine hstrategy.setCall (.of_bwrite (owned_strategy ?_).1 hch)
    rw [flag_and_of_eq (by decide)]
    simpa using hasync
  · split
    · exact hstrategy.getError
    · exact hstrategy

omit [DecidableEq π] in
/-- What a process writes becomes the contents of the block. -/
theorem give_spec (k : Contents ι δ) (s : Buffers ι π) (b : ι)
    (hnamed : (s.buf b).address.bDev ≠ NODEV) :
    (∀ c, c ≠ b → (k.give s b).data c = k.data c ∧ (k.give s b).changed c = k.changed c) ∧
      (∀ a, a ≠ (s.buf b).address ∨ a.bDev = NODEV → (k.give s b).disk a = k.disk a ∧
        (k.give s b).latest a = k.latest a ∧ (k.give s b).spoiled a = k.spoiled a) ∧
      (k.give s b).changed b = false ∧ (k.give s b).latest (s.buf b).address = k.data b := by
  unfold Contents.give
  refine ⟨fun c hc => ⟨rfl, Function.update_of_ne hc ..⟩, fun a ha => ⟨rfl, ?_, rfl⟩,
    Function.update_self .., Function.update_self ..⟩
  refine Function.update_of_ne ?_ ..
  rintro rfl
  exact ha.elim (fun hne => hne rfl) hnamed

/-- A process writes its buffer. -/
theorem Kept.give (h : Kept s k) (hp : (s.buf b).keeper = .process p) (hcall : s.call p = .none)
    (hbusy : flag f B_BUSY = true) : Kept ((s.setFlags b f).bwrite b p) (k.give s b) := by
  have hnamed := (h.formed b).named (.inl (kept_of_process hp))
  obtain ⟨hdata, hblock, hch, hlatest⟩ := give_spec k s b hnamed
  exact h.bwrite (Keeper.not_device_of_process hp) (h.not_in_other hp hcall) hbusy hnamed hdata
    hblock rfl hch (fun _ => hlatest.symm) p

omit [DecidableEq π] in
/-- Or it leaves that for later. -/
theorem Kept.delay (h : Kept s k) (hp : (s.buf b).keeper = .process p) (hcall : s.call p = .none) :
    Kept ((s.setFlags b ((s.buf b).bFlags ||| (B_DELWRI ||| B_DONE))).brelse b) (k.give s b) := by
  have hnamed := (h.formed b).named (.inl (kept_of_process hp))
  obtain ⟨hdata, hblock, hch, hlatest⟩ := give_spec k s b hnamed
  rw [brelse_eq, Buffers.setFlags, set_self, set_set]
  refine h.set rfl (Keeper.not_device_of_process hp) (Keeper.not_device_of_free rfl)
    (h.not_in_other hp hcall) hdata hblock
    (fun _ => id) ?_ fun hs => ?_
  · rw [hch]
    exact Formed.released fun _ => hnamed
  · rw [hch, hlatest]
    refine Fits.released ⟨fun _ => flag_or_right (by decide), fun _ _ => rfl, fun hd _ => ?_,
      fun q hq => absurd hq (Keeper.not_device_of_process hp q)⟩ (Keeper.not_device_of_process hp)
    exact absurd (hd.symm.trans (flag_or_right (by decide))) Bool.false_ne_true

/-- A delayed write. -/
theorem Kept.flush (h : Kept s k) (hbusy : flag (s.buf b).bFlags B_BUSY = false)
    (hdelwri : flag (s.buf b).bFlags B_DELWRI = true) (p : π) :
    Kept ((s.setFlags b ((s.buf b).bFlags ||| (B_ASYNC ||| B_BUSY))).bwrite b p) k := by
  have hfree := h.free_of_not_busy hbusy
  have hch := h.unchanged_of_free hfree
  refine h.bwrite (Keeper.not_device_of_free hfree) (h.not_in_call hfree)
    (flag_or_right (by decide)) ((h.formed b).named (.inr hdelwri)) (fun _ _ => ⟨rfl, rfl⟩)
    (fun _ _ => ⟨rfl, rfl, rfl⟩) rfl hch (fun hs => ?_) p
  have hfits := h.fits b hs
  exact hfits.current (hfits.delayed hdelwri) hch

omit [DecidableEq π] in
/-- The transfer for the first request is over. -/
theorem Kept.finish (h : Kept s k) {queue : List ι} (hqueue : s.queue = b :: queue)
    (hp : (s.buf b).keeper = .device p) {x : Buffer π} (haddr : x.address = (s.buf b).address)
    (hbusy : flag x.bFlags B_BUSY = true)
    (hasync : flag x.bFlags B_ASYNC = flag (s.buf b).bFlags B_ASYNC)
    (hdata : ∀ c, c ≠ b → k'.data c = k.data c) (hch : k'.changed = k.changed)
    (hblock : ∀ a, a ≠ (s.buf b).address →
      k'.disk a = k.disk a ∧ k'.latest a = k.latest a ∧ k'.spoiled a = k.spoiled a)
    (hspoiled : ∀ a, k.spoiled a = true → k'.spoiled a = true)
    (hfits : k'.spoiled (s.buf b).address = false →
      k'.data b = k'.latest (s.buf b).address ∧
        k'.disk (s.buf b).address = k'.latest (s.buf b).address) (n : ℕ) :
    Kept ({ s.set b x with dErrcnt := n, queue := queue }.ioDone b p) k' := by
  have hnamed := (h.formed b).named (.inl (kept_of_device hp))
  have hchb : k.changed b = false := by
    by_contra hne
    obtain ⟨q, hq⟩ := (h.formed b).changed (Bool.not_eq_false _ ▸ hne)
    exact Keeper.not_device_of_process hq p hp
  obtain ⟨hnot, hnodup⟩ := List.nodup_cons.mp (hqueue ▸ h.nodup)
  have heq : { s.set b x with dErrcnt := n, queue := queue }.ioDone b p =
      { s with dErrcnt := n, queue := queue }.set b (finished x p) := by
    rw [ioDone_eq]
    unfold Buffers.set
    dsimp only
    rw [Function.update_self, Function.update_idem]
  rw [heq]
  let t : Buffers ι π := { s with dErrcnt := n, queue := queue }
  have hself : (t.set b (finished x p)).buf b = finished x p := set_self ..
  refine h.change (fun c hc => set_of_ne t _ hc) ?_ (fun c hc => ⟨hdata c hc, by rw [hch]⟩)
    (fun a ha => hblock a ?_) hspoiled hnodup (fun c => ?_) ?_ (fun hs => ?_) rfl fun q hq => ?_
  · rw [hself, address_finished, haddr]
  · rintro rfl
    exact ha.elim (fun hne => hne rfl) hnamed
  · by_cases hc : c = b
    · subst hc
      rw [hself]
      refine ⟨fun hm => absurd hm hnot, fun ⟨q, hq⟩ => ?_⟩
      exact absurd hq finished_not_device
    · rw [set_of_ne t _ hc]
      refine ⟨fun hm => (h.queued c).1 (hqueue ▸ .tail _ hm), fun hd => ?_⟩
      have hm := (h.queued c).2 hd
      rw [hqueue] at hm
      exact (List.mem_cons.mp hm).resolve_left hc
  · rw [hself, hch, hchb]
    exact Formed.finished hbusy (haddr ▸ hnamed)
  · obtain ⟨hd, hk⟩ := hfits hs
    rw [hself, hd, hk]
    exact Fits.finished
  · rw [hch]
    obtain ⟨hown, hunchanged⟩ := (h.calls q).owned b hq
    rcases hown with hk | ⟨hk, hsync⟩
    · exact absurd hp (Keeper.not_device_of_process hk p)
    · cases hp.symm.trans hk
      refine ⟨.inl ?_, hunchanged⟩
      rw [hself]
      exact finished_of_sync (hasync.trans hsync)

section Next

variable {queue : List ι} {isError : Bool} {new : δ}

omit [DecidableEq π] in
theorem next_retry (hqueue : s.queue = b :: queue) (h : (isError && s.dErrcnt + 1 ≤ 10) = true) :
    k.next s new (.interrupt isError) = k := by
  obtain ⟨herror, hcount⟩ := Bool.and_eq_true_iff.mp h
  unfold Contents.next
  simp only [hqueue, herror]
  exact if_pos (of_decide_eq_true hcount)

omit [DecidableEq π] in
theorem next_transfer (hqueue : s.queue = b :: queue) :
    k.next s new (.interrupt false) = k.transfer s b := by
  unfold Contents.next
  simp only [hqueue]
  exact if_pos rfl

omit [DecidableEq π] in
theorem next_fail (hqueue : s.queue = b :: queue) (h : ¬s.dErrcnt + 1 ≤ 10) :
    k.next s new (.interrupt true) = k.fail s b new := by
  unfold Contents.next
  simp only [hqueue]
  exact if_neg h

end Next

omit [DecidableEq π] in
/-- After a transfer the buffer and the disk have the contents of the block. -/
theorem Kept.transfer (h : Kept s k) (hp : (s.buf b).keeper = .device p)
    (hs : k.spoiled (s.buf b).address = false) :
    (k.transfer s b).data b = k.latest (s.buf b).address ∧
      (k.transfer s b).disk (s.buf b).address = k.latest (s.buf b).address := by
  have hfits := h.fits b hs
  unfold Contents.transfer
  dsimp only
  split
  · next hread =>
    have hdisk : k.disk (s.buf b).address = k.latest (s.buf b).address := by
      refine hfits.clean ?_ fun _ => hread
      by_contra hd
      have hdone := hfits.delayed (Bool.not_eq_false _ ▸ hd)
      exact absurd (((h.formed b).waiting ⟨p, hp⟩).symm.trans hdone) Bool.false_ne_true
    exact ⟨(Function.update_self ..).trans hdisk, hdisk⟩
  · next hwrite =>
    have hdata := hfits.device p hp (by simpa using hwrite)
    exact ⟨hdata, (Function.update_self ..).trans hdata⟩

omit [DecidableEq π] in
theorem transfer_other (k : Contents ι δ) (s : Buffers ι π) (b : ι) :
    (∀ c, c ≠ b → (k.transfer s b).data c = k.data c) ∧
      (k.transfer s b).changed = k.changed ∧ (k.transfer s b).spoiled = k.spoiled ∧
      (k.transfer s b).latest = k.latest ∧
      ∀ a, a ≠ (s.buf b).address → (k.transfer s b).disk a = k.disk a := by
  unfold Contents.transfer
  dsimp only
  split
  · exact ⟨fun c hc => Function.update_of_ne hc .., rfl, rfl, rfl, fun _ _ => rfl⟩
  · exact ⟨fun _ _ => rfl, rfl, rfl, rfl, fun a ha => Function.update_of_ne ha ..⟩

omit [DecidableEq π] in
theorem fail_other (k : Contents ι δ) (s : Buffers ι π) (b : ι) (new : δ) :
    (∀ c, c ≠ b → (k.fail s b new).data c = k.data c) ∧
      (k.fail s b new).changed = k.changed ∧
      (k.fail s b new).spoiled = Function.update k.spoiled (s.buf b).address true ∧
      (k.fail s b new).latest = k.latest ∧
      ∀ a, a ≠ (s.buf b).address → (k.fail s b new).disk a = k.disk a := by
  unfold Contents.fail
  dsimp only
  split
  · exact ⟨fun c hc => Function.update_of_ne hc .., rfl, rfl, rfl, fun _ _ => rfl⟩
  · exact ⟨fun _ _ => rfl, rfl, rfl, rfl, fun a ha => Function.update_of_ne ha ..⟩

omit [DecidableEq π] in
/-- The disk ends a request or begins it again. -/
theorem Kept.interrupt (h : Kept s k) {isError : Bool} {new : δ}
    (hstep : s.interrupt isError = some s') : Kept s' (k.next s new (.interrupt isError)) := by
  unfold Buffers.interrupt at hstep
  split at hstep
  · next hqueue =>
    cases hstep
    unfold Contents.next
    simp only [hqueue]
    exact h
  · next b queue hqueue =>
    obtain ⟨p, hp⟩ := (h.queued b).1 (by rw [hqueue]; exact .head _)
    have hbusy := (h.formed b).busy.2 (kept_of_device hp)
    split at hstep
    · next hretry =>
      cases hstep
      rw [next_retry hqueue hretry]
      exact h.other rfl rfl h.calls
    · next hretry =>
      dsimp only at hstep
      rw [hp] at hstep
      dsimp only at hstep
      cases hstep
      cases isError with
      | false =>
        rw [next_transfer hqueue]
        obtain ⟨hdata, hch, hspoiled, hlatest, hdisk⟩ := transfer_other k s b
        refine h.finish
          (x := ⟨(s.buf b).bFlags, (s.buf b).address, .device p,
            (s.buf b).valid || flag (s.buf b).bFlags B_READ⟩)
          hqueue hp rfl hbusy rfl hdata hch
          (fun a ha => ⟨hdisk a ha, by rw [hlatest], by rw [hspoiled]⟩) (fun a ha => hspoiled ▸ ha)
          (fun hs => ?_) 0
        rw [hlatest]
        exact h.transfer hp (hspoiled ▸ hs)
      | true =>
        rw [next_fail hqueue (by simpa using hretry)]
        obtain ⟨hdata, hch, hspoiled, hlatest, hdisk⟩ := fail_other k s b new
        refine h.finish
          (x := ⟨(s.buf b).bFlags ||| B_ERROR, (s.buf b).address, .device p, (s.buf b).valid⟩)
          hqueue hp rfl (flag_or_left hbusy) ?_ hdata hch
          (fun a ha => ⟨hdisk a ha, by rw [hlatest], ?_⟩) (fun a ha => ?_) (fun hs => ?_) 0
        · rw [flag_or]
          exact Bool.or_false _
        · rw [hspoiled, Function.update_of_ne ha]
        · rw [hspoiled]
          by_cases hab : a = (s.buf b).address
          · rw [hab, Function.update_self]
          · rw [Function.update_of_ne hab]
            exact ha
        · rw [hspoiled, Function.update_self] at hs
          cases hs

end Ends

/-! ### The steps -/

section Steps

variable [DecidableEq ι] [DecidableEq π] {s s' : Buffers ι π} {k k' : Contents ι δ} {b c : ι}
  {p q : π} {a : Address} {e : Buffers.Event ι π} {new : δ}

theorem named_of_root (h : a.bDev = ROOTDEV) : a.bDev ≠ NODEV := by
  rw [h]
  decide

omit [DecidableEq ι] in
theorem buf_getError : (s.getError b p).buf = s.buf := by
  unfold Buffers.getError
  split <;> rfl

omit [DecidableEq π] in
theorem setFlags_self : s.setFlags b (s.buf b).bFlags = s := by
  unfold Buffers.setFlags Buffers.set
  rw [Function.update_eq_self]

omit [DecidableEq π] in
theorem call_request {m : UInt32} : (s.request b p m).call = s.call := by
  unfold Buffers.request
  rw [call_strategy]
  rfl

omit [DecidableEq π] in
theorem returned_request {m : UInt32} : (s.request b p m).returned = s.returned := by
  unfold Buffers.request
  rw [returned_strategy]
  rfl

omit [DecidableEq ι] [DecidableEq π] in
/-- When the transfer that a process waits for is over, the process has the buffer. -/
theorem Kept.keeper_of_done (h : Kept s k) (hown : Owned s p b)
    (hdone : flag (s.buf b).bFlags B_DONE = true) : (s.buf b).keeper = .process p := by
  rcases hown with hk | ⟨hk, -⟩
  · exact hk
  · exact absurd (((h.formed b).waiting ⟨p, hk⟩).symm.trans hdone) Bool.false_ne_true

variable [Fintype ι]

/-- The disk is asked for the block of the buffer that `GetBlk` has returned. -/
theorem Kept.readBlock (h : Kept s k) {t : Buffers ι π} (hdev : a.bDev ≠ NODEV)
    (hget : s.getBlk p a b = some t) (hdone : flag (t.buf b).bFlags B_DONE = false) {m : UInt32}
    (hm : flag m B_DONE = false) (hread : flag m B_READ = true) (hdelwri : flag m B_DELWRI = false) :
    Kept (t.request b p m) k := by
  obtain ⟨ht, hfree, hkeeper, -, hcall, -⟩ := h.getBlk hdev hget
  exact ht.request hkeeper (fun q => hcall ▸ h.not_in_call hfree q) (h.unchanged_of_free hfree) hdone
    hm hread hdelwri

/-- And the process waits for it. -/
theorem Kept.owned_read (h : Kept s k) {t : Buffers ι π} (hdev : a.bDev ≠ NODEV)
    (hget : s.getBlk p a b = some t) :
    Owned (t.request b p B_READ) p b ∧ ((t.request b p B_READ).buf b).address = a ∧
      k.changed b = false := by
  obtain ⟨ht, hfree, hkeeper, haddr, -, -⟩ := h.getBlk hdev hget
  obtain ⟨hown, heq⟩ :=
    owned_request (s := t) (b := b) (p := p) (m := B_READ) (ht.sync hkeeper) (by decide)
  exact ⟨hown, heq.trans haddr, h.unchanged_of_free hfree⟩

/-- **Every step** keeps the invariant. -/
theorem Kept.step (h : Kept s k) (hreg : Regular (s, k) (e, new)) (hstep : s.Step e s') :
    Kept s' (k.next s new e) := by
  unfold Buffers.Step at hstep
  cases e with
  | bread p a b =>
    obtain ⟨-, hstep⟩ := guard_bind_eq_some hstep
    obtain ⟨t, hget, hstep⟩ := Option.bind_eq_some_iff.mp hstep
    have hdev := named_of_root hreg
    split at hstep
    · cases hstep
      exact (h.getBlk hdev hget).1.giveBuffer
    · next hdone =>
      cases hstep
      obtain ⟨hown, haddr, hch⟩ := h.owned_read hdev hget
      have hread := h.readBlock (m := B_READ) hdev hget (by simpa using hdone) (by decide) (by decide)
        (by decide)
      exact hread.setCall (.of_ioWait hown hch haddr)
  | breada p a b rablkno =>
    obtain ⟨-, hstep⟩ := guard_bind_eq_some hstep
    obtain ⟨t, hget, hstep⟩ := Option.bind_eq_some_iff.mp hstep
    have hdev := named_of_root hreg
    split at hstep
    · cases hstep
      obtain ⟨ht, hfree, hkeeper, haddr, -, -⟩ := h.getBlk hdev hget
      exact ht.setCall (.of_breada (.inl hkeeper) (h.unchanged_of_free hfree) haddr)
    · next hdone =>
      cases hstep
      obtain ⟨hown, haddr, hch⟩ := h.owned_read hdev hget
      have hread := h.readBlock (m := B_READ) hdev hget (by simpa using hdone) (by decide) (by decide)
        (by decide)
      exact hread.setCall (.of_breada hown hch haddr)
  | readAhead p c =>
    dsimp only [Buffers.exec] at hstep
    split at hstep
    · next a b rablkno hcall =>
      obtain ⟨-, hstep⟩ := guard_bind_eq_some hstep
      obtain ⟨t, hget, hstep⟩ := Option.bind_eq_some_iff.mp hstep
      have hok := h.calls p
      rw [hcall] at hok
      have hdev : a.bDev ≠ NODEV := by
        obtain ⟨K, hK, hne⟩ := (hok.owned b rfl).1.kept
        rw [← hok.breada a b rablkno rfl]
        exact (h.formed b).named (.inl (hK ▸ hne))
      obtain ⟨ht, hfree, hkeeper, -, hcalls, -⟩ := h.getBlk (a := ⟨a.bDev, rablkno⟩) hdev hget
      -- the block that is read ahead is in the cache, or the disk is asked for it
      split at hstep
      · cases hstep
        have hrel := ht.brelse hkeeper (h.unchanged_of_free hfree)
          fun q => hcalls ▸ h.not_in_call hfree q
        refine hrel.setCall (CallOk.ioWait_of_breada (r := rablkno) ?_)
        have := hrel.calls p
        rwa [show (t.brelse c).call = s.call from hcalls, hcall] at this
      · next hdone =>
        cases hstep
        have hrequest := h.readBlock (a := ⟨a.bDev, rablkno⟩) (m := B_READ ||| B_ASYNC) hdev hget
          (by simpa using hdone) (by decide) (by decide) (by decide)
        refine hrequest.setCall (CallOk.ioWait_of_breada (r := rablkno) ?_)
        have := hrequest.calls p
        rwa [call_request, hcalls, hcall] at this
    · cases hstep
  | noReadAhead p =>
    dsimp only [Buffers.exec] at hstep
    split at hstep
    · next a b rablkno hcall =>
      obtain ⟨-, hstep⟩ := guard_bind_eq_some hstep
      cases hstep
      have hok := h.calls p
      rw [hcall] at hok
      exact h.setCall hok.ioWait_of_breada
    · cases hstep
  | ioWait p =>
    dsimp only [Buffers.exec] at hstep
    split at hstep
    · obtain ⟨-, hstep⟩ := guard_bind_eq_some hstep
      cases hstep
      exact h.getError.giveBuffer
    · cases hstep
  | brelse p b =>
    obtain ⟨⟨hcall, hkeeper⟩, hstep⟩ := guard_bind_eq_some hstep
    cases hstep
    exact h.brelse hkeeper hreg (h.not_in_other hkeeper hcall)
  | getBlk p a b =>
    obtain ⟨-, hstep⟩ := guard_bind_eq_some hstep
    exact (h.getBlk (named_of_root hreg) hstep).1
  | overwrite p b =>
    obtain ⟨⟨hcall, hkeeper⟩, hstep⟩ := guard_bind_eq_some hstep
    cases hstep
    have hold : ∀ q, (s.buf b).keeper ≠ .device q :=
    Keeper.not_device_of_process hkeeper
    obtain ⟨hbusy, hnamed, hasync, hwaiting, -⟩ := h.formed b
    refine h.set rfl hold hold (h.not_in_other hkeeper hcall)
      (fun c hc => ⟨Function.update_of_ne hc .., Function.update_of_ne hc ..⟩)
      (fun _ _ => ⟨rfl, rfl, rfl⟩) (fun _ => id)
      ⟨hbusy, hnamed, hasync, hwaiting, fun _ => ⟨p, hkeeper⟩⟩ fun hs => ?_
    have hfits := h.fits b hs
    refine ⟨hfits.delayed, fun _ hch => ?_, hfits.clean, fun q hq => absurd hq (hold q)⟩
    exact absurd (hch.symm.trans (Function.update_self ..)) Bool.false_ne_true
  | bdwrite p b =>
    obtain ⟨⟨hcall, hkeeper⟩, hstep⟩ := guard_bind_eq_some hstep
    cases hstep
    exact h.delay hkeeper hcall
  | bwrite p b =>
    obtain ⟨⟨hcall, hkeeper⟩, hstep⟩ := guard_bind_eq_some hstep
    cases hstep
    have hbusy := (h.formed b).busy.2 (kept_of_process hkeeper)
    have hgive := h.give hkeeper hcall hbusy
    rwa [setFlags_self] at hgive
  | bawrite p b =>
    obtain ⟨⟨hcall, hkeeper⟩, hstep⟩ := guard_bind_eq_some hstep
    cases hstep
    have hbusy := (h.formed b).busy.2 (kept_of_process hkeeper)
    exact h.give hkeeper hcall (flag_or_left hbusy)
  | written p =>
    dsimp only [Buffers.exec] at hstep
    split at hstep
    · next b hcall =>
      obtain ⟨hdone, hstep⟩ := guard_bind_eq_some hstep
      cases hstep
      obtain ⟨hown, hch⟩ := (h.calls p).owned b (by rw [hcall]; rfl)
      have hkeeper := h.keeper_of_done hown hdone
      -- the process is not in the call any more when it gives the buffer back
      have ht : Kept ((s.getError b p).setCall p .none) k := h.getError.setCall .none
      have hk : (((s.getError b p).setCall p .none).buf b).keeper = .process p := by
        rw [show ((s.getError b p).setCall p .none).buf = s.buf from buf_getError]
        exact hkeeper
      exact ht.brelse hk hch (ht.not_in_other hk (Function.update_self ..))
    · cases hstep
  | flush p b =>
    obtain ⟨⟨hbusy, hdelwri⟩, hstep⟩ := guard_bind_eq_some hstep
    cases hstep
    exact h.flush (by simpa using hbusy) hdelwri p
  | interrupt isError => exact h.interrupt hstep

end Steps

end Cache
end UnixV6pp
