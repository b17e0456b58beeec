import UnixV6pp.Dev.CacheSteps

/-!
# Reads and writes of blocks

* `Answer` — a read returns the buffer of its block, with what was written last.
* `step_other`, `Kept.step_others` — a step changes one buffer, not one that another process has.
* `read_latest_run` — **the cache and the disk are an array of blocks.**
* `behind_run` — where what the disk does not have yet is.
* `alone_run` — **who has a buffer, has its block alone.**
-/

namespace UnixV6pp
namespace Cache

open Buf Flags

variable {ι π δ : Type}

/-! ### What a read returns -/

section Answers

variable [DecidableEq ι] [DecidableEq π] [Fintype ι] {s s' : Buffers ι π} {k k' : Contents ι δ}
  {b c : ι} {p q : π} {a : Address} {e : Buffers.Event ι π} {new : δ} {r : Return ι π}

/-- The process has the buffer, which is that of the block, and what is in it is what was written
last. -/
structure Answer (s : Buffers ι π) (k : Contents ι δ) (r : Return ι π) : Prop where
  keeper : (s.buf r.buffer).keeper = .process r.process
  address : (s.buf r.buffer).address = r.address
  latest : k.spoiled r.address = false → k.data r.buffer = k.latest r.address

omit [DecidableEq ι] [Fintype ι] in
/-- The end of a read. -/
theorem Kept.answer (h : Kept s k) (hkeeper : (s.buf b).keeper = .process p)
    (haddr : (s.buf b).address = a) (hdone : flag (s.buf b).bFlags B_DONE = true)
    (hch : k.changed b = false) {reported : Bool} :
    ∃ r, (s.giveBuffer p a b reported).returned = s.returned ++ [r] ∧
      Answer (s.giveBuffer p a b reported) k r :=
  ⟨⟨p, a, b, (s.buf b).valid, reported⟩, rfl, hkeeper, haddr, fun hs => by
    have hfits := h.fits b (haddr ▸ hs)
    rw [haddr] at hfits
    exact hfits.current hdone hch⟩

omit [Fintype ι] in
theorem returned_bwrite : (s.bwrite b p).returned = s.returned := by
  unfold Buffers.bwrite
  dsimp only
  split
  · exact returned_strategy
  · split
    · unfold Buffers.getError
      split <;> exact returned_strategy
    · exact returned_strategy

omit [DecidableEq π] [Fintype ι] in
theorem returned_interrupt {isError : Bool} (h : s.interrupt isError = some s') :
    s'.returned = s.returned := by
  unfold Buffers.interrupt at h
  split at h
  · cases h
    rfl
  · split at h
    · cases h
      rfl
    · dsimp only at h
      split at h
      · cases h
        rw [ioDone_eq]
        rfl
      · cases h

/-- **A step** returns from a read with the right buffer and contents, or from no read. -/
theorem Kept.step_answer (h : Kept s k) (hreg : Regular (s, k) (e, new)) (hstep : s.Step e s') :
    s'.returned = s.returned ∨
      ∃ r, s'.returned = s.returned ++ [r] ∧ Answer s' (k.next s new e) r := by
  unfold Buffers.Step at hstep
  cases e with
  | bread p a b =>
    obtain ⟨-, hstep⟩ := guard_bind_eq_some hstep
    obtain ⟨t, hget, hstep⟩ := Option.bind_eq_some_iff.mp hstep
    obtain ⟨ht, hfree, hkeeper, haddr, -, hreturned⟩ := h.getBlk (named_of_root hreg) hget
    split at hstep
    · next hdone =>
      cases hstep
      rw [← hreturned]
      exact .inr (ht.answer hkeeper haddr hdone (h.unchanged_of_free hfree))
    · cases hstep
      exact .inl (returned_request.trans hreturned)
  | breada p a b rablkno =>
    obtain ⟨-, hstep⟩ := guard_bind_eq_some hstep
    obtain ⟨t, hget, hstep⟩ := Option.bind_eq_some_iff.mp hstep
    obtain ⟨-, -, -, -, -, hreturned⟩ := h.getBlk (named_of_root hreg) hget
    split at hstep
    · cases hstep
      exact .inl hreturned
    · cases hstep
      exact .inl (returned_request.trans hreturned)
  | readAhead p c =>
    dsimp only [Buffers.exec] at hstep
    split at hstep
    · next a b rablkno hcall =>
      obtain ⟨-, hstep⟩ := guard_bind_eq_some hstep
      obtain ⟨t, hget, hstep⟩ := Option.bind_eq_some_iff.mp hstep
      have hreturned : t.returned = s.returned := by
        rcases (getBlk_cases hget).2 with ⟨-, rfl⟩ | ⟨-, rfl⟩ <;> rfl
      split at hstep
      · cases hstep
        exact .inl hreturned
      · cases hstep
        exact .inl (returned_request.trans hreturned)
    · cases hstep
  | noReadAhead p =>
    dsimp only [Buffers.exec] at hstep
    split at hstep
    · obtain ⟨-, hstep⟩ := guard_bind_eq_some hstep
      cases hstep
      exact .inl rfl
    · cases hstep
  | ioWait p =>
    dsimp only [Buffers.exec] at hstep
    split at hstep
    · next a b hcall =>
      obtain ⟨hdone, hstep⟩ := guard_bind_eq_some hstep
      cases hstep
      have hok := h.calls p
      rw [hcall] at hok
      obtain ⟨hown, hch⟩ := hok.owned b rfl
      have hkeeper : (s.buf b).keeper = .process p := h.keeper_of_done hown hdone
      have hreturned : (s.getError b p).returned = s.returned := by
        unfold Buffers.getError
        split <;> rfl
      rw [← hreturned]
      refine .inr (h.getError.answer ?_ ?_ ?_ hch)
      · rw [buf_getError]
        exact hkeeper
      · rw [buf_getError]
        exact hok.ioWait a b rfl
      · rw [buf_getError]
        exact hdone
    · cases hstep
  | brelse p b =>
    obtain ⟨-, hstep⟩ := guard_bind_eq_some hstep
    cases hstep
    exact .inl rfl
  | getBlk p a b =>
    obtain ⟨-, hstep⟩ := guard_bind_eq_some hstep
    exact .inl (h.getBlk (named_of_root hreg) hstep).2.2.2.2.2
  | overwrite p b =>
    obtain ⟨-, hstep⟩ := guard_bind_eq_some hstep
    cases hstep
    exact .inl rfl
  | bdwrite p b =>
    obtain ⟨-, hstep⟩ := guard_bind_eq_some hstep
    cases hstep
    exact .inl rfl
  | bwrite p b =>
    obtain ⟨-, hstep⟩ := guard_bind_eq_some hstep
    cases hstep
    exact .inl returned_bwrite
  | bawrite p b =>
    obtain ⟨-, hstep⟩ := guard_bind_eq_some hstep
    cases hstep
    exact .inl returned_bwrite
  | written p =>
    dsimp only [Buffers.exec] at hstep
    split at hstep
    · obtain ⟨-, hstep⟩ := guard_bind_eq_some hstep
      cases hstep
      refine .inl ?_
      unfold Buffers.getError
      split <;> rfl
    · cases hstep
  | flush p b =>
    obtain ⟨-, hstep⟩ := guard_bind_eq_some hstep
    cases hstep
    exact .inl returned_bwrite
  | interrupt isError => exact .inl (returned_interrupt hstep)

end Answers

/-! ### Other processes -/

section Others

variable [DecidableEq ι] [DecidableEq π] {s s' : Buffers ι π} {k : Contents ι δ} {b c : ι}
  {p q : π} {a : Address} {e : Buffers.Event ι π} {new : δ}

/-- Whose step it is; the disk's is nobody's. -/
def Buffers.Event.process : Buffers.Event ι π → Option π
  | .bread p _ _ => some p
  | .breada p _ _ _ => some p
  | .readAhead p _ => some p
  | .noReadAhead p => some p
  | .ioWait p => some p
  | .brelse p _ => some p
  | .getBlk p _ _ => some p
  | .overwrite p _ => some p
  | .bdwrite p _ => some p
  | .bwrite p _ => some p
  | .bawrite p _ => some p
  | .written p => some p
  | .flush p _ => some p
  | .interrupt _ => none

/-- The buffer that a step changes. -/
def Buffers.Event.about (s : Buffers ι π) : Buffers.Event ι π → Option ι
  | .bread _ _ b => some b
  | .breada _ _ b _ => some b
  | .readAhead _ c => some c
  | .noReadAhead _ => none
  | .ioWait _ => none
  | .brelse _ b => some b
  | .getBlk _ _ b => some b
  | .overwrite _ b => some b
  | .bdwrite _ b => some b
  | .bwrite _ b => some b
  | .bawrite _ b => some b
  | .written p => (s.call p).buffer
  | .flush _ b => some b
  | .interrupt _ => s.queue.head?

omit [DecidableEq π] in
theorem strategy_other (hne : c ≠ b) : (s.strategy b p).buf c = s.buf c := by
  unfold Buffers.strategy
  split
  · rw [ioDone_eq, set_of_ne _ _ hne, Buffers.setFlags, set_of_ne _ _ hne]
  · exact set_of_ne _ _ hne

omit [DecidableEq π] in
theorem request_other (hne : c ≠ b) {m : UInt32} : (s.request b p m).buf c = s.buf c := by
  unfold Buffers.request
  rw [strategy_other hne, set_of_ne _ _ hne]

theorem bwrite_other (hne : c ≠ b) {f : UInt32} : ((s.setFlags b f).bwrite b p).buf c = s.buf c := by
  have hstrategy {flags : UInt32} :
      (((s.setFlags b f).setFlags b flags).strategy b p).buf c = s.buf c := by
    rw [strategy_other hne, Buffers.setFlags, set_of_ne _ _ hne, Buffers.setFlags, set_of_ne _ _ hne]
  unfold Buffers.bwrite
  dsimp only
  split
  · exact hstrategy
  · split
    · rw [buf_getError]
      exact hstrategy
    · exact hstrategy

omit [DecidableEq π] in
theorem brelse_other (hne : c ≠ b) : (s.brelse b).buf c = s.buf c := set_of_ne _ _ hne

variable [Fintype ι]

omit [DecidableEq π] in
theorem getBlk_frame (h : s.getBlk p a b = some s') (hne : c ≠ b) : s'.buf c = s.buf c := by
  rcases (getBlk_cases h).2 with ⟨-, rfl⟩ | ⟨-, rfl⟩ <;> exact set_of_ne _ _ hne

/-- **A step changes one buffer.** -/
theorem step_other (hstep : s.Step e s') (hne : e.about s ≠ some b) : s'.buf b = s.buf b := by
  have hb {c : ι} (h : some c ≠ some b) : b ≠ c := fun heq => h (heq ▸ rfl)
  unfold Buffers.Step at hstep
  cases e with
  | bread p a c =>
    obtain ⟨-, hstep⟩ := guard_bind_eq_some hstep
    obtain ⟨t, hget, hstep⟩ := Option.bind_eq_some_iff.mp hstep
    have ht := getBlk_frame hget (hb hne)
    split at hstep
    · cases hstep
      exact ht
    · cases hstep
      exact (request_other (hb hne)).trans ht
  | breada p a c rablkno =>
    obtain ⟨-, hstep⟩ := guard_bind_eq_some hstep
    obtain ⟨t, hget, hstep⟩ := Option.bind_eq_some_iff.mp hstep
    have ht := getBlk_frame hget (hb hne)
    split at hstep
    · cases hstep
      exact ht
    · cases hstep
      exact (request_other (hb hne)).trans ht
  | readAhead p c =>
    dsimp only [Buffers.exec] at hstep
    split at hstep
    · obtain ⟨-, hstep⟩ := guard_bind_eq_some hstep
      obtain ⟨t, hget, hstep⟩ := Option.bind_eq_some_iff.mp hstep
      have ht := getBlk_frame hget (hb hne)
      split at hstep
      · cases hstep
        exact (brelse_other (hb hne)).trans ht
      · cases hstep
        exact (request_other (hb hne)).trans ht
    · cases hstep
  | noReadAhead p =>
    dsimp only [Buffers.exec] at hstep
    split at hstep
    · obtain ⟨-, hstep⟩ := guard_bind_eq_some hstep
      cases hstep
      rfl
    · cases hstep
  | ioWait p =>
    dsimp only [Buffers.exec] at hstep
    split at hstep
    · obtain ⟨-, hstep⟩ := guard_bind_eq_some hstep
      cases hstep
      exact congrFun buf_getError b
    · cases hstep
  | brelse p c =>
    obtain ⟨-, hstep⟩ := guard_bind_eq_some hstep
    cases hstep
    exact brelse_other (hb hne)
  | getBlk p a c =>
    obtain ⟨-, hstep⟩ := guard_bind_eq_some hstep
    exact getBlk_frame hstep (hb hne)
  | overwrite p c =>
    obtain ⟨-, hstep⟩ := guard_bind_eq_some hstep
    cases hstep
    exact set_of_ne _ _ (hb hne)
  | bdwrite p c =>
    obtain ⟨-, hstep⟩ := guard_bind_eq_some hstep
    cases hstep
    exact (brelse_other (hb hne)).trans (set_of_ne _ _ (hb hne))
  | bwrite p c =>
    obtain ⟨-, hstep⟩ := guard_bind_eq_some hstep
    cases hstep
    have hframe := bwrite_other (s := s) (p := p) (f := (s.buf c).bFlags) (hb hne)
    rwa [setFlags_self] at hframe
  | bawrite p c =>
    obtain ⟨-, hstep⟩ := guard_bind_eq_some hstep
    cases hstep
    exact bwrite_other (hb hne)
  | written p =>
    dsimp only [Buffers.exec] at hstep
    split at hstep
    · next c hcall =>
      obtain ⟨-, hstep⟩ := guard_bind_eq_some hstep
      cases hstep
      dsimp only [Buffers.Event.about] at hne
      rw [hcall] at hne
      exact (brelse_other (hb hne)).trans (congrFun buf_getError b)
    · cases hstep
  | flush p c =>
    obtain ⟨-, hstep⟩ := guard_bind_eq_some hstep
    cases hstep
    exact bwrite_other (hb hne)
  | interrupt isError =>
    dsimp only [Buffers.exec, Buffers.Event.about] at hstep hne
    unfold Buffers.interrupt at hstep
    split at hstep
    · cases hstep
      rfl
    · next c queue hqueue =>
      rw [hqueue] at hne
      split at hstep
      · cases hstep
        rfl
      · dsimp only at hstep
        split at hstep
        · cases hstep
          rw [ioDone_eq, set_of_ne _ _ (hb hne)]
          exact set_of_ne _ _ (hb hne)
        · cases hstep

omit [DecidableEq π] [Fintype ι] in
/-- And the contents of one. -/
theorem next_other (hne : e.about s ≠ some b) : (k.next s new e).data b = k.data b := by
  have hb {c : ι} (h : some c ≠ some b) : b ≠ c := fun heq => h (heq ▸ rfl)
  cases e with
  | overwrite p c => exact Function.update_of_ne (hb hne) ..
  | interrupt isError =>
    unfold Contents.next
    dsimp only
    split
    · rfl
    · next c queue hqueue =>
      dsimp only [Buffers.Event.about] at hne
      rw [hqueue] at hne
      split
      · exact (transfer_other k s c).1 b (hb hne)
      · split
        · rfl
        · exact (fail_other k s c new).1 b (hb hne)
  | _ => rfl

omit [DecidableEq π] [Fintype ι] in
/-- What was written last to a block that is in another buffer stays the same. -/
theorem next_latest (ha : ∀ c, e.about s = some c → a ≠ (s.buf c).address) :
    (k.next s new e).latest a = k.latest a := by
  cases e with
  | bdwrite p c => exact Function.update_of_ne (ha c rfl) ..
  | bwrite p c => exact Function.update_of_ne (ha c rfl) ..
  | bawrite p c => exact Function.update_of_ne (ha c rfl) ..
  | interrupt isError =>
    unfold Contents.next
    dsimp only
    split
    · rfl
    · next c queue hqueue =>
      split
      · rw [(transfer_other k s c).2.2.2.1]
      · split
        · rfl
        · rw [(fail_other k s c new).2.2.2.1]
  | _ => rfl

/-- A step is not about a buffer that a process has, except for the process's own. -/
theorem Kept.about_ne (h : Kept s k) (hstep : s.Step e s') (hp : (s.buf b).keeper = .process p)
    (he : e.process ≠ some p) : e.about s ≠ some b := by
  have hbusy := (h.formed b).busy.2 (kept_of_process hp)
  have hget {q : π} {a : Address} {t : Buffers ι π} (hget : s.getBlk q a b = some t) : False :=
    absurd (hbusy.symm.trans (getBlk_cases hget).1) (by decide)
  have hown {q : π} (hq : (s.buf b).keeper = .process q) : q = p := by
    cases hp.symm.trans hq
    rfl
  rintro heq
  unfold Buffers.Step at hstep
  cases e with
  | bread q a c =>
    cases heq
    obtain ⟨-, hstep⟩ := guard_bind_eq_some hstep
    obtain ⟨t, ht, -⟩ := Option.bind_eq_some_iff.mp hstep
    exact hget ht
  | breada q a c rablkno =>
    cases heq
    obtain ⟨-, hstep⟩ := guard_bind_eq_some hstep
    obtain ⟨t, ht, -⟩ := Option.bind_eq_some_iff.mp hstep
    exact hget ht
  | readAhead q c =>
    cases heq
    dsimp only [Buffers.exec] at hstep
    split at hstep
    · obtain ⟨-, hstep⟩ := guard_bind_eq_some hstep
      obtain ⟨t, ht, -⟩ := Option.bind_eq_some_iff.mp hstep
      exact hget ht
    · cases hstep
  | noReadAhead q => cases heq
  | ioWait q => cases heq
  | brelse q c =>
    cases heq
    exact he (congrArg some (hown (guard_bind_eq_some hstep).1.2))
  | getBlk q a c =>
    cases heq
    exact hget (guard_bind_eq_some hstep).2
  | overwrite q c =>
    cases heq
    exact he (congrArg some (hown (guard_bind_eq_some hstep).1.2))
  | bdwrite q c =>
    cases heq
    exact he (congrArg some (hown (guard_bind_eq_some hstep).1.2))
  | bwrite q c =>
    cases heq
    exact he (congrArg some (hown (guard_bind_eq_some hstep).1.2))
  | bawrite q c =>
    cases heq
    exact he (congrArg some (hown (guard_bind_eq_some hstep).1.2))
  | written q =>
    rcases ((h.calls q).owned b heq).1 with hk | ⟨hk, -⟩
    · exact he (congrArg some (hown hk))
    · exact Keeper.not_device_of_process hp q hk
  | flush q c =>
    cases heq
    exact (guard_bind_eq_some hstep).1.1 hbusy
  | interrupt isError =>
    obtain ⟨q, hq⟩ := (h.queued b).1 (List.mem_of_mem_head? heq)
    exact Keeper.not_device_of_process hp q hq

/-- **What a process has, nobody else changes.** -/
theorem Kept.step_others (h : Kept s k) (hstep : s.Step e s') (hp : (s.buf b).keeper = .process p)
    (he : e.process ≠ some p) :
    s'.buf b = s.buf b ∧ (k.next s new e).data b = k.data b ∧
      (k.next s new e).latest (s.buf b).address = k.latest (s.buf b).address := by
  have hne := h.about_ne hstep hp he
  refine ⟨step_other hstep hne, next_other hne, next_latest fun c hc heq => ?_⟩
  have hnamed := (h.formed b).named (.inl (kept_of_process hp))
  exact hne (hc.trans (congrArg some (h.unique b c heq hnamed).symm))

end Others

/-! ### Runs -/

section Results

variable [DecidableEq ι] [DecidableEq π] [Fintype ι] {data : ι → δ} {disk : Address → δ}
  {c c' : Buffers ι π × Contents ι δ} {l : Buffers.Event ι π × δ} {a : Address} {b : ι} {p : π}

omit [DecidableEq ι] [DecidableEq π] [Fintype ι] in
theorem kept_boot : Kept (Buffers.boot : Buffers ι π) (bootContents data disk) where
  unique _ _ _ hdev := absurd rfl hdev
  nodup := .nil
  queued _ := ⟨fun h => absurd h List.not_mem_nil, fun ⟨q, hq⟩ =>
    absurd hq (Keeper.not_device_of_free rfl q)⟩
  formed _ := ⟨⟨fun h => absurd h (by decide : ¬flag 0 B_BUSY = true), fun h => absurd rfl h⟩,
    fun h => h.elim (fun hne => absurd rfl hne)
      fun hd => absurd hd (by decide : ¬flag 0 B_DELWRI = true),
    fun h => absurd h (by decide : ¬flag 0 B_ASYNC = true),
    fun ⟨q, hq⟩ => absurd hq (Keeper.not_device_of_free rfl q), fun h => absurd h Bool.false_ne_true⟩
  absent _ _ _ := rfl
  fits _ _ := ⟨fun hd => absurd hd (by decide : ¬flag 0 B_DELWRI = true),
    fun hd => absurd hd (by decide : ¬flag 0 B_DONE = true), fun _ _ => rfl,
    fun q hq => absurd hq (Keeper.not_device_of_free rfl q)⟩
  missing _ ha := decide_eq_true ha
  calls _ := CallOk.none

/-- The invariant, over a run. -/
theorem kept_run (hrun : Runs Moves Regular (Buffers.boot, bootContents data disk) c) :
    Kept c.1 c.2 := by
  refine hrun.invariant (I := fun c => Kept c.1 c.2) (fun c l c' h hreg hmove => ?_) kept_boot
  rw [hmove.2]
  exact h.step hreg hmove.1

/-- **The cache is an array.**  After any run, when a further step returns from `Bread` or `Breada`,
the process has the buffer of the block, and finds there what was last written to the block, whether
the disk has it already or not. -/
theorem read_latest_run (hrun : Runs Moves Regular (Buffers.boot, bootContents data disk) c)
    (hreg : Regular c l) (hmove : Moves c l c') :
    ∀ r ∈ c'.1.returned.drop c.1.returned.length, Answer c'.1 c'.2 r := by
  intro r hr
  rcases (kept_run hrun).step_answer hreg hmove.1 with hsame | ⟨r', heq, hanswer⟩
  · rw [hsame, List.drop_length] at hr
    exact absurd hr List.not_mem_nil
  · rw [heq, List.drop_left, List.mem_singleton] at hr
    rw [hr, hmove.2]
    exact hanswer

/-- **What is not on the disk yet** is in a buffer, which is marked for a delayed write or is in the
queue to be written, and there it is as it was written last, unless a process is changing it
again. -/
theorem behind_run (hrun : Runs Moves Regular (Buffers.boot, bootContents data disk) c)
    (hspoiled : c.2.spoiled a = false) (hbehind : c.2.disk a ≠ c.2.latest a) :
    ∃ b, (c.1.buf b).address = a ∧
      (flag (c.1.buf b).bFlags B_DELWRI = true ∨
        b ∈ c.1.queue ∧ flag (c.1.buf b).bFlags B_READ = false) ∧
      (c.2.changed b = false → c.2.data b = c.2.latest a) := by
  have h := kept_run hrun
  have hin : ∃ b, (c.1.buf b).address = a := by
    by_contra hno
    rw [not_exists] at hno
    exact hbehind (h.absent a hspoiled hno)
  obtain ⟨b, rfl⟩ := hin
  have hfits := h.fits b hspoiled
  refine ⟨b, rfl, ?_⟩
  cases hdelwri : flag (c.1.buf b).bFlags B_DELWRI with
  | true => exact ⟨.inl rfl, hfits.current (hfits.delayed hdelwri)⟩
  | false =>
    -- otherwise only a write to the disk may still be under way
    by_cases hclean : (∃ p, (c.1.buf b).keeper = .device p) → flag (c.1.buf b).bFlags B_READ = true
    · exact absurd (hfits.clean hdelwri hclean) hbehind
    · rw [Classical.not_imp, Bool.not_eq_true] at hclean
      obtain ⟨⟨p, hp⟩, hwrite⟩ := hclean
      exact ⟨.inr ⟨(h.queued b).2 ⟨p, hp⟩, hwrite⟩, fun _ => hfits.device p hp hwrite⟩

end Results

/-! ### Runs of a few steps -/

theorem moves_of_exec [DecidableEq ι] [DecidableEq π] [Fintype ι] {s s' : Buffers ι π}
    {k : Contents ι δ} {e : Buffers.Event ι π} {new : δ} (h : s.exec e = some s') :
    Moves (s, k) (e, new) (s', k.next s new e) := ⟨h, rfl⟩

/-- Nothing has been read or written yet, and there are zeros everywhere. -/
def zeros (n : ℕ) : Buffers (Fin n) (Fin n) × Contents (Fin n) ℕ :=
  (Buffers.boot, bootContents (fun _ => 0) fun _ => 0)

/-- A block is overwritten with `7` and given to `Bdwrite`, and read again from the cache. -/
theorem read_latest_run_delayed : ∃ c' : Buffers (Fin 1) (Fin 1) × Contents (Fin 1) ℕ,
    c'.1.returned = [⟨0, ⟨ROOTDEV, 1024⟩, 0, true, false⟩] ∧ c'.2.latest ⟨ROOTDEV, 1024⟩ = 7 ∧
      ∀ r ∈ c'.1.returned, Answer c'.1 c'.2 r := by
  have hget : Runs Moves Regular (zeros 1) _ :=
    .single (l := (.getBlk 0 ⟨ROOTDEV, 1024⟩ 0, 0)) rfl (moves_of_exec rfl)
  have hover := hget.tail (l := (.overwrite 0 0, 7)) trivial (moves_of_exec rfl)
  have hwrite := hover.tail (l := (.bdwrite 0 0, 0)) trivial (moves_of_exec rfl)
  exact ⟨_, rfl, rfl,
    read_latest_run hwrite (l := (.bread 0 ⟨ROOTDEV, 1024⟩ 0, 0)) rfl (moves_of_exec rfl)⟩

/-- It is given to `Bawrite`, and the disk has not done it yet. -/
theorem behind_run_queued : ∃ c : Buffers (Fin 1) (Fin 1) × Contents (Fin 1) ℕ,
    c.2.disk ⟨ROOTDEV, 1024⟩ = 0 ∧ c.1.queue = [0] ∧ ∃ b, (c.1.buf b).address = ⟨ROOTDEV, 1024⟩ ∧
      (flag (c.1.buf b).bFlags B_DELWRI = true ∨
        b ∈ c.1.queue ∧ flag (c.1.buf b).bFlags B_READ = false) ∧
      (c.2.changed b = false → c.2.data b = 7) := by
  have hget : Runs Moves Regular (zeros 1) _ :=
    .single (l := (.getBlk 0 ⟨ROOTDEV, 1024⟩ 0, 0)) rfl (moves_of_exec rfl)
  have hover := hget.tail (l := (.overwrite 0 0, 7)) trivial (moves_of_exec rfl)
  have hwrite := hover.tail (l := (.bawrite 0 0, 0)) trivial (moves_of_exec rfl)
  exact ⟨_, rfl, rfl, behind_run (a := ⟨ROOTDEV, 1024⟩) hwrite rfl (by decide : (0 : ℕ) ≠ 7)⟩

end Cache
end UnixV6pp
