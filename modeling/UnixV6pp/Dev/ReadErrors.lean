import UnixV6pp.Dev.Cache
import UnixV6pp.Lib.Runs

/-!
# Reads that fail

When a transfer has failed after all attempts, `B_DONE` and `B_ERROR` are set.  Who waits for
it finds the error in `IOWait`.  `Brelse` is to change the device number of such a buffer, so
that nobody finds it any more, but the changed number is lost; the next `Bread` of the block
sees `B_DONE` and returns the buffer.

* `Good`, `Sound` — what the flags of a buffer say about its contents.
* `Fresh` — a `Bread` does not find such a buffer.
* `read_run` — **in a run of which this is true, every error is reported.**
-/

namespace UnixV6pp
namespace Cache

open Buf Flags

variable {ι π : Type} {s s' : Buffers ι π} {x : Buffer π} {p : π} {b c : ι} {a : Address}

/-- What the flags of a buffer say. -/
structure Good (x : Buffer π) : Prop where
  done : flag x.bFlags B_DONE → flag x.bFlags B_ERROR ∨ x.valid
  delayed : flag x.bFlags B_DELWRI → flag x.bFlags B_DONE ∧ x.valid
  busy : x.keeper ≠ .free → flag x.bFlags B_BUSY
  device : ∀ p, x.keeper = .device p →
    flag x.bFlags B_DONE = false ∧ (flag x.bFlags B_READ ∨ x.valid)

/-- The buffer is valid, or the process has been told that it is not. -/
def Honest (r : Return ι π) : Prop := r.valid ∨ r.reported

structure Sound (s : Buffers ι π) : Prop where
  good : ∀ b, Good (s.buf b)
  nodup : s.queue.Nodup
  device : ∀ b ∈ s.queue, ∃ p, (s.buf b).keeper = .device p
  honest : ∀ r ∈ s.returned, Honest r

theorem sound_boot : Sound (Buffers.boot : Buffers ι π) :=
  ⟨fun _ => ⟨fun hd => absurd hd (by decide : ¬flag 0 B_DONE = true),
      fun hd => absurd hd (by decide : ¬flag 0 B_DELWRI = true), fun hne => absurd rfl hne,
      fun _ hno => nomatch hno⟩, .nil, fun _ hb => absurd hb List.not_mem_nil,
    fun _ hr => absurd hr List.not_mem_nil⟩

/-- A process writes only what it has overwritten, or read without an error. -/
def Proper (s : Buffers ι π) : Buffers.Event ι π → Prop
  | .bdwrite _ b => (s.buf b).valid
  | .bwrite _ b => (s.buf b).valid
  | .bawrite _ b => (s.buf b).valid
  | _ => True

/-- `Bread` does not find its block in a buffer that a failed transfer has left, and that has not
been overwritten since. -/
def Fresh (s : Buffers ι π) : Buffers.Event ι π → Prop
  | .bread _ a b => ¬((s.buf b).address = a ∧ flag (s.buf b).bFlags B_DONE ∧
      flag (s.buf b).bFlags B_ERROR ∧ (s.buf b).valid = false)
  | _ => True

/-! ### One buffer -/

/-- A buffer that is given back. -/
def released (x : Buffer π) : Buffer π :=
  { x with bFlags := x.bFlags &&& ~~~(B_WANTED ||| B_BUSY ||| B_ASYNC), keeper := .free }

/-- A buffer whose transfer for the process `p` is over. -/
def finished (x : Buffer π) (p : π) : Buffer π :=
  if flag (x.bFlags ||| B_DONE) B_ASYNC then released { x with bFlags := x.bFlags ||| B_DONE }
  else { x with bFlags := (x.bFlags ||| B_DONE) &&& ~~~B_WANTED, keeper := .process p }

/-- What is given back says what it said. -/
theorem Good.released (h : Good x) : Good (Cache.released x) := by
  have hdone : flag (Cache.released x).bFlags B_DONE = flag x.bFlags B_DONE := flag_and_of_eq (by decide)
  have herror : flag (Cache.released x).bFlags B_ERROR = flag x.bFlags B_ERROR :=
    flag_and_of_eq (by decide)
  have hdelwri : flag (Cache.released x).bFlags B_DELWRI = flag x.bFlags B_DELWRI :=
    flag_and_of_eq (by decide)
  refine ⟨?_, ?_, fun hne => absurd rfl hne, fun _ hno => nomatch hno⟩
  · rw [hdone, herror]
    exact h.done
  · rw [hdone, hdelwri]
    exact h.delayed

theorem good_finished (hok : flag x.bFlags B_ERROR ∨ x.valid) (hdelayed : flag x.bFlags B_DELWRI → x.valid)
    (hbusy : flag x.bFlags B_BUSY) (p : π) : Good (finished x p) := by
  have hdone : flag (x.bFlags ||| B_DONE) B_DONE = true := flag_or_right (by decide)
  have herror : flag (x.bFlags ||| B_DONE) B_ERROR = flag x.bFlags B_ERROR := by
    rw [flag_or]
    exact Bool.or_false _
  have hdelwri : flag (x.bFlags ||| B_DONE) B_DELWRI = flag x.bFlags B_DELWRI := by
    rw [flag_or]
    exact Bool.or_false _
  unfold finished
  split
  · refine Good.released (x := { x with bFlags := x.bFlags ||| B_DONE, keeper := .free })
      ⟨fun _ => ?_, fun hd => ⟨hdone, hdelayed ?_⟩, fun hne => absurd rfl hne, fun _ hno => nomatch hno⟩
    · dsimp only
      rwa [herror]
    · rwa [← hdelwri]
  · have hclear {m : UInt32} (hm : ~~~B_WANTED &&& m = m) :
        flag ((x.bFlags ||| B_DONE) &&& ~~~B_WANTED) m = flag (x.bFlags ||| B_DONE) m := flag_and_of_eq hm
    refine ⟨fun _ => ?_, fun hd => ⟨?_, hdelayed ?_⟩, fun _ => ?_, fun _ hno => nomatch hno⟩
    · dsimp only
      rwa [hclear (by decide), herror]
    · dsimp only
      rwa [hclear (by decide)]
    · dsimp only at hd
      rwa [hclear (by decide), hdelwri] at hd
    · dsimp only
      rw [hclear (by decide)]
      exact flag_or_left hbusy

/-! ### Parts of the calls -/

namespace Sound

theorem not_mem (h : Sound s) (hb : ∀ p, (s.buf b).keeper ≠ .device p) : b ∉ s.queue := by
  intro hmem
  obtain ⟨p, hp⟩ := h.device b hmem
  exact hb p hp

theorem not_mem_of_process (h : Sound s) (hb : (s.buf b).keeper = .process p) : b ∉ s.queue :=
  h.not_mem fun _ hq => nomatch hb.symm.trans hq

theorem busy_of_process (h : Sound s) (hb : (s.buf b).keeper = .process p) :
    flag (s.buf b).bFlags B_BUSY := (h.good b).busy (by rw [hb]; exact nofun)

section

variable [DecidableEq π]

theorem setCall (h : Sound s) (p : π) (call : Call ι) : Sound (s.setCall p call) :=
  ⟨h.good, h.nodup, h.device, h.honest⟩

theorem getError (h : Sound s) (b : ι) (p : π) : Sound (s.getError b p) := by
  unfold Buffers.getError
  split
  · exact ⟨h.good, h.nodup, h.device, h.honest⟩
  · exact h

theorem giveBuffer (h : Sound s) {reported : Bool} (hr : (s.buf b).valid ∨ reported) (p : π) (a : Address) :
    Sound (s.giveBuffer p a b reported) := by
  refine ⟨h.good, h.nodup, h.device, fun r hr' => ?_⟩
  rcases List.mem_append.mp hr' with hold | hnew
  · exact h.honest r hold
  · rw [List.mem_singleton.mp hnew]
    exact hr

end

end Sound

variable [DecidableEq ι]

theorem set_self (s : Buffers ι π) (b : ι) (x : Buffer π) : (s.set b x).buf b = x :=
  Function.update_self ..

theorem set_of_ne (s : Buffers ι π) (x : Buffer π) (hne : c ≠ b) : (s.set b x).buf c = s.buf c :=
  Function.update_of_ne hne ..

theorem set_set (s : Buffers ι π) (b : ι) (x y : Buffer π) : (s.set b x).set b y = s.set b y := by
  unfold Buffers.set
  rw [Function.update_idem]

theorem brelse_eq (s : Buffers ι π) (b : ι) : s.brelse b = s.set b (released (s.buf b)) := rfl

theorem ioDone_eq (s : Buffers ι π) (b : ι) (p : π) : s.ioDone b p = s.set b (finished (s.buf b) p) := by
  have hbuf : (s.setFlags b ((s.buf b).bFlags ||| B_DONE)).buf b =
      { s.buf b with bFlags := (s.buf b).bFlags ||| B_DONE } := set_self ..
  unfold Buffers.ioDone finished
  dsimp only
  rw [hbuf]
  split
  · rw [brelse_eq, hbuf, Buffers.setFlags, set_set]
  · rw [Buffers.setFlags, set_set]

namespace Sound

theorem set (h : Sound s) (hb : b ∉ s.queue) (hx : Good x) : Sound (s.set b x) := by
  refine ⟨fun c => ?_, h.nodup, fun c hc => ?_, h.honest⟩
  · by_cases hcb : c = b
    · subst hcb
      rw [set_self]
      exact hx
    · rw [set_of_ne s x hcb]
      exact h.good c
  · have hcb : c ≠ b := fun hcb => hb (hcb ▸ hc)
    rw [set_of_ne s x hcb]
    exact h.device c hc

theorem brelse (h : Sound s) (hb : b ∉ s.queue) : Sound (s.brelse b) := h.set hb (h.good b).released

/-- A request is queued, or it is refused. -/
theorem strategy (h : Sound s) (hb : b ∉ s.queue) (hdone : flag (s.buf b).bFlags B_DONE = false)
    (hask : flag (s.buf b).bFlags B_READ ∨ (s.buf b).valid) (hbusy : flag (s.buf b).bFlags B_BUSY)
    (p : π) : Sound (s.strategy b p) := by
  unfold Buffers.strategy
  split
  · rw [ioDone_eq, Buffers.setFlags, set_self, set_set]
    refine h.set hb (good_finished (.inl (flag_or_right (by decide))) (fun hd => ?_) (flag_or_left hbusy) p)
    dsimp only at hd
    rw [flag_or] at hd
    exact ((h.good b).delayed ((Bool.or_false _).symm.trans hd)).2
  · have hx : Good { s.buf b with keeper := .device p } :=
      ⟨(h.good b).done, (h.good b).delayed, fun _ => hbusy, fun _ _ => ⟨hdone, hask⟩⟩
    obtain ⟨hgood, hnodup, hdevice, hhonest⟩ := h.set hb hx
    refine ⟨hgood, ?_, fun c hc => ?_, hhonest⟩
    · exact List.nodup_append.mpr ⟨hnodup, List.nodup_singleton b, fun c hc d hd heq => by
        rw [List.mem_singleton.mp hd] at heq
        exact hb (heq ▸ hc)⟩
    · rcases List.mem_append.mp hc with hold | hnew
      · exact hdevice c hold
      · rw [List.mem_singleton.mp hnew]
        exact ⟨p, by rw [set_self]⟩

/-- A buffer that is read into: what it held is lost. -/
theorem request (h : Sound s) (hb : (s.buf b).keeper = .process p)
    (hdone : flag (s.buf b).bFlags B_DONE = false) {m : UInt32} (hm : flag m B_DONE = false)
    (hread : flag m B_READ = true) (hdelwri : flag m B_DELWRI = false) (q : π) :
    Sound (s.request b q m) := by
  have hnot := h.not_mem_of_process hb
  have hbusy := h.busy_of_process hb
  have hdone' : flag ((s.buf b).bFlags ||| m) B_DONE = false := by rw [flag_or, hdone, hm]; rfl
  have hx : Good { s.buf b with bFlags := (s.buf b).bFlags ||| m, valid := false } := by
    refine ⟨fun hd => ?_, fun hd => ?_, fun _ => flag_or_left hbusy, fun q hq => nomatch hb.symm.trans hq⟩
    · exact absurd (hdone'.symm.trans hd) Bool.false_ne_true
    · dsimp only at hd
      rw [flag_or, hdelwri, Bool.or_false] at hd
      exact absurd (hdone.symm.trans ((h.good b).delayed hd).1) Bool.false_ne_true
  refine (h.set hnot hx).strategy hnot ?_ ?_ ?_ q
  · rw [set_self]
    exact hdone'
  · rw [set_self]
    exact .inl (flag_or_right hread)
  · rw [set_self]
    exact flag_or_left hbusy

variable [DecidableEq π]

/-- A buffer that is written, with these flags at first. -/
theorem bwrite (h : Sound s) (hb : b ∉ s.queue) (hvalid : (s.buf b).valid) {f : UInt32}
    (hbusy : flag f B_BUSY) (hkeeper : ∀ q, (s.buf b).keeper ≠ .device q) (p : π) :
    Sound ((s.setFlags b f).bwrite b p) := by
  have hdone : flag (f &&& ~~~(B_READ ||| B_DONE ||| B_ERROR ||| B_DELWRI)) B_DONE = false :=
    flag_and_of_zero (by decide)
  have hdelwri : flag (f &&& ~~~(B_READ ||| B_DONE ||| B_ERROR ||| B_DELWRI)) B_DELWRI = false :=
    flag_and_of_zero (by decide)
  have hbusy' : flag (f &&& ~~~(B_READ ||| B_DONE ||| B_ERROR ||| B_DELWRI)) B_BUSY = true := by
    rw [flag_and_of_eq (by decide)]
    exact hbusy
  have hf : ((s.setFlags b f).buf b).bFlags = f := by rw [Buffers.setFlags, set_self]
  have hset : ∀ flags, (s.setFlags b f).setFlags b flags = s.setFlags b flags := fun flags => by
    rw [Buffers.setFlags, Buffers.setFlags, set_self, set_set, Buffers.setFlags]
  unfold Buffers.bwrite
  dsimp only
  rw [hf, hset]
  generalize f &&& ~~~(B_READ ||| B_DONE ||| B_ERROR ||| B_DELWRI) = flags at *
  have hx : Good { s.buf b with bFlags := flags } := by
    refine ⟨fun hd => ?_, fun hd => ?_, fun _ => hbusy', fun q hq => absurd hq (hkeeper q)⟩
    · exact absurd (hdone.symm.trans hd) Bool.false_ne_true
    · exact absurd (hdelwri.symm.trans hd) Bool.false_ne_true
  have hstrategy : Sound ((s.setFlags b flags).strategy b p) := by
    refine (h.set hb hx).strategy hb ?_ ?_ ?_ p
    · rw [set_self]
      exact hdone
    · rw [set_self]
      exact .inr hvalid
    · rw [set_self]
      exact hbusy'
  split
  · exact hstrategy.setCall p _
  · split
    · exact hstrategy.getError b p
    · exact hstrategy

end Sound

/-! ### The steps -/

/-- What `GetBlk` returns: the buffer of the block, or another one with its flags cleared. -/
theorem getBlk_cases [Fintype ι] (h : s.getBlk p a b = some s') :
    flag (s.buf b).bFlags B_BUSY = false ∧
      ((s.buf b).address = a ∧ s' = s.set b
          { s.buf b with bFlags := (s.buf b).bFlags ||| B_BUSY, keeper := .process p } ∨
        (s.buf b).address ≠ a ∧ s' = s.set b ⟨B_BUSY, a, .process p, false⟩) := by
  unfold Buffers.getBlk at h
  dsimp only at h
  split at h
  · cases h
  · next hbusy =>
    refine ⟨by simpa using hbusy, ?_⟩
    split at h
    · next ha => exact .inl ⟨ha, (Option.some.inj h).symm⟩
    · next ha =>
      split at h
      · cases h
      · exact .inr ⟨ha, (Option.some.inj h).symm⟩

/-- The process has the buffer then, and what was done is still done. -/
theorem Sound.getBlk [Fintype ι] (h : Sound s) (hget : s.getBlk p a b = some s') :
    Sound s' ∧ (s'.buf b).keeper = .process p ∧ s'.call = s.call ∧ s'.returned = s.returned ∧
      (flag (s'.buf b).bFlags B_DONE → (s.buf b).address = a ∧ flag (s.buf b).bFlags B_DONE ∧
        flag (s'.buf b).bFlags B_ERROR = flag (s.buf b).bFlags B_ERROR ∧
        (s'.buf b).valid = (s.buf b).valid) := by
  obtain ⟨hbusy, hcases⟩ := getBlk_cases hget
  have hfree : (s.buf b).keeper = .free := by
    by_contra hne
    exact absurd (hbusy.symm.trans ((h.good b).busy hne)) Bool.false_ne_true
  have hnot : b ∉ s.queue := h.not_mem fun q hq => nomatch hfree.symm.trans hq
  rcases hcases with ⟨ha, rfl⟩ | ⟨-, rfl⟩
  · have hor {m : UInt32} (hm : flag B_BUSY m = false) :
        flag ((s.buf b).bFlags ||| B_BUSY) m = flag (s.buf b).bFlags m := by
      rw [flag_or, hm, Bool.or_false]
    have hx : Good { s.buf b with bFlags := (s.buf b).bFlags ||| B_BUSY, keeper := .process p } := by
      refine ⟨?_, ?_, fun _ => flag_or_right (by decide), fun _ hno => nomatch hno⟩
      · dsimp only
        rw [hor (by decide), hor (by decide)]
        exact (h.good b).done
      · dsimp only
        rw [hor (by decide), hor (by decide)]
        exact (h.good b).delayed
    refine ⟨h.set hnot hx, by rw [set_self], rfl, rfl, fun hd => ?_⟩
    rw [set_self] at hd ⊢
    dsimp only at hd ⊢
    rw [hor (by decide)] at hd ⊢
    exact ⟨ha, hd, rfl, rfl⟩
  · have hdone : ¬flag B_BUSY B_DONE = true := by decide
    have hx : Good (⟨B_BUSY, a, .process p, false⟩ : Buffer π) :=
      ⟨fun hd => absurd hd hdone, fun hd => absurd hd (by decide : ¬flag B_BUSY B_DELWRI = true),
        fun _ => (by decide : flag B_BUSY B_BUSY = true), fun _ hno => nomatch hno⟩
    refine ⟨h.set hnot hx, by rw [set_self], rfl, rfl, fun hd => ?_⟩
    rw [set_self] at hd
    exact absurd hd hdone

/-- The handler goes on with the request, or ends it. -/
theorem Sound.interrupt (h : Sound s) {isError : Bool} (hstep : s.interrupt isError = some s') :
    Sound s' := by
  unfold Buffers.interrupt at hstep
  split at hstep
  · cases hstep
    exact h
  · next b queue hqueue =>
    obtain ⟨hnot, hnodup⟩ := List.nodup_cons.mp (hqueue ▸ h.nodup)
    split at hstep
    · cases hstep
      exact ⟨h.good, h.nodup, h.device, h.honest⟩
    · obtain ⟨p, hp⟩ := h.device b (by rw [hqueue]; exact .head _)
      dsimp only at hstep
      rw [hp] at hstep
      dsimp only at hstep
      cases hstep
      obtain ⟨-, hask⟩ := (h.good b).device p hp
      have hbusy : flag (s.buf b).bFlags B_BUSY := (h.good b).busy (by rw [hp]; exact nofun)
      have hdelayed : flag (s.buf b).bFlags B_DELWRI → (s.buf b).valid :=
        fun hd => ((h.good b).delayed hd).2
      let t : Buffers ι π := { s with dErrcnt := 0, queue := queue }
      have ht : Sound t :=
        ⟨h.good, hnodup, fun c hc => h.device c (by rw [hqueue]; exact .tail _ hc), h.honest⟩
      -- the buffer with the result of the transfer
      have hend : ∀ x : Buffer π, (flag x.bFlags B_ERROR ∨ x.valid) → (flag x.bFlags B_DELWRI → x.valid) →
          flag x.bFlags B_BUSY → Sound ((t.set b x).ioDone b p) := by
        intro x hok hdel hb
        rw [ioDone_eq, set_self, set_set]
        exact ht.set hnot (good_finished hok hdel hb p)
      cases isError with
      | true =>
        refine hend ⟨(s.buf b).bFlags ||| B_ERROR, (s.buf b).address, .device p, (s.buf b).valid⟩
          (.inl (flag_or_right (by decide))) (fun hd => ?_) (flag_or_left hbusy)
        dsimp only at hd
        rw [flag_or] at hd
        exact hdelayed ((Bool.or_false _).symm.trans hd)
      | false =>
        refine hend ⟨(s.buf b).bFlags, (s.buf b).address, .device p,
          (s.buf b).valid || flag (s.buf b).bFlags B_READ⟩ ?_ ?_ hbusy
        · dsimp only
          rw [Bool.or_eq_true]
          exact .inr hask.symm
        · intro hd
          dsimp only
          rw [hdelayed hd]
          rfl

/-- A test that a call goes on with. -/
theorem guard_bind_eq_some {α : Type} {P : Prop} [Decidable P] {f : Unit → Option α} {y : α}
    (h : (guard P >>= f) = some y) : P ∧ f () = some y := by
  unfold guard at h
  split at h
  · next hP => exact ⟨hP, h⟩
  · cases h

variable [DecidableEq π] [Fintype ι]

/-- **Every step** that meets the condition keeps the cache sound. -/
theorem Sound.step (h : Sound s) {e : Buffers.Event ι π} (hproper : Proper s e) (hfresh : Fresh s e)
    (hstep : s.Step e s') : Sound s' := by
  unfold Buffers.Step at hstep
  cases e with
  | bread p a b =>
    obtain ⟨-, hstep⟩ := guard_bind_eq_some hstep
    obtain ⟨t, hget, hstep⟩ := Option.bind_eq_some_iff.mp hstep
    obtain ⟨ht, hkeeper, -, -, hhit⟩ := h.getBlk hget
    split at hstep
    · next hdone =>
      cases hstep
      obtain ⟨ha, hd, he, hv⟩ := hhit hdone
      refine ht.giveBuffer (.inl ?_) p a
      by_contra hno
      have hinvalid : (s.buf b).valid = false := by
        rw [← hv]
        simpa using hno
      refine hfresh ⟨ha, hd, ?_, hinvalid⟩
      exact ((h.good b).done hd).resolve_right (by rw [hinvalid]; exact Bool.false_ne_true)
    · next hdone =>
      cases hstep
      exact (ht.request hkeeper (by simpa using hdone) (by decide) (by decide) (by decide) p).setCall p _
  | breada p a b rablkno =>
    obtain ⟨-, hstep⟩ := guard_bind_eq_some hstep
    obtain ⟨t, hget, hstep⟩ := Option.bind_eq_some_iff.mp hstep
    obtain ⟨ht, hkeeper, -, -, -⟩ := h.getBlk hget
    split at hstep
    · cases hstep
      exact ht.setCall p _
    · next hdone =>
      cases hstep
      exact (ht.request hkeeper (by simpa using hdone) (by decide) (by decide) (by decide) p).setCall p _
  | readAhead p c =>
    dsimp only [Buffers.exec] at hstep
    split at hstep
    · next a b rablkno hcall =>
      obtain ⟨-, hstep⟩ := guard_bind_eq_some hstep
      obtain ⟨t, hget, hstep⟩ := Option.bind_eq_some_iff.mp hstep
      obtain ⟨ht, hkeeper, -, -, -⟩ := h.getBlk hget
      split at hstep
      · cases hstep
        exact (ht.brelse (ht.not_mem_of_process hkeeper)).setCall p _
      · next hdone =>
        cases hstep
        exact (ht.request hkeeper (by simpa using hdone) (by decide) (by decide) (by decide) p).setCall p _
    · cases hstep
  | noReadAhead p =>
    dsimp only [Buffers.exec] at hstep
    split at hstep
    · obtain ⟨-, hstep⟩ := guard_bind_eq_some hstep
      cases hstep
      exact h.setCall p _
    · cases hstep
  | ioWait p =>
    dsimp only [Buffers.exec] at hstep
    split at hstep
    · next a b hcall =>
      obtain ⟨hdone, hstep⟩ := guard_bind_eq_some hstep
      cases hstep
      have hbuf : (s.getError b p).buf = s.buf := by
        unfold Buffers.getError
        split <;> rfl
      refine (h.getError b p).giveBuffer ?_ p a
      rw [hbuf]
      exact ((h.good b).done hdone).symm
    · cases hstep
  | brelse p b =>
    obtain ⟨⟨-, hkeeper⟩, hstep⟩ := guard_bind_eq_some hstep
    cases hstep
    exact h.brelse (h.not_mem_of_process hkeeper)
  | getBlk p a b =>
    obtain ⟨-, hstep⟩ := guard_bind_eq_some hstep
    exact (h.getBlk hstep).1
  | overwrite p b =>
    obtain ⟨⟨-, hkeeper⟩, hstep⟩ := guard_bind_eq_some hstep
    cases hstep
    refine h.set (h.not_mem_of_process hkeeper) ⟨fun _ => .inr rfl, fun hd => ⟨((h.good b).delayed hd).1, rfl⟩,
      (h.good b).busy, fun q hq => nomatch hkeeper.symm.trans hq⟩
  | bdwrite p b =>
    obtain ⟨⟨-, hkeeper⟩, hstep⟩ := guard_bind_eq_some hstep
    cases hstep
    have hx : Good { s.buf b with bFlags := (s.buf b).bFlags ||| (B_DELWRI ||| B_DONE) } :=
      ⟨fun _ => .inr hproper, fun _ => ⟨flag_or_right (by decide), hproper⟩,
        fun _ => flag_or_left (h.busy_of_process hkeeper), fun q hq => nomatch hkeeper.symm.trans hq⟩
    exact (h.set (h.not_mem_of_process hkeeper) hx).brelse (h.not_mem_of_process hkeeper)
  | bwrite p b =>
    obtain ⟨⟨-, hkeeper⟩, hstep⟩ := guard_bind_eq_some hstep
    cases hstep
    have hself : s.setFlags b (s.buf b).bFlags = s := by
      unfold Buffers.setFlags Buffers.set
      rw [Function.update_eq_self]
    rw [← hself]
    exact h.bwrite (h.not_mem_of_process hkeeper) hproper (h.busy_of_process hkeeper)
      (fun q hq => nomatch hkeeper.symm.trans hq) p
  | bawrite p b =>
    obtain ⟨⟨-, hkeeper⟩, hstep⟩ := guard_bind_eq_some hstep
    cases hstep
    exact h.bwrite (h.not_mem_of_process hkeeper) hproper (flag_or_left (h.busy_of_process hkeeper))
      (fun q hq => nomatch hkeeper.symm.trans hq) p
  | written p =>
    dsimp only [Buffers.exec] at hstep
    split at hstep
    · next b hcall =>
      obtain ⟨hdone, hstep⟩ := guard_bind_eq_some hstep
      cases hstep
      have hnot : b ∉ s.queue := h.not_mem fun q hq =>
        absurd (((h.good b).device q hq).1.symm.trans hdone) Bool.false_ne_true
      have hqueue : (s.getError b p).queue = s.queue := by
        unfold Buffers.getError
        split <;> rfl
      exact ((h.getError b p).brelse (by rw [hqueue]; exact hnot)).setCall p _
    · cases hstep
  | flush p b =>
    obtain ⟨⟨hbusy, hdelwri⟩, hstep⟩ := guard_bind_eq_some hstep
    cases hstep
    have hfree : (s.buf b).keeper = .free := by
      by_contra hne
      exact hbusy ((h.good b).busy hne)
    exact h.bwrite (h.not_mem fun q hq => nomatch hfree.symm.trans hq) ((h.good b).delayed hdelwri).2
      (flag_or_right (by decide)) (fun q hq => nomatch hfree.symm.trans hq) p
  | interrupt isError => exact h.interrupt hstep

/-- What a failed transfer has left is returned as it is. -/
theorem dishonest_of_not_fresh (hfresh : ¬Fresh s (.bread p a b)) (hstep : s.Step (.bread p a b) s') :
    ∃ r ∈ s'.returned, ¬Honest r := by
  obtain ⟨ha, hd, -, hinvalid⟩ := not_not.mp hfresh
  obtain ⟨-, hstep⟩ := guard_bind_eq_some hstep
  obtain ⟨t, hget, hstep⟩ := Option.bind_eq_some_iff.mp hstep
  rcases (getBlk_cases hget).2 with ⟨-, rfl⟩ | ⟨hne, -⟩
  · rw [set_self, if_pos (flag_or_left hd)] at hstep
    cases hstep
    refine ⟨_, List.mem_append_right _ (.head _), ?_⟩
    rintro (hvalid | hreported)
    · rw [set_self] at hvalid
      exact absurd (hinvalid.symm.trans hvalid) Bool.false_ne_true
    · exact absurd hreported Bool.false_ne_true
  · exact absurd ha hne

/-- **Errors of reads over a run.**  As long as no `Bread` finds what a failed transfer has left, each
buffer that is returned is valid, or the error is reported; and a further `Bread` is answered in this
way exactly if it does not find such a buffer. -/
theorem read_run (hrun : Runs Buffers.Step (fun s e => Proper s e ∧ Fresh s e) Buffers.boot s) :
    (∀ r ∈ s.returned, Honest r) ∧ ∀ p a b s', s.Step (.bread p a b) s' →
      ((∀ r ∈ s'.returned, Honest r) ↔ Fresh s (.bread p a b)) := by
  have h : Sound s := hrun.invariant (fun _ _ _ h hok hstep => h.step hok.1 hok.2 hstep) sound_boot
  refine ⟨h.honest, fun p a b s' hstep => ⟨fun hall => ?_, fun hfresh => ?_⟩⟩
  · by_contra hno
    obtain ⟨r, hr, hdishonest⟩ := dishonest_of_not_fresh hno hstep
    exact hdishonest (hall r hr)
  · exact (h.step (e := .bread p a b) trivial hfresh hstep).honest

/-! ### One buffer and one process -/

/-- The read of a sector that the disk does not have is reported. -/
theorem read_run_refused : ∃ s : Buffers (Fin 1) Unit,
    s.returned = [⟨(), ⟨0, Disk.NSECTOR⟩, 0, false, true⟩] ∧ ∀ r ∈ s.returned, Honest r := by
  have hrun : Runs Buffers.Step (fun s e => Proper s e ∧ Fresh s e) (Buffers.boot : Buffers (Fin 1) Unit) _ :=
    .tail (.tail (.refl _) (l := .bread () ⟨0, Disk.NSECTOR⟩ 0) ⟨trivial, fun h => absurd h.1 (by decide)⟩ rfl)
      (l := .ioWait ()) ⟨trivial, trivial⟩ rfl
  exact ⟨_, rfl, (read_run hrun).1⟩

/-- A block is read and given back, all attempts of the disk fail, and the block is read again. -/
def readAgain : List (Buffers.Event (Fin 1) Unit) :=
  [.bread () ⟨0, 1024⟩ 0] ++ List.replicate 11 (.interrupt true) ++
    [.ioWait (), .brelse () 0, .bread () ⟨0, 1024⟩ 0]

/-- **A failed read is remembered as data.**  The second `Bread` returns the buffer of the first one,
and reports nothing. -/
theorem not_reported : ∃ s, readAgain.foldlM Buffers.exec Buffers.boot = some s ∧
    s.returned = [⟨(), ⟨0, 1024⟩, 0, false, true⟩, ⟨(), ⟨0, 1024⟩, 0, false, false⟩] :=
  ⟨_, rfl, rfl⟩

end Cache
end UnixV6pp
