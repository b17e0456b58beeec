import UnixV6pp.Dev.Request
import UnixV6pp.Lib.Links
import UnixV6pp.Lib.Runs
import Mathlib.Data.List.Flatten

/-!
# The queue of disk requests

However processes and interrupts follow each other, the disk is given the requests in
the order in which they were queued, one at a time, and finishes each of them once.

* `Linked` — how the buffers are linked.
* `Served` — what became of a request, attempt by attempt.
* `Accounted` — what has happened so far, request by request.
* `queue_run` — **every run keeps both.**
-/

namespace UnixV6pp
namespace Disk

open Buf Flags Links

variable {ι : Type} [DecidableEq ι] {s s' : Disk ι} {Q : List ι} {b : ι}

/-! ### The links -/

/-- The places of the ring of free buffers. -/
def freePlaces (s : Disk ι) : Set (Place ι) :=
  {p | p = .bFreeList ∨ ∃ b, p = .buf b ∧ s.holder b = .free}

/-- The queue holds these requests, and the free buffers are linked to a ring. -/
structure Linked (s : Disk ι) (Q : List ι) : Prop where
  chain : Chain s.avForw s.dActf (Q.map .buf)
  last : ∀ b, Q.getLast? = some b → s.dActl = some (.buf b)
  nodup : Q.Nodup
  mem : ∀ b, b ∈ Q ↔ s.holder b = .queue
  ring : Ring s.avForw s.avBack s.freePlaces
  entering : ∀ b, s.holder b = .entering → s.avForw (.buf b) = none
  fresh : ∀ b, s.holder b = .entering ∨ s.holder b = .queue → flag (s.bFlags b) B_ERROR = false

omit [DecidableEq ι] in
theorem mem_freePlaces : .buf b ∈ s.freePlaces ↔ s.holder b = .free := by
  constructor
  · rintro (h | ⟨c, h, hc⟩)
    · cases h
    · cases h
      exact hc
  · exact fun h => .inr ⟨b, rfl, h⟩

omit [DecidableEq ι] in
theorem bFreeList_mem : .bFreeList ∈ s.freePlaces := .inl rfl

theorem freePlaces_free (h : s'.holder = Function.update s.holder b .free) :
    s'.freePlaces = insert (.buf b) s.freePlaces := by
  ext p
  rw [Set.mem_insert_iff]
  cases p with
  | bFreeList => exact ⟨fun _ => .inr bFreeList_mem, fun _ => bFreeList_mem⟩
  | buf c =>
    rw [mem_freePlaces, mem_freePlaces, h, Place.buf.injEq, Function.update_apply]
    split
    · next hc => exact ⟨fun _ => .inl hc, fun _ => rfl⟩
    · next hc => exact ⟨.inr, fun h => h.resolve_left hc⟩

theorem freePlaces_taken {holder : Holder} (hne : holder ≠ .free)
    (h : s'.holder = Function.update s.holder b holder) :
    s'.freePlaces = s.freePlaces \ {.buf b} := by
  ext p
  rw [Set.mem_sdiff, Set.mem_singleton_iff]
  cases p with
  | bFreeList => exact ⟨fun _ => ⟨bFreeList_mem, nofun⟩, fun _ => bFreeList_mem⟩
  | buf c =>
    rw [mem_freePlaces, mem_freePlaces, h, Place.buf.injEq, Function.update_apply]
    split
    · next hc => exact ⟨fun h => absurd h hne, fun h => absurd hc h.2⟩
    · next hc => exact ⟨fun h => ⟨h, hc⟩, fun h => h.1⟩

/-- A step that leaves the queue and the buffers in it alone. -/
theorem Linked.of_aside (h : Linked s Q) (hactf : s'.dActf = s.dActf) (hactl : s'.dActl = s.dActl)
    (hother : ∀ c, c ≠ b → s'.holder c = s.holder c) (hb : s.holder b ≠ .queue)
    (hb' : s'.holder b ≠ .queue)
    (hring : Ring s'.avForw s'.avBack s'.freePlaces)
    (hforw : ∀ c, c ≠ b → s.holder c ≠ .free → s'.avForw (.buf c) = s.avForw (.buf c))
    (hflags : ∀ c, c ≠ b → s'.bFlags c = s.bFlags c)
    (hentering : s'.holder b = .entering →
      s'.avForw (.buf b) = none ∧ flag (s'.bFlags b) B_ERROR = false) : Linked s' Q := by
  have hne : ∀ c ∈ Q, c ≠ b := by
    rintro c hc rfl
    exact hb ((h.mem c).1 hc)
  constructor
  · rw [hactf]
    refine h.chain.congr fun p hp => ?_
    obtain ⟨c, hc, rfl⟩ := List.mem_map.1 hp
    exact hforw c (hne c hc) (by rw [(h.mem c).1 hc]; decide)
  · rw [hactl]
    exact h.last
  · exact h.nodup
  · intro c
    by_cases hc : c = b
    · subst hc
      exact ⟨fun hmem => absurd ((h.mem c).1 hmem) hb, fun hq => absurd hq hb'⟩
    · rw [hother c hc]
      exact h.mem c
  · exact hring
  · intro c hc
    by_cases hcb : c = b
    · subst hcb
      exact (hentering hc).1
    · rw [hother c hcb] at hc
      rw [hforw c hcb (by rw [hc]; decide)]
      exact h.entering c hc
  · intro c hc
    by_cases hcb : c = b
    · subst hcb
      exact (hentering (hc.resolve_right hb')).2
    · rw [hother c hcb] at hc
      rw [hflags c hcb]
      exact h.fresh c hc

/-- All that is not about single buffers and their links. -/
def record (s : Disk ι) : ℕ × ℕ × List ι × List ι × List Bool × List (ι × Bool) :=
  (s.dActive, s.dErrcnt, s.queued, s.started, s.results, s.completed)

/-- A buffer that is nobody's is given back. -/
theorem brelse_spec (h : Linked s Q) (hb : s.holder b = .process) :
    ∃ s', s.brelse b = some s' ∧ Linked s' Q ∧ s'.record = s.record := by
  obtain ⟨last, hlastMem, hlast, -⟩ := h.ring.back _ bFreeList_mem
  have hbS : .buf b ∉ s.freePlaces := by
    rw [mem_freePlaces, hb]
    decide
  unfold brelse
  change ∃ s', (s.avBack .bFreeList).bind _ = some s' ∧ _
  rw [hlast]
  refine ⟨_, rfl, ?_, rfl⟩
  apply h.of_aside (b := b)
  · rfl
  · rfl
  · intro c hc
    exact Function.update_of_ne hc _ _
  · rw [hb]
    decide
  · change Function.update s.holder b Holder.free b ≠ _
    rw [Function.update_self]
    decide
  · have hring := h.ring.insert bFreeList_mem hbS hlast
    convert hring using 1
    · rfl
    · change Function.update (Function.update s.avBack _ (s.avBack .bFreeList)) _ _ = _
      rw [hlast]
    · exact freePlaces_free rfl
  · intro c hc hfree
    have hcl : (Place.buf c) ≠ last := by
      rintro rfl
      exact hfree (mem_freePlaces.1 hlastMem)
    have hcb : (Place.buf c) ≠ .buf b := fun e => hc (Place.buf.inj e)
    change Function.update (Function.update s.avForw last _) (.buf b) _ (.buf c) = _
    rw [Function.update_of_ne hcb, Function.update_of_ne hcl]
  · intro c hc
    exact Function.update_of_ne hc _ _
  · change Function.update s.holder b Holder.free b = _ → _
    rw [Function.update_self]
    intro hfree
    cases hfree

/-- A free buffer is taken. -/
theorem notAvail_spec (h : Linked s Q) (hb : s.holder b = .free) :
    ∃ s', s.notAvail b = some s' ∧ Linked s' Q ∧ s'.record = s.record := by
  have hbS := mem_freePlaces.2 hb
  obtain ⟨x, hxS, hx, hnx⟩ := h.ring.back _ hbS
  obtain ⟨y, hyS, hy, -⟩ := h.ring.forw _ hbS
  -- the pointer of `b` itself is read again after the first update
  have hself : Function.update s.avForw x (s.avForw (.buf b)) (.buf b) = some y := by
    rw [Function.update_apply]
    split
    · exact hy
    · exact hy
  unfold notAvail
  change ∃ s', (s.avBack (.buf b)).bind _ = some s' ∧ _
  rw [hx]
  change ∃ s', (Function.update s.avForw x (s.avForw (.buf b)) (.buf b)).bind _ = some s' ∧ _
  rw [hself]
  refine ⟨_, rfl, ?_, rfl⟩
  apply h.of_aside (b := b)
  · rfl
  · rfl
  · intro c hc
    exact Function.update_of_ne hc _ _
  · rw [hb]
    decide
  · change Function.update s.holder b Holder.process b ≠ _
    rw [Function.update_self]
    decide
  · have hring := h.ring.remove hbS hx hy
    convert hring using 1
    · change Function.update s.avForw x (s.avForw (.buf b)) = _
      rw [hy]
    · change Function.update s.avBack y (s.avBack (.buf b)) = _
      rw [hx]
    · exact freePlaces_taken (by decide) rfl
  · intro c hc hfree
    refine Function.update_of_ne ?_ _ _
    rintro rfl
    exact hfree (mem_freePlaces.1 hxS)
  · intro c hc
    exact Function.update_of_ne hc _ _
  · change Function.update s.holder b Holder.process b = _ → _
    rw [Function.update_self]
    intro hprocess
    cases hprocess

/-- Only what a process may do anyway has changed about a buffer that it has. -/
theorem Linked.of_held (h : Linked s Q) (hb : s.holder b = .process)
    (hactf : s'.dActf = s.dActf) (hactl : s'.dActl = s.dActl) (hforw : s'.avForw = s.avForw)
    (hback : s'.avBack = s.avBack) (hholder : s'.holder = s.holder)
    (hflags : ∀ c, c ≠ b → s'.bFlags c = s.bFlags c) : Linked s' Q := by
  apply h.of_aside (b := b) hactf hactl
  · intro c _
    rw [hholder]
  · rw [hb]
    decide
  · rw [hholder, hb]
    decide
  · unfold freePlaces
    rw [hforw, hback, hholder]
    exact h.ring
  · intro c _ _
    rw [hforw]
  · exact hflags
  · rw [hholder, hb]
    intro he
    cases he

theorem Linked.setFlags (h : Linked s Q) (hb : s.holder b = .process) (flags : UInt32) :
    Linked (s.setFlags b flags) Q := by
  apply h.of_held hb
  · rfl
  · rfl
  · rfl
  · rfl
  · rfl
  · exact fun c hc => Function.update_of_ne hc _ _

/-- A request is finished. -/
theorem ioDone_spec (h : Linked s Q) (hb : s.holder b = .process) :
    ∃ s', s.ioDone b = some s' ∧ Linked s' Q ∧ s'.record = s.record := by
  have hdone := h.setFlags hb (s.bFlags b ||| B_DONE)
  unfold ioDone
  dsimp only
  split
  · exact brelse_spec hdone hb
  · refine ⟨_, rfl, ?_, rfl⟩
    have hholder : ∀ r : Disk ι, r.holder b = .process → r.setHolder b .process = r := by
      intro r hr
      unfold setHolder
      rw [← hr, Function.update_eq_self]
    rw [hholder]
    · exact hdone.setFlags hb _
    · exact hb

/-- `Strategy` up to where interrupts are disabled. -/
theorem strategy_spec (h : Linked s Q) (hb : s.holder b = .process) (blkno : ℤ)
    (hfresh : flag (s.bFlags b) B_ERROR = false) :
    ∃ s', s.strategy b blkno = some s' ∧ Linked s' Q ∧ s'.record = s.record := by
  have hbS : ∀ p ∈ s.freePlaces, p ≠ .buf b := by
    rintro p hp rfl
    rw [mem_freePlaces, hb] at hp
    cases hp
  unfold strategy
  split
  · exact ioDone_spec (h.setFlags hb _) hb
  · refine ⟨_, rfl, ?_, rfl⟩
    apply h.of_aside (b := b)
    · rfl
    · rfl
    · intro c hc
      exact Function.update_of_ne hc _ _
    · rw [hb]
      decide
    · change Function.update s.holder b Holder.entering b ≠ _
      rw [Function.update_self]
      decide
    · rw [freePlaces_taken (s := s) (by decide) rfl, Set.sdiff_singleton_eq_self fun hp => hbS _ hp rfl]
      exact h.ring.congr (fun p hp => Function.update_of_ne (hbS p hp) _ _) fun _ _ => rfl
    · intro c hc _
      exact Function.update_of_ne (fun e => hc (Place.buf.inj e)) _ _
    · intro c _
      rfl
    · intro _
      exact ⟨Function.update_self .., hfresh⟩

/-- Whether the disk is at work. -/
def busy (Q : List ι) : ℕ := if Q = [] then 0 else 1

omit [DecidableEq ι] in
/-- The first request is started. -/
theorem start_spec (h : Linked s Q) (hidle : s.dActive = 0) :
    ∃ s', s.start = some s' ∧ Linked s' Q ∧ s'.record = (busy Q, s.dErrcnt, s.queued,
      s.started ++ Q.head?.toList, s.results, s.completed) := by
  cases Q with
  | nil =>
    have hactf : s.dActf = none := h.chain
    unfold start
    rw [hactf]
    refine ⟨s, rfl, h, ?_⟩
    unfold record busy
    rw [hidle, if_pos rfl, List.head?_nil, Option.toList_none, List.append_nil]
  | cons b Q =>
    have hactf : s.dActf = some (.buf b) := h.chain.1
    unfold start
    rw [hactf]
    refine ⟨_, rfl, ?_, ?_⟩
    · exact ⟨⟨rfl, h.chain.2⟩, h.last, h.nodup, h.mem, h.ring, h.entering, h.fresh⟩
    · unfold record busy
      rw [if_neg (List.cons_ne_nil b Q)]
      change (s.dActive + 1, _) = _
      rw [hidle]
      rfl

/-- A request is linked behind the others. -/
theorem linkRequest_spec (h : Linked s Q) (hb : s.holder b = .entering) :
    ∃ s', s.linkRequest b = some s' ∧ s'.record = s.record ∧
      Linked ({ s' with dActl := some (.buf b), queued := s'.queued ++ [b] }.setHolder b .queue)
        (Q ++ [b]) := by
  have hbQ : b ∉ Q := by
    rw [h.mem, hb]
    decide
  have hnull := h.entering b hb
  have hnodup : (Q ++ [b]).Nodup := by
    rw [List.nodup_append_comm]
    exact List.nodup_cons.2 ⟨hbQ, h.nodup⟩
  have hplaces : ∀ r : Disk ι, r.holder = Function.update s.holder b .queue →
      r.freePlaces = s.freePlaces := by
    intro r hr
    rw [freePlaces_taken (by decide) hr]
    apply Set.sdiff_singleton_eq_self
    rw [mem_freePlaces, hb]
    decide
  -- all but the chain and the ring is the same in both cases
  have hrest : ∀ r : Disk ι, r.dActl = some (.buf b) → r.holder = Function.update s.holder b .queue →
      r.bFlags = s.bFlags → Chain r.avForw r.dActf ((Q ++ [b]).map .buf) →
      Ring r.avForw r.avBack s.freePlaces →
      (∀ c, c ≠ b → s.holder c = .entering → r.avForw (.buf c) = s.avForw (.buf c)) →
      Linked r (Q ++ [b]) := by
    intro r hactl hholder hflags hchain hring hforw
    refine ⟨hchain, ?_, hnodup, ?_, ?_, ?_, ?_⟩
    · intro c hc
      rw [List.getLast?_concat, Option.some.injEq] at hc
      rw [hactl, hc]
    · intro c
      rw [List.mem_append, List.mem_singleton, hholder, Function.update_apply]
      split
      · next hcb => exact ⟨fun _ => rfl, fun _ => .inr hcb⟩
      · next hcb => exact ⟨fun hc => (h.mem c).1 (hc.resolve_right hcb), fun hc => .inl ((h.mem c).2 hc)⟩
    · rw [hplaces r hholder]
      exact hring
    · intro c hc
      rw [hholder, Function.update_apply] at hc
      split at hc
      · cases hc
      · next hcb =>
        rw [hforw c hcb hc]
        exact h.entering c hc
    · intro c hc
      rw [hflags]
      rw [hholder, Function.update_apply] at hc
      split at hc
      · next hcb =>
        rw [hcb]
        exact h.fresh b (.inl hb)
      · exact h.fresh c hc
  unfold linkRequest
  rcases List.eq_nil_or_concat Q with rfl | ⟨Q₀, a, rfl⟩
  · have hactf : s.dActf = none := h.chain
    rw [if_pos hactf]
    refine ⟨_, rfl, rfl, ?_⟩
    apply hrest
    · rfl
    · rfl
    · rfl
    · exact ⟨rfl, hnull⟩
    · exact h.ring
    · exact fun _ _ _ => rfl
  · have hactl : s.dActl = some (.buf a) := h.last a (by rw [List.concat_eq_append, List.getLast?_concat])
    rw [List.concat_eq_append] at *
    have hactf : s.dActf ≠ none := by
      rw [h.chain.eq_head]
      simp
    rw [if_neg hactf, hactl]
    refine ⟨_, rfl, rfl, ?_⟩
    have hinj : Function.Injective (Place.buf : ι → Place ι) := fun _ _ e => Place.buf.inj e
    have haq : s.holder a = .queue := (h.mem a).1 (by simp)
    apply hrest
    · rfl
    · rfl
    · rfl
    · have hchain := h.chain
      have hnd := h.nodup.map hinj
      rw [List.map_append, List.map_singleton] at hchain hnd
      rw [List.map_append, List.map_append, List.map_singleton, List.map_singleton]
      refine hchain.snoc hnd ?_ hnull
      rw [← List.map_singleton, ← List.map_append, List.mem_map_of_injective hinj]
      exact hbQ
    · refine h.ring.congr (fun p hp => Function.update_of_ne ?_ _ _) fun _ _ => rfl
      rintro rfl
      rw [mem_freePlaces, haq] at hp
      cases hp
    · intro c _ hc
      refine Function.update_of_ne ?_ _ _
      intro e
      rw [Place.buf.inj e, haq] at hc
      cases hc

/-! ### What has happened so far -/

/-- What became of a request: so many attempts failed, and then one succeeded or it was given up
with `B_ERROR`. -/
structure Served (ι : Type) where
  buf : ι
  failures : ℕ
  error : Bool

namespace Served

/-- A request succeeds after at most ten failures, or it is given up after eleven. -/
def Right (r : Served ι) : Prop := if r.error then r.failures = 11 else r.failures ≤ 10

/-- The results of its attempts. -/
def results (r : Served ι) : List Bool :=
  List.replicate r.failures true ++ if r.error then [] else [false]

/-- Its attempts. -/
def attempts (r : Served ι) : List ι := List.replicate r.results.length r.buf

end Served

/-- Request by request: those that are done, in this order, the one the disk is at work on, which
has failed `dErrcnt` times so far, and those that wait. -/
structure Accounted (s : Disk ι) (Q : List ι) : Prop where
  active : s.dActive = busy Q
  errcnt : s.dErrcnt ≤ 10
  idle : Q = [] → s.dErrcnt = 0
  served : ∃ done : List (Served ι), (∀ r ∈ done, r.Right) ∧
    s.queued = done.map Served.buf ++ Q ∧
    s.completed = done.map (fun r => (r.buf, r.error)) ∧
    s.results = done.flatMap Served.results ++ List.replicate s.dErrcnt true ∧
    s.started = done.flatMap Served.attempts ++
      Q.head?.toList.flatMap (List.replicate (s.dErrcnt + 1))

omit [DecidableEq ι] in
theorem Accounted.congr (h : Accounted s Q) (hrecord : s'.record = s.record) : Accounted s' Q := by
  unfold record at hrecord
  simp only [Prod.mk.injEq] at hrecord
  obtain ⟨h1, h2, h3, h4, h5, h6⟩ := hrecord
  constructor
  · rw [h1]
    exact h.active
  · rw [h2]
    exact h.errcnt
  · rw [h2]
    exact h.idle
  · rw [h2, h3, h4, h5, h6]
    exact h.served

/-- What holds at every point where an interrupt can come. -/
def Ordered (s : Disk ι) : Prop := ∃ Q, Linked s Q ∧ Accounted s Q

/-- A request is queued, and started if there is no other one. -/
theorem enqueue_spec (h : Linked s Q) (ha : Accounted s Q) (hb : s.holder b = .entering) :
    ∃ s', s.enqueue b = some s' ∧ Linked s' (Q ++ [b]) ∧ Accounted s' (Q ++ [b]) := by
  obtain ⟨r, hr, hrecord, hlinked⟩ := linkRequest_spec h hb
  obtain ⟨done, hright, hqueued, hcompleted, hresults, hstarted⟩ := ha.served
  unfold record at hrecord
  simp only [Prod.mk.injEq] at hrecord
  obtain ⟨h1, h2, h3, h4, h5, h6⟩ := hrecord
  have hbusy : busy (Q ++ [b]) = 1 := if_neg (by simp)
  unfold enqueue
  rw [hr]
  dsimp only [Option.bind_eq_bind, Option.bind_some]
  change ∃ s', (if r.dActive = 0 then _ else _) = some s' ∧ _
  by_cases hQ : Q = []
  · subst hQ
    -- the disk was idle
    have herr := ha.idle rfl
    have hidle : r.dActive = 0 := h1.trans ha.active
    rw [if_pos hidle]
    obtain ⟨s', hs', hl, hrec⟩ := start_spec hlinked hidle
    refine ⟨s', hs', hl, ?_⟩
    unfold record at hrec
    simp only [Prod.mk.injEq] at hrec
    obtain ⟨g1, g2, g3, g4, g5, g6⟩ := hrec
    change s'.dErrcnt = r.dErrcnt at g2
    rw [h2, herr] at g2
    refine ⟨g1, ?_, fun h => absurd h (by simp), done, hright, ?_, ?_, ?_, ?_⟩
    · rw [g2]
      exact Nat.zero_le _
    · rw [g3]
      change r.queued ++ [b] = _
      rw [h3, hqueued, List.append_nil, List.nil_append]
    · rw [g6]
      exact h6.trans hcompleted
    · rw [g5, g2]
      change r.results = _
      rw [h5, hresults, herr]
    · rw [g4, g2]
      change r.started ++ [b] = _
      rw [h4, hstarted]
      simp
  · have hactive : r.dActive = 1 := (h1.trans ha.active).trans (if_neg hQ)
    rw [if_neg (by rw [hactive]; decide)]
    refine ⟨_, rfl, hlinked, ?_, ?_, fun h => absurd h (by simp), done, hright, ?_, ?_, ?_, ?_⟩
    · exact hactive.trans hbusy.symm
    · change r.dErrcnt ≤ _
      rw [h2]
      exact ha.errcnt
    · change r.queued ++ [b] = _
      rw [h3, hqueued, List.append_assoc]
    · exact h6.trans hcompleted
    · change r.results = _ ++ List.replicate r.dErrcnt true
      rw [h5, h2, hresults]
    · change r.started = _ ++ List.flatMap (List.replicate (r.dErrcnt + 1)) _
      rw [h4, h2, hstarted, List.head?_append_of_ne_nil Q hQ]

/-- The first request leaves the queue. -/
theorem Linked.pop (h : Linked s (b :: Q)) (hactf : s'.dActf = s.avForw (.buf b))
    (hactl : s'.dActl = s.dActl) (hforw : s'.avForw = s.avForw) (hback : s'.avBack = s.avBack)
    (hholder : s'.holder = Function.update s.holder b .process)
    (hflags : ∀ c, c ≠ b → s'.bFlags c = s.bFlags c) : Linked s' Q := by
  have hbQ := (List.nodup_cons.1 h.nodup).1
  have hq : s.holder b = .queue := (h.mem b).1 List.mem_cons_self
  constructor
  · rw [hactf, hforw]
    exact h.chain.2
  · intro c hc
    rw [hactl]
    refine h.last c ?_
    rw [List.getLast?_cons, hc]
    rfl
  · exact (List.nodup_cons.1 h.nodup).2
  · intro c
    rw [hholder, Function.update_apply]
    split
    · next hcb =>
      subst hcb
      exact ⟨fun hc => absurd hc hbQ, fun hc => by cases hc⟩
    · next hcb =>
      rw [← h.mem c, List.mem_cons]
      exact ⟨.inr, fun hc => hc.resolve_left hcb⟩
  · rw [hforw, hback, freePlaces_taken (s := s) (by decide) hholder, Set.sdiff_singleton_eq_self]
    · exact h.ring
    · rw [mem_freePlaces, hq]
      decide
  · intro c hc
    rw [hholder, Function.update_apply] at hc
    split at hc
    · cases hc
    · rw [hforw]
      exact h.entering c hc
  · intro c hc
    rw [hholder, Function.update_apply] at hc
    split at hc
    · rcases hc with hc | hc <;> cases hc
    · next hcb =>
      rw [hflags c hcb]
      exact h.fresh c hc

omit [DecidableEq ι] in
/-- An attempt has failed, and the next one is made. -/
theorem retry_spec (h : Linked s (b :: Q)) (ha : Accounted s (b :: Q)) (herr : s.dErrcnt + 1 ≤ 10) :
    ∃ s', { s with
        dActive := 0, results := s.results ++ [true], dErrcnt := s.dErrcnt + 1 }.start = some s' ∧
      Linked s' (b :: Q) ∧ Accounted s' (b :: Q) := by
  obtain ⟨done, hright, hqueued, hcompleted, hresults, hstarted⟩ := ha.served
  have hlinked : Linked { s with
      dActive := 0, results := s.results ++ [true], dErrcnt := s.dErrcnt + 1 } (b :: Q) :=
    ⟨h.chain, h.last, h.nodup, h.mem, h.ring, h.entering, h.fresh⟩
  obtain ⟨s', hs', hl, hrec⟩ := start_spec hlinked rfl
  unfold record at hrec
  simp only [Prod.mk.injEq] at hrec
  obtain ⟨g1, g2, g3, g4, g5, g6⟩ := hrec
  refine ⟨s', hs', hl, g1, ?_, fun hQ => absurd hQ (List.cons_ne_nil b Q), done, hright, ?_, ?_, ?_, ?_⟩
  · rw [g2]
    exact herr
  · exact g3.trans hqueued
  · exact g6.trans hcompleted
  · rw [g5, g2]
    rw [hresults, List.append_assoc, ← List.replicate_succ']
  · rw [g4, g2]
    rw [hstarted, List.append_assoc]
    simp [List.replicate_succ']

/-- A request is finished, and the next one is started. -/
theorem finish_spec (h : Linked s (b :: Q)) (ha : Accounted s (b :: Q)) {r : Served ι}
    (hbuf : r.buf = b) (hright : r.Right)
    (hresults : r.results = List.replicate s.dErrcnt true ++ [r.error])
    (hactl : s'.dActl = s.dActl) (hforw : s'.avForw = s.avForw) (hback : s'.avBack = s.avBack)
    (hholder : s'.holder = s.holder) (hflags : ∀ c, c ≠ b → s'.bFlags c = s.bFlags c)
    (herror : flag (s'.bFlags b) B_ERROR = r.error)
    (hrecord : s'.record = (0, s'.dErrcnt, s.queued, s.started, s.results ++ [r.error],
      s.completed)) : ∃ s'', s'.finish b = some s'' ∧ Linked s'' Q ∧ Accounted s'' Q := by
  obtain ⟨done, hdone, hqueued, hcompleted, hres, hstarted⟩ := ha.served
  unfold record at hrecord
  simp only [Prod.mk.injEq] at hrecord
  obtain ⟨e1, -, e3, e4, e5, e6⟩ := hrecord
  have hpop : Linked ({ s' with
      dErrcnt := 0
      dActf := s'.avForw (.buf b)
      completed := s'.completed ++ [(b, s'.bFlags b &&& B_ERROR != 0)] }.setHolder b .process) Q := by
    apply h.pop
    · exact congrFun hforw _
    · exact hactl
    · exact hforw
    · exact hback
    · change Function.update s'.holder b _ = _
      rw [hholder]
    · exact hflags
  obtain ⟨s₁, hs₁, hl₁, hrec₁⟩ := ioDone_spec hpop (Function.update_self ..)
  unfold record at hrec₁
  simp only [Prod.mk.injEq] at hrec₁
  obtain ⟨f1, f2, f3, f4, f5, f6⟩ := hrec₁
  obtain ⟨s₂, hs₂, hl, hrec⟩ := start_spec hl₁ (f1.trans e1)
  unfold record at hrec
  simp only [Prod.mk.injEq] at hrec
  obtain ⟨g1, g2, g3, g4, g5, g6⟩ := hrec
  have herr : s₂.dErrcnt = 0 := g2.trans f2
  refine ⟨s₂, ?_, hl, g1, ?_, fun _ => herr, done ++ [r], ?_, ?_, ?_, ?_, ?_⟩
  · unfold finish
    dsimp only [Option.bind_eq_bind]
    rw [hs₁]
    exact hs₂
  · rw [herr]
    exact Nat.zero_le _
  · intro x hx
    rcases List.mem_append.1 hx with hx | hx
    · exact hdone x hx
    · rw [List.mem_singleton.1 hx]
      exact hright
  · rw [g3, f3]
    change s'.queued = _
    rw [e3, hqueued, List.map_append, List.map_singleton, hbuf, List.append_assoc]
    rfl
  · rw [g6, f6]
    change s'.completed ++ [(b, flag (s'.bFlags b) B_ERROR)] = _
    rw [e6, hcompleted, herror, List.map_append, List.map_singleton, hbuf]
  · rw [g5, f5, herr]
    change s'.results = _
    rw [e5, hres, List.flatMap_append, List.flatMap_singleton, hresults, List.append_assoc,
      List.replicate_zero, List.append_nil]
  · rw [g4, f4, herr]
    change s'.started ++ _ = _
    have hattempts : r.attempts = List.replicate (s.dErrcnt + 1) b := by
      unfold Served.attempts
      rw [hresults, hbuf, List.length_append, List.length_replicate, List.length_singleton]
    have hhead : Q.head?.toList.flatMap (List.replicate 1) = Q.head?.toList := by
      cases Q.head? <;> rfl
    rw [e4, hstarted, List.flatMap_append, List.flatMap_singleton, hattempts, hhead]
    simp

/-- **An interrupt.** -/
theorem ataHandler_spec (h : Linked s Q) (ha : Accounted s Q) (isError : Bool) :
    ∃ s', s.ataHandler isError = some s' ∧ s'.Ordered := by
  unfold ataHandler
  cases Q with
  | nil =>
    rw [if_pos (ha.active.trans (if_pos rfl))]
    exact ⟨s, rfl, [], h, ha⟩
  | cons b Q =>
    have hactive : s.dActive = 1 := ha.active.trans (if_neg (List.cons_ne_nil b Q))
    have htarget : target s.dActf = some b := congrArg target h.chain.1
    have hfresh := h.fresh b (.inr ((h.mem b).1 List.mem_cons_self))
    rw [if_neg (by rw [hactive]; decide), htarget]
    change ∃ s', (if isError = true then if s.dErrcnt + 1 ≤ 10 then _ else _ else _) = some s' ∧ _
    cases isError with
    | false =>
      rw [if_neg Bool.false_ne_true]
      have hfinish : ∃ s', ({ s with dActive := 0, results := s.results ++ [false] } : Disk ι).finish
          b = some s' ∧ Linked s' Q ∧ Accounted s' Q :=
        finish_spec (r := ⟨b, s.dErrcnt, false⟩) h ha rfl ha.errcnt rfl rfl rfl rfl rfl
          (fun _ _ => rfl) hfresh rfl
      obtain ⟨s', hs', hl, hacc⟩ := hfinish
      exact ⟨s', hs', Q, hl, hacc⟩
    | true =>
      rw [if_pos rfl]
      by_cases herr : s.dErrcnt + 1 ≤ 10
      · rw [if_pos herr]
        obtain ⟨s', hs', hl, hacc⟩ := retry_spec h ha herr
        exact ⟨s', hs', b :: Q, hl, hacc⟩
      · rw [if_neg herr]
        have heleven : s.dErrcnt + 1 = 11 := by
          have := ha.errcnt
          omega
        have hresults : (⟨b, s.dErrcnt + 1, true⟩ : Served ι).results =
            List.replicate s.dErrcnt true ++ [true] := by
          unfold Served.results
          rw [List.replicate_succ']
          exact List.append_nil _
        have hfinish : ∃ s', (({ s with
            dActive := 0
            results := s.results ++ [true]
            dErrcnt := s.dErrcnt + 1 } : Disk ι).setFlags b (s.bFlags b ||| B_ERROR)).finish b =
              some s' ∧ Linked s' Q ∧ Accounted s' Q := by
          refine finish_spec (r := ⟨b, s.dErrcnt + 1, true⟩) h ha rfl heleven hresults rfl rfl rfl rfl
            ?_ ?_ rfl
          · exact fun c hc => Function.update_of_ne hc _ _
          · change flag (Function.update s.bFlags b (s.bFlags b ||| B_ERROR) b) B_ERROR = true
            rw [Function.update_self]
            exact flag_or_right (by decide)
        obtain ⟨s', hs', hl, hacc⟩ := hfinish
        exact ⟨s', hs', Q, hl, hacc⟩

/-! ### Runs -/

theorem ordered_boot : (boot : Disk ι).Ordered := by
  refine ⟨[], ⟨rfl, nofun, List.nodup_nil, ?_, ?_, nofun, ?_⟩, rfl, Nat.zero_le _, fun _ => rfl, [],
    nofun, rfl, rfl, rfl, rfl⟩
  · exact fun b => ⟨fun h => absurd h List.not_mem_nil, nofun⟩
  · have hplaces : ∀ p ∈ (boot : Disk ι).freePlaces, p = .bFreeList := by
      rintro p (hp | ⟨b, -, hb⟩)
      · exact hp
      · cases hb
    constructor
    · intro p hp
      rw [hplaces p hp]
      exact ⟨.bFreeList, bFreeList_mem, rfl, rfl⟩
    · intro p hp
      rw [hplaces p hp]
      exact ⟨.bFreeList, bFreeList_mem, rfl, rfl⟩
  · rintro b (hb | hb) <;> cases hb

/-- **Every event** is possible, and keeps the order. -/
theorem Ordered.exec (h : s.Ordered) {e : Event ι} (he : s.Proper e) :
    ∃ s', s.exec e = some s' ∧ s'.Ordered := by
  obtain ⟨Q, hl, ha⟩ := h
  -- what leaves the record as it is
  have hquiet : ∀ {r : Option (Disk ι)}, (∃ s', r = some s' ∧ Linked s' Q ∧ s'.record = s.record) →
      ∃ s', r = some s' ∧ s'.Ordered := by
    rintro r ⟨s', hs', hl', hrecord⟩
    exact ⟨s', hs', Q, hl', ha.congr hrecord⟩
  cases e with
  | notAvail b => exact hquiet (notAvail_spec hl he)
  | brelse b => exact hquiet (brelse_spec hl he)
  | strategy b flags blkno =>
    obtain ⟨hb, -, herror⟩ := he
    apply hquiet
    apply strategy_spec (hl.setFlags hb flags) hb blkno
    change (Function.update s.bFlags b flags b &&& B_ERROR != 0) = false
    rw [Function.update_self, herror]
    rfl
  | enqueue b =>
    obtain ⟨s', hs', hl', ha'⟩ := enqueue_spec hl ha he
    exact ⟨s', hs', Q ++ [b], hl', ha'⟩
  | interrupt isError => exact ataHandler_spec hl ha isError

/-- **The order of the requests.**  Whatever processes and the disk do, at every point where an
interrupt can come: the requests that were queued are the ones that are done, in this order, and
the ones in the queue; what was started are the attempts of the ones that are done, one request
after the other, and those of the head of the queue; the results show that each request that is
done has succeeded after at most ten failures or was given up with `B_ERROR` after eleven; the
disk is active exactly if the queue is not empty; and whatever comes next is possible. -/
theorem queue_run (hrun : Runs Step Proper (boot : Disk ι) s) :
    ∃ Q, Chain s.avForw s.dActf (Q.map .buf) ∧ Q.Nodup ∧ (s.dActive ≠ 0 ↔ Q ≠ []) ∧
      (∃ done : List (Served ι), (∀ r ∈ done, r.Right) ∧
        s.queued = done.map Served.buf ++ Q ∧
        s.completed = done.map (fun r => (r.buf, r.error)) ∧
        s.results = done.flatMap Served.results ++ List.replicate s.dErrcnt true ∧
        s.started = done.flatMap Served.attempts ++
          Q.head?.toList.flatMap (List.replicate (s.dErrcnt + 1)) ∧
        s.dErrcnt ≤ 10 ∧ (Q = [] → s.dErrcnt = 0)) ∧
      ∀ e, s.Proper e → ∃ s', s.exec e = some s' := by
  have hordered : s.Ordered := by
    refine hrun.invariant (fun s e s' h he hstep => ?_) ordered_boot
    obtain ⟨s'', hs'', h''⟩ := h.exec he
    rw [← Option.some.inj (hs''.symm.trans hstep)]
    exact h''
  obtain ⟨Q, hl, ha⟩ := hordered
  obtain ⟨done, hright, hqueued, hcompleted, hresults, hstarted⟩ := ha.served
  refine ⟨Q, hl.chain, hl.nodup, ?_, ⟨done, hright, hqueued, hcompleted, hresults, hstarted,
    ha.errcnt, ha.idle⟩, fun e he => ?_⟩
  · rw [ha.active, busy]
    split <;> simp [*]
  · obtain ⟨s', hs', -⟩ := Ordered.exec ⟨Q, hl, ha⟩ he
    exact ⟨s', hs'⟩

/-- One request fails once, and then it succeeds. -/
theorem queue_run_retry : ∃ s : Disk Unit, s.completed = [((), false)] ∧ s.started = [(), ()] ∧
    ∃ Q, Chain s.avForw s.dActf (Q.map .buf) ∧ (s.dActive ≠ 0 ↔ Q ≠ []) := by
  have h₁ : Runs Step Proper (boot : Disk Unit) _ :=
    (Runs.refl _).tail (l := .strategy () B_BUSY 7) (by exact ⟨rfl, rfl, rfl⟩) rfl
  have h₂ : Runs Step Proper (boot : Disk Unit) _ := h₁.tail (l := .enqueue ()) (by exact rfl) rfl
  have h₃ : Runs Step Proper (boot : Disk Unit) _ := h₂.tail (l := .interrupt true) trivial rfl
  have h₄ : Runs Step Proper (boot : Disk Unit) _ := h₃.tail (l := .interrupt false) trivial rfl
  obtain ⟨Q, hchain, -, hactive, -⟩ := queue_run h₄
  exact ⟨_, rfl, rfl, Q, hchain, hactive⟩

end Disk
end UnixV6pp
