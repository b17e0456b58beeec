import UnixV6pp.User.Headers

/-!
# The heap

## Main definitions

* `Sound` — the blocks in use are aligned, below the break, and apart from each other and from
  the headers, which are linked and in order.
* `Event.Granted` — the request does not wrap, and the kernel grants what the heap has to grow.
* `Inv` — the invariant.

## Main results

* `heap_run` — **in such runs the heap is sound**, and every request is met.
* `not_sound` — a refused break, and a request that wraps.
-/

namespace UnixV6pp
namespace Heap

open Words Links

/-! ### Growth -/

/-- A quotient that is cut off, times the divisor. -/
theorem tdiv_mul (c : ℤ) : c.tdiv PAGE_SIZE * PAGE_SIZE =
    if 0 ≤ c then c / 12288 * 12288 else -(-c / 12288 * 12288) := by
  unfold PAGE_SIZE
  split
  · next h => rw [Int.tdiv_eq_ediv_of_nonneg h]
  · next h =>
    have hneg : c.tdiv 12288 = -((-c).tdiv 12288) := by rw [Int.neg_tdiv, neg_neg]
    rw [hneg, Int.tdiv_eq_ediv_of_nonneg (by omega), neg_mul]

/-- The break that `sbrk` asks for. -/
def pageUp (x : ℤ) : ℤ := ((x - 1) / 2 ^ 12 + 1) * 2 ^ 12

theorem pageUp_spec {x : ℤ} (h₁ : 0 < x) (h₂ : x ≤ 2 ^ 32 - 2 ^ 12) :
    x ≤ pageUp x ∧ pageUp x % 2 ^ 12 = 0 ∧ pageUp x ≤ 2 ^ 32 - 2 ^ 12 := by
  unfold pageUp
  omega

/-- **`sbrk`** to an end that is neither too low nor too high. -/
theorem State.sbrk_eq (s : State) (increment stop : ℤ) (grant : Bool)
    (hs : s.fakeedata ≠ 0 ∨ int32 s.brk ≥ 0)
    (h : ((if s.fakeedata = 0 then s.brk else s.fakeedata) + increment - stop) % 2 ^ 32 = 0)
    (h₁ : 0 < stop) (h₂ : stop ≤ 2 ^ 32 - 2 ^ 12) :
    s.sbrk increment grant =
      { s with fakeedata := stop, brk := if grant then pageUp stop else s.brk } := by
  have hedata : (if s.fakeedata = 0 then (if int32 s.brk ≥ 0 then s.brk else uint32 (-1))
      else s.fakeedata) = if s.fakeedata = 0 then s.brk else s.fakeedata := by
    rcases hs with hs | hs
    · rw [if_neg hs, if_neg hs]
    · rw [if_pos hs]
  unfold State.sbrk
  rw [hedata]
  generalize (if s.fakeedata = 0 then s.brk else s.fakeedata) = e at h
  have hnew : uint32 (e + increment - 1) = stop - 1 := by
    unfold uint32
    omega
  have hpage : uint32 (((stop - 1) / 2 ^ 12 + 1) * 2 ^ 12) = pageUp stop := by
    unfold uint32 pageUp
    omega
  have hne : pageUp stop ≠ 0 := by
    unfold pageUp
    omega
  simp only [hnew, hpage, State.brkCall]
  rw [uint32_of_bounds (by omega) (by omega), sub_add_cancel]
  cases grant <;> simp [hne]

/-- **What `malloc` asks of `sbrk`**, with the overflows: the end comes behind the new block. -/
theorem State.expand_spec (s : State) (iter size : ℤ) (hsize : 0 ≤ size ∧ size < 2 ^ 32)
    (hiter : 0 ≤ iter + s.mem iter) (hroom : iter + s.mem iter ≤ s.mallocEnd)
    (hend : s.mallocEnd < 2 ^ 32) :
    let lack := size - (s.mallocEnd - (iter + s.mem iter))
    (lack ≤ 0 → ∃ stop, (s.mallocEnd + s.expand iter size - stop) % 2 ^ 32 = 0 ∧
      iter + s.mem iter + size ≤ stop ∧ stop ≤ s.mallocEnd) ∧
    (0 < lack → lack + PAGE_SIZE ≤ 2 ^ 31 →
      s.expand iter size = (lack + PAGE_SIZE - 1) / PAGE_SIZE * PAGE_SIZE) := by
  intro lack
  have hlack : size - (s.mallocEnd - iter - s.mem iter) = lack := by omega
  have hbound : -2 ^ 32 < lack ∧ lack < 2 ^ 32 := by omega
  have hsum : iter + s.mem iter + size = s.mallocEnd + lack := by omega
  rw [hsum]
  -- the two additions overflow together
  have hexpand : s.expand iter size =
      int32 ((int32 (lack + PAGE_SIZE - 1)).tdiv PAGE_SIZE * PAGE_SIZE) := by
    have hadd : int32 (int32 lack + PAGE_SIZE - 1) = int32 (lack + PAGE_SIZE - 1) := by
      simp only [int32_eq, PAGE_SIZE]
      omega
    rw [State.expand, hlack, hadd]
  have hc : int32 (lack + PAGE_SIZE - 1) = if lack + 12287 < -2 ^ 31 then lack + 12287 + 2 ^ 32
      else if lack + 12287 < 2 ^ 31 then lack + 12287 else lack + 12287 - 2 ^ 32 := by
    simp only [int32_eq, PAGE_SIZE]
    split_ifs <;> omega
  rw [hexpand, hc, tdiv_mul]
  simp only [PAGE_SIZE]
  generalize s.mallocEnd = e at *
  clear_value lack
  constructor
  · intro hle
    by_cases hlow : lack + 12287 < -2 ^ 31
    · rw [if_pos hlow, if_pos (by omega), int32_of_bounds (by omega) (by omega)]
      exact ⟨e + (lack + 12287 + 2 ^ 32) / 12288 * 12288 - 2 ^ 32, by omega, by omega, by omega⟩
    · rw [if_neg hlow, if_pos (show lack + 12287 < 2 ^ 31 by omega)]
      by_cases hneg : 0 ≤ lack + 12287
      · rw [if_pos hneg, int32_of_bounds (by omega) (by omega)]
        exact ⟨e, by omega, by omega, le_rfl⟩
      · rw [if_neg hneg, int32_of_bounds (by omega) (by omega)]
        exact ⟨e + -(-(lack + 12287) / 12288 * 12288), by omega, by omega, by omega⟩
  · intro hpos hlt
    rw [if_neg (show ¬lack + 12287 < -2 ^ 31 by omega),
      if_pos (show lack + 12287 < 2 ^ 31 by omega), if_pos (by omega),
      int32_of_bounds (by omega) (by omega)]
    omega

/-- A request that does not wrap. -/
theorem roundUp_spec {size : ℤ} (h₁ : 0 < size) (h₂ : size + 15 < 2 ^ 32) :
    size + 8 ≤ roundUp size ∧ roundUp size % 8 = 0 ∧ roundUp size < 2 ^ 32 := by
  simp only [roundUp, uint32, HEADER]
  omega

/-! ### The invariant -/

/-- The blocks in use are aligned, below the break, and apart from each other and from the headers,
which are linked and in order. -/
structure Sound (s : State) : Prop where
  aligned : ∀ b ∈ s.live, b.1 % 8 = 0
  below : ∀ b ∈ s.live, 0 < b.1 ∧ b.1 + b.2 ≤ s.brk
  disjoint : s.live.Pairwise fun b c => b.1 + b.2 ≤ c.1 ∨ c.1 + c.2 ≤ b.1
  headers : s.mallocBegin ≠ 0 → ∃ hs, Headers s.mem s.mallocHead s.brk hs ∧
    ∀ b ∈ s.live, ∀ a ∈ hs, b.1 + b.2 ≤ a ∨ a + HEADER ≤ b.1

/-- No call of the library so far. -/
structure Fresh (s : State) : Prop where
  begin_eq : s.mallocBegin = 0
  edata : s.fakeedata = 0
  live : s.live = []
  brk_pos : 0 < s.brk
  brk_lt : s.brk < 2 ^ 31
  brk_aligned : s.brk % 8 = 0

structure Inv (s : State) (hs : List ℤ) : Prop where
  headers : Headers s.mem s.mallocHead s.mallocEnd hs
  edata : s.fakeedata = s.mallocEnd
  begun : s.mallocBegin ≠ 0
  end_le : s.mallocEnd ≤ s.brk
  brk_aligned : s.brk % 2 ^ 12 = 0
  brk_le : s.brk ≤ 2 ^ 32 - 2 ^ 12
  blocks : ∀ b ∈ s.live, b.1 - 8 ∈ hs ∧ b.1 - 8 ≠ s.mallocHead ∧ 0 < b.2 ∧
    b.2 + 8 ≤ s.mem (b.1 - 8)
  nodup : (s.live.map Prod.fst).Nodup

namespace Inv

variable {s t : State} {hs l r : List ℤ} {a : ℤ}

/-- Two headers. -/
theorem apart (h : Inv s hs) {a b : ℤ} (ha : a ∈ hs) (hb : b ∈ hs) (hne : a ≠ b) :
    a + s.mem a ≤ b ∨ b + s.mem b ≤ a := by
  refine List.Pairwise.forall_of_forall_of_flip (R := fun a b => a ≠ b →
    a + s.mem a ≤ b ∨ b + s.mem b ≤ a) ?_ ?_ ?_ ha hb hne
  · exact fun _ _ hself => absurd rfl hself
  · exact h.headers.apart.imp fun hab _ => .inl hab
  · exact h.headers.apart.imp fun hab _ => .inr hab

/-- A block and a header. -/
theorem block_apart (h : Inv s hs) {b : ℤ × ℤ} (hb : b ∈ s.live) (ha : a ∈ hs) :
    b.1 + b.2 ≤ a ∨ a + HEADER ≤ b.1 := by
  rcases h.blocks b hb with ⟨hmem, -, -, hsize⟩
  have hle := h.headers.size_le a ha
  unfold HEADER
  by_cases hne : b.1 - 8 = a
  · omega
  · rcases h.apart hmem ha hne with hlt | hlt <;> omega

theorem sound (h : Inv s hs) : Sound s where
  aligned b hb := by
    have := h.headers.aligned _ (h.blocks b hb).1
    omega
  below b hb := by
    rcases h.blocks b hb with ⟨hmem, -, -, hsize⟩
    have := h.headers.pos _ hmem
    have := h.headers.end_le _ hmem
    have := h.end_le
    omega
  disjoint := by
    refine (List.pairwise_map.mp h.nodup).imp_of_mem fun {b c} hb hc hne => ?_
    rcases h.blocks b hb with ⟨hbmem, -, -, hbsize⟩
    rcases h.blocks c hc with ⟨hcmem, -, -, hcsize⟩
    have hne' : b.1 ≠ c.1 := hne
    rcases h.apart hbmem hcmem (by omega) with hlt | hlt <;> omega
  headers _ := by
    refine ⟨hs, h.headers.congr (fun a ha => ?_) (fun a _ => ⟨rfl, rfl⟩),
      fun b hb a ha => h.block_apart hb ha⟩
    have := h.headers.end_le a ha
    have := h.end_le
    omega

/-! ### `malloc` -/

/-- The new block comes into use. -/
theorem insert (h : Inv s (l ++ a :: r)) (size : ℤ)
    (ht : Headers t.mem s.mallocHead t.mallocEnd (l ++ a :: (a + s.mem a) :: r))
    (hold : ∀ x ∈ l ++ a :: r, x ≠ a + s.mem a → t.mem x = s.mem x)
    (hsize : 0 < size ∧ size + 8 ≤ t.mem (a + s.mem a))
    (hfields : t.mallocHead = s.mallocHead ∧ t.fakeedata = t.mallocEnd ∧
      t.mallocBegin = s.mallocBegin ∧ t.live = s.live)
    (hbrk : t.mallocEnd ≤ t.brk ∧ t.brk % 2 ^ 12 = 0 ∧ t.brk ≤ 2 ^ 32 - 2 ^ 12) :
    Inv { t with live := (a + s.mem a + 8, size) :: t.live }
      (l ++ a :: (a + s.mem a) :: r) := by
  rcases hfields with ⟨hhead, hedata, hbegin, hlive⟩
  have hnew : a + s.mem a ∉ l ++ a :: r := by
    have hnodup := ht.nodup
    rw [show l ++ a :: (a + s.mem a) :: r = (l ++ [a]) ++ (a + s.mem a) :: r by simp,
      List.nodup_middle, List.nodup_cons] at hnodup
    simpa using hnodup.1
  have hheadmem : s.mallocHead ∈ l ++ a :: r := by
    rcases h.headers.head_mem with ⟨r', hr'⟩
    rw [hr']
    exact List.mem_cons_self
  refine ⟨by rw [hhead]; exact ht, hedata, by rw [hbegin]; exact h.begun, hbrk.1, hbrk.2.1,
    hbrk.2.2, ?_, ?_⟩
  · rintro b hb
    simp only [List.mem_cons] at hb
    rcases hb with rfl | hb
    · refine ⟨?_, ?_, hsize.1, ?_⟩
      · rw [add_sub_cancel_right]
        simp
      · rw [add_sub_cancel_right, hhead]
        rintro heq
        exact hnew (heq ▸ hheadmem)
      · rw [add_sub_cancel_right]
        exact hsize.2
    · rw [hlive] at hb
      rcases h.blocks b hb with ⟨hmem, hne, hpos, hle⟩
      refine ⟨?_, by rw [hhead]; exact hne, hpos,
        by rw [hold _ hmem fun e => hnew (e ▸ hmem)]; exact hle⟩
      simp only [List.mem_append, List.mem_cons] at hmem ⊢
      tauto
  · rw [List.map_cons, List.nodup_cons, hlive]
    refine ⟨?_, h.nodup⟩
    intro hmem
    rcases List.mem_map.mp hmem with ⟨b, hb, heq⟩
    have hb := (h.blocks b hb).1
    rw [heq, add_sub_cancel_right] at hb
    exact hnew hb

/-- **A gap is split.** -/
theorem split (h : Inv s hs) {b size : ℤ} (hhs : hs = l ++ a :: b :: r) (hsize : 0 < size)
    (h15 : size + 15 < 2 ^ 32) (hgap : roundUp size ≤ b - (a + s.mem a)) :
    ∃ p t, s.split a (roundUp size) = (p, t) ∧ 0 < p ∧
      ∃ hs, Inv { t with live := (p, size) :: t.live } hs := by
  subst hhs
  rcases roundUp_spec hsize h15 with ⟨hle, hmod, -⟩
  have ha : a ∈ l ++ a :: b :: r := by simp
  have hb : b ∈ l ++ a :: b :: r := by simp
  have hapos := h.headers.pos a ha
  have haal := h.headers.aligned a ha
  have hasize := h.headers.size_le a ha
  have hamod := h.headers.size_aligned a ha
  have hbend := h.headers.end_le b hb
  have hbsize := h.headers.size_le b hb
  have hend := h.end_le
  have hbrk := h.brk_le
  have htemp : uint32 (a + s.mem a) = a + s.mem a :=
    uint32_of_bounds (by omega) (by omega)
  have hret : uint32 (a + s.mem a + HEADER) = a + s.mem a + 8 :=
    uint32_of_bounds (by unfold HEADER; omega) (by unfold HEADER; omega)
  unfold State.split
  simp only [htemp, hret]
  refine ⟨_, _, rfl, by omega, _, h.insert size ?_ ?_ ⟨hsize, ?_⟩ ⟨rfl, h.edata, rfl, rfl⟩
    ⟨h.end_le, h.brk_aligned, h.brk_le⟩⟩
  · refine h.headers.insert rfl ⟨by omega, hmod⟩ ?_ ?_ (Function.update_self ..) ?_ ?_ ?_
    · change a + s.mem a + roundUp size ≤ s.mallocEnd
      omega
    · intro x hx
      refine ⟨?_, h.headers.end_le x (List.mem_append_right l (List.mem_cons_of_mem a hx))⟩
      rcases List.mem_cons.mp hx with rfl | hx
      · omega
      · have hsplit : l ++ a :: b :: r = (l ++ [a]) ++ b :: r := by simp
        have hbr := (hsplit ▸ h.headers).around.2 x hx
        omega
    · simp only [nlink, setSize, setNlink]
      rw [Function.update_of_ne (by omega), Function.update_of_ne (by omega),
        Function.update_self]
    · simp only [nlink, setSize, setNlink]
      rw [Function.update_of_ne (by omega), Function.update_self]
    · intro x h₁ h₂ h₃
      simp only [setSize, setNlink]
      rw [Function.update_of_ne h₁, Function.update_of_ne h₃, Function.update_of_ne h₂]
  · intro x hx hne
    have hxal := h.headers.aligned x hx
    simp only [setSize, setNlink]
    rw [Function.update_of_ne hne, Function.update_of_ne (by omega),
      Function.update_of_ne (by omega)]
  · simp only [setSize]
    rw [Function.update_self]
    exact hle

theorem end_pos (h : Inv s hs) : 0 < s.mallocEnd := by
  rcases h.headers.head_mem with ⟨r, rfl⟩
  have := h.headers.pos _ List.mem_cons_self
  have := h.headers.size_le _ List.mem_cons_self
  have := h.headers.end_le _ List.mem_cons_self
  omega

/-- `sbrk` to an end that the kernel grants, or that the break is behind already. -/
theorem sbrk_eq (h : Inv s hs) (increment stop : ℤ) (grant : Bool)
    (hmod : (s.mallocEnd + increment - stop) % 2 ^ 32 = 0) (h₁ : 0 < stop)
    (h₂ : stop ≤ if grant then 2 ^ 32 - 2 ^ 12 else s.brk) :
    ∃ brk, s.sbrk increment grant = { s with fakeedata := stop, brk := brk } ∧ stop ≤ brk ∧
      brk % 2 ^ 12 = 0 ∧ brk ≤ 2 ^ 32 - 2 ^ 12 := by
  have hle : stop ≤ 2 ^ 32 - 2 ^ 12 := by
    have := h.brk_le
    split at h₂ <;> omega
  have hne : s.fakeedata ≠ 0 := by
    have := h.end_pos
    have := h.edata
    omega
  refine ⟨_, State.sbrk_eq s increment stop grant (.inl hne) (by rw [if_neg hne, h.edata]; exact hmod) h₁ hle, ?_⟩
  rcases grant with _ | _
  · exact ⟨h₂, h.brk_aligned, h.brk_le⟩
  · exact pageUp_spec h₁ hle

/-- **A block behind the last one.** -/
theorem extend (h : Inv s (l ++ [a])) {size : ℤ} (grant : Bool) (hsize : 0 < size)
    (h15 : size + 15 < 2 ^ 32)
    (hgrant : let lack := roundUp size - (s.mallocEnd - (a + s.mem a))
      0 < lack → lack + PAGE_SIZE ≤ 2 ^ 31 ∧
        s.mallocEnd + (lack + PAGE_SIZE - 1) / PAGE_SIZE * PAGE_SIZE ≤
          if grant then 2 ^ 32 - 2 ^ 12 else s.brk) :
    ∃ p t, s.extend a (roundUp size) grant = (p, t) ∧ 0 < p ∧
      ∃ hs, Inv { t with live := (p, size) :: t.live } hs := by
  rcases roundUp_spec hsize h15 with ⟨hle, hmod, hlt⟩
  have ha : a ∈ l ++ [a] := by simp
  have hapos := h.headers.pos a ha
  have haal := h.headers.aligned a ha
  have hasize := h.headers.size_le a ha
  have hamod := h.headers.size_aligned a ha
  have haend := h.headers.end_le a ha
  have hend := h.end_le
  have hbrk := h.brk_le
  -- where the heap ends then
  obtain ⟨stop, hstopmod, hstop, hstople⟩ : ∃ stop,
      (s.mallocEnd + s.expand a (roundUp size) - stop) % 2 ^ 32 = 0 ∧
        a + s.mem a + roundUp size ≤ stop ∧ stop ≤ if grant then 2 ^ 32 - 2 ^ 12 else s.brk := by
    rcases s.expand_spec a (roundUp size) ⟨by omega, hlt⟩ (by omega)
      haend (by omega) with ⟨hfit, hgrow⟩
    by_cases hlack : roundUp size - (s.mallocEnd - (a + s.mem a)) ≤ 0
    · rcases hfit hlack with ⟨stop, h₁, h₂, h₃⟩
      exact ⟨stop, h₁, h₂, by split <;> omega⟩
    · rcases hgrant (by omega) with ⟨h₁, h₂⟩
      refine ⟨_, ?_, ?_, h₂⟩
      · rw [hgrow (by omega) h₁, Int.sub_self]
        rfl
      · unfold PAGE_SIZE
        omega
  rcases h.sbrk_eq _ _ _ hstopmod (by omega) hstople with ⟨brk, hsbrk, hbrk₁, hbrk₂, hbrk₃⟩
  have htemp : uint32 (a + s.mem a) = a + s.mem a := uint32_of_bounds (by omega) (by omega)
  have hret : uint32 (a + s.mem a + HEADER) = a + s.mem a + 8 :=
    uint32_of_bounds (by unfold HEADER; omega) (by unfold HEADER; omega)
  have hlast : nlink s.mem a = 0 := nlink_of_next_none (chain_middle.mp h.headers.chain).2
  unfold State.extend
  simp only [hsbrk, htemp, hret]
  refine ⟨_, _, rfl, by omega, _, h.insert size ?_ ?_ ⟨hsize, ?_⟩ ⟨rfl, rfl, rfl, rfl⟩
    ⟨hbrk₁, hbrk₂, hbrk₃⟩⟩
  · refine h.headers.insert rfl ⟨by omega, hmod⟩ hstop nofun ?_ ?_ ?_ ?_
    · simp only [setSize, setNlink]
      rw [Function.update_of_ne (by omega), Function.update_self]
    · simp only [nlink, setNlink] at hlast ⊢
      rw [Function.update_self, hlast]
    · simp only [nlink, setSize, setNlink]
      rw [Function.update_of_ne (by omega), Function.update_of_ne (by omega),
        Function.update_self]
    · intro x h₁ h₂ h₃
      simp only [setSize, setNlink]
      rw [Function.update_of_ne h₂, Function.update_of_ne h₁, Function.update_of_ne h₃]
  · intro x hx hne
    have hxal := h.headers.aligned x hx
    simp only [setSize, setNlink]
    rw [Function.update_of_ne (by omega), Function.update_of_ne hne,
      Function.update_of_ne (by omega)]
  · simp only [setSize, setNlink]
    rw [Function.update_of_ne (by omega), Function.update_self]
    exact hle

end Inv

/-- The first call makes the first header. -/
theorem Fresh.begin {s : State} (h : Fresh s) (grant₀ : Bool) :
    Inv (s.begin grant₀ true) [s.brk] := by
  have hpos := h.brk_pos
  have hlt := h.brk_lt
  have hal := h.brk_aligned
  have hint : int32 s.brk ≥ 0 := by
    rw [int32_of_bounds (by omega) (by omega)]
    omega
  have h₀ := s.sbrk_eq 0 s.brk grant₀ (.inr hint)
    (by rw [if_pos h.edata, add_zero, sub_self]; rfl) hpos (by omega)
  have h₁ : ∀ brk, (State.sbrk { s with fakeedata := s.brk, brk := brk } PAGE_SIZE true) =
      { s with fakeedata := s.brk + PAGE_SIZE, brk := pageUp (s.brk + PAGE_SIZE) } := by
    intro brk
    refine State.sbrk_eq _ _ _ true (.inl hpos.ne') ?_ ?_ ?_
    · simp only [if_neg hpos.ne', sub_self]
      rfl
    · unfold PAGE_SIZE
      omega
    · unfold PAGE_SIZE
      omega
  have hbegin : s.begin grant₀ true = { s with
      mallocBegin := s.brk, mallocEnd := s.brk + PAGE_SIZE, mallocHead := s.brk
      fakeedata := s.brk + PAGE_SIZE, brk := pageUp (s.brk + PAGE_SIZE)
      mem := setNlink (setSize s.mem s.brk HEADER) s.brk 0 } := by
    simp only [State.begin, if_pos h.begin_eq, h₀, h₁]
  have hsize : setNlink (setSize s.mem s.brk HEADER) s.brk 0 s.brk = 8 := by
    simp only [setSize, setNlink]
    rw [Function.update_of_ne (by omega), Function.update_self]
    rfl
  rcases pageUp_spec (x := s.brk + PAGE_SIZE) (by unfold PAGE_SIZE; omega)
    (by unfold PAGE_SIZE; omega) with ⟨hp₁, hp₂, hp₃⟩
  rw [hbegin]
  refine ⟨⟨⟨rfl, next_eq_none (Function.update_self ..)⟩, ?_, ?_, ?_, ?_, ?_, List.pairwise_singleton ..⟩,
    rfl, hpos.ne', hp₁, hp₂, hp₃, ?_, ?_⟩
  · simpa using hpos
  · simpa using hal
  · simp [hsize]
  · simp [hsize]
  · simp only [List.mem_singleton, forall_eq, hsize, PAGE_SIZE]
    omega
  · simp [h.live]
  · simp [h.live]

/-! ### Runs -/

/-- How much is missing behind the last block, when no gap is large enough. -/
def State.lack (s : State) (size : ℤ) : ℤ :=
  match place s.mem (roundUp size) WALK s.mallocHead with
  | some (false, iter) => roundUp size - (s.mallocEnd - (iter + s.mem iter))
  | _ => 0

/-- The kernel grants the first page, the request does not wrap, and what the heap has to grow fits
into the address space and is granted, or is below the break already. -/
def Event.Granted (s : State) : Event → Prop
  | malloc size grant₀ grant₁ grant₂ =>
    (s.mallocBegin = 0 → grant₁ = true) ∧ (size.toNat : ℤ) + 15 < 2 ^ 32 ∧
      let s := s.begin grant₀ grant₁
      0 < size.toNat → 0 < s.lack size.toNat → s.lack size.toNat + PAGE_SIZE ≤ 2 ^ 31 ∧
        s.mallocEnd + (s.lack size.toNat + PAGE_SIZE - 1) / PAGE_SIZE * PAGE_SIZE ≤
          if grant₂ then 2 ^ 32 - 2 ^ 12 else s.brk
  | free _ _ | store _ => True

namespace Inv

variable {s t : State} {hs l r : List ℤ} {a : ℤ}

/-- **A request that is granted is met.** -/
theorem malloc (h : Inv s hs) {size : ℤ} (grant₀ grant₁ grant₂ : Bool) (hsize : 0 < size)
    (h15 : size + 15 < 2 ^ 32)
    (hgrant : 0 < s.lack size → s.lack size + PAGE_SIZE ≤ 2 ^ 31 ∧
      s.mallocEnd + (s.lack size + PAGE_SIZE - 1) / PAGE_SIZE * PAGE_SIZE ≤
        if grant₂ then 2 ^ 32 - 2 ^ 12 else s.brk) :
    ∃ p t, s.malloc size grant₀ grant₁ grant₂ = some (p, t) ∧ 0 < p ∧
      ∃ hs, Inv { t with live := (p, size) :: t.live } hs := by
  have hbegin : s.begin grant₀ grant₁ = s := if_neg h.begun
  have hstop : s.mallocEnd ≤ 2 ^ 32 := by
    have := h.end_le
    have := h.brk_le
    omega
  unfold State.malloc
  simp only [hbegin, if_neg hsize.ne']
  rcases h.headers.place_spec hstop (roundUp size) with
    ⟨l, x, y, r, rfl, hplace, hgap⟩ | ⟨l, x, rfl, hplace⟩
  · rcases h.split rfl hsize h15 hgap with ⟨p, t, hsplit, hp, hinv⟩
    exact ⟨p, t, by rw [hplace]; exact congrArg some hsplit, hp, hinv⟩
  · have hlack : s.lack size = roundUp size - (s.mallocEnd - (x + s.mem x)) := by
      rw [State.lack, hplace]
    rcases h.extend grant₂ hsize h15 (by rw [hlack] at hgrant; exact hgrant) with
      ⟨p, t, hextend, hp, hinv⟩
    exact ⟨p, t, by rw [hplace]; exact congrArg some hextend, hp, hinv⟩

/-- The header of a block is taken out. -/
theorem unlink {b : ℤ} (h : Inv s (l ++ a :: b :: r)) :
    Inv { s with
      mem := setNlink s.mem a (nlink s.mem b), live := s.live.filter (·.1 ≠ b + 8) }
      (l ++ a :: r) := by
  have hsub : ∀ x ∈ l ++ a :: r, x ∈ l ++ a :: b :: r := by
    intro x hx
    simp only [List.mem_append, List.mem_cons] at hx ⊢
    tauto
  refine ⟨h.headers.unlink fun x hx => h.headers.end_le x (hsub x hx), h.edata, h.begun, h.end_le,
    h.brk_aligned, h.brk_le, ?_, h.nodup.sublist (List.filter_sublist.map _)⟩
  intro c hc
  rcases List.mem_filter.mp hc with ⟨hc, hne⟩
  have hne : c.1 ≠ b + 8 := of_decide_eq_true hne
  rcases h.blocks c hc with ⟨hmem, hhead, hpos, hle⟩
  have hmem' : c.1 - 8 ∈ l ++ a :: r := by
    simp only [List.mem_append, List.mem_cons] at hmem ⊢
    rcases hmem with hmem | hmem | hmem | hmem
    · exact .inl hmem
    · exact .inr (.inl hmem)
    · omega
    · exact .inr (.inr hmem)
  have hword : setNlink s.mem a (nlink s.mem b) (c.1 - 8) = s.mem (c.1 - 8) := by
    have := h.headers.aligned _ hmem
    have := h.headers.aligned a (by simp)
    exact Function.update_of_ne (by omega) ..
  exact ⟨hmem', hhead, hpos, by rw [← hword] at hle; exact hle⟩

/-- Pages behind the last block go back. -/
theorem shrink (h : Inv s (l ++ a :: r)) (grant : Bool) :
    Inv (s.shrink a grant) (l ++ a :: r) := by
  have ha : a ∈ l ++ a :: r := by simp
  have hpos := h.headers.pos a ha
  have hsize := h.headers.size_le a ha
  have hle := h.headers.end_le a ha
  have hend := h.end_le
  have hbrk := h.brk_le
  unfold State.shrink
  rw [uint32_of_bounds (by omega) (by omega)]
  simp only []
  split
  · next hroom =>
    rcases hroom with ⟨hlast, hroom⟩
    have hr : r = [] := by
      have hrest := (chain_middle.mp h.headers.chain).2
      rw [next_eq_none hlast] at hrest
      rcases r with _ | ⟨y, r⟩
      · rfl
      · cases hrest.1
    subst hr
    have heq : int32 (s.mallocEnd - (a + s.mem a)) = s.mallocEnd - (a + s.mem a) := by
      rw [int32_eq] at hroom ⊢
      unfold PAGE_SIZE at hroom
      omega
    rw [heq] at hroom ⊢
    rw [tdiv_mul, if_pos (by omega)]
    rcases h.sbrk_eq (-((s.mallocEnd - (a + s.mem a)) / 12288 * 12288))
      (s.mallocEnd - (s.mallocEnd - (a + s.mem a)) / 12288 * 12288) grant
      (by omega) (by omega) (by split <;> omega) with ⟨brk, hsbrk, hbrk₁, hbrk₂, hbrk₃⟩
    rw [hsbrk]
    refine ⟨h.headers.congr ?_ fun _ _ => ⟨rfl, rfl⟩, rfl, h.begun, hbrk₁, hbrk₂, hbrk₃, h.blocks,
      h.nodup⟩
    intro x hx
    change x + s.mem x ≤ s.mallocEnd - (s.mallocEnd - (a + s.mem a)) / 12288 * 12288
    rcases List.mem_append.mp hx with hx | hx
    · have := h.headers.around.1 x hx
      omega
    · rw [List.mem_singleton.mp hx]
      omega
  · exact h

end Inv

/-! ### The blocks in use are not seen -/

theorem State.sbrk_live (s : State) (increment : ℤ) (grant : Bool) :
    (s.sbrk increment grant).live = s.live := by
  unfold State.sbrk State.brkCall
  simp only []
  split_ifs <;> rfl

theorem State.shrink_live (s : State) (last : ℤ) (grant : Bool) :
    (s.shrink last grant).live = s.live := by
  unfold State.shrink
  simp only []
  split
  · exact s.sbrk_live _ _
  · rfl

/-- `shrink` with other blocks in use. -/
theorem State.shrink_with (s : State) (last : ℤ) (grant : Bool) (live : List (ℤ × ℤ)) :
    { s.shrink last grant with live := live } =
      State.shrink { s with live := live } last grant := by
  unfold State.shrink State.sbrk State.brkCall
  simp only []
  split_ifs <;> rfl

theorem State.begin_live (s : State) (g₀ g₁ : Bool) : (s.begin g₀ g₁).live = s.live := by
  unfold State.begin
  simp only []
  split
  · change ((s.sbrk 0 g₀).sbrk PAGE_SIZE g₁).live = s.live
    rw [State.sbrk_live, State.sbrk_live]
  · rfl

theorem State.malloc_live {s t : State} {size p : ℤ} {g₀ g₁ g₂ : Bool}
    (h : s.malloc size g₀ g₁ g₂ = some (p, t)) : t.live = s.live := by
  unfold State.malloc at h
  simp only [] at h
  split at h
  · cases h
    exact s.begin_live g₀ g₁
  · split at h
    · cases h
    · cases h
      exact s.begin_live g₀ g₁
    · cases h
      change ((s.begin g₀ g₁).sbrk _ g₂).live = s.live
      rw [State.sbrk_live, State.begin_live]

namespace Inv

variable {s t : State} {hs l r : List ℤ} {a : ℤ}

/-- **A block in use is freed.** -/
theorem free (h : Inv s hs) {p n : ℤ} (hp : (p, n) ∈ s.live) (grant : Bool) :
    ∃ t, s.free p grant = some (0, t) ∧
      ∃ hs, Inv { t with live := t.live.filter (·.1 ≠ p) } hs := by
  rcases h.blocks _ hp with ⟨hmem, hhead, -, -⟩
  have hbrk := h.brk_le
  have hend := h.end_le
  have hpos := h.headers.pos _ hmem
  have hle := h.headers.end_le _ hmem
  have hsize := h.headers.size_le _ hmem
  have haddr : uint32 (p - 8) = p - 8 := uint32_of_bounds (by omega) (by omega)
  rcases h.headers.search_spec (by omega) hmem hhead with ⟨l, x, r, rfl, hsearch⟩
  unfold State.free
  simp only [if_neg (show p ≠ 0 by omega), haddr, hsearch]
  refine ⟨_, rfl, l ++ x :: r, ?_⟩
  have hinv := h.unlink.shrink grant
  rw [sub_add_cancel] at hinv
  rw [State.shrink_live, State.shrink_with]
  exact hinv

/-- The program stores to its own blocks. -/
theorem store (h : Inv s hs) {mem : ℤ → ℤ}
    (hmem : ∀ a, (∀ b ∈ s.live, ¬(b.1 ≤ a ∧ a < b.1 + b.2)) → mem a = s.mem a) :
    Inv { s with mem := mem } hs := by
  have hword : ∀ a ∈ hs, mem a = s.mem a ∧ nlink mem a = nlink s.mem a := by
    refine fun a ha => ⟨hmem a fun b hb hin => ?_, hmem (a + 4) fun b hb hin => ?_⟩ <;>
    · have := h.block_apart hb ha
      unfold HEADER at this
      omega
  refine ⟨h.headers.congr (fun a ha => h.headers.end_le a ha) hword, h.edata, h.begun, h.end_le,
    h.brk_aligned, h.brk_le, ?_, h.nodup⟩
  intro b hb
  rcases h.blocks b hb with ⟨hmem, hhead, hpos, hle⟩
  exact ⟨hmem, hhead, hpos, by rw [← (hword _ hmem).1] at hle; exact hle⟩

end Inv

/-- Before the first call, or after it. -/
def Good (s : State) : Prop := Fresh s ∨ ∃ hs, Inv s hs

namespace Good

variable {s s' : State}

theorem sound (h : Good s) : Sound s := by
  rcases h with h | ⟨hs, h⟩
  · refine ⟨?_, ?_, ?_, fun hne => absurd h.begin_eq hne⟩
    · simp [h.live]
    · simp [h.live]
    · simp [h.live]
  · exact h.sound

/-- **Every request that is granted is met**; a request for nothing returns `NULL`. -/
theorem malloc (h : Good s) {size : UInt32} {g₀ g₁ g₂ : Bool}
    (hgrant : (Event.malloc size g₀ g₁ g₂).Granted s) :
    ∃ p t, s.malloc size.toNat g₀ g₁ g₂ = some (p, t) ∧ (p = 0 ↔ size = 0) ∧ t.live = s.live ∧
      (size = 0 → t = s.begin g₀ g₁) ∧
      Good { t with live := if p = 0 then t.live else (p, (size.toNat : ℤ)) :: t.live } := by
  rcases hgrant with ⟨hfirst, h15, hgrow⟩
  obtain ⟨hs, hbegun⟩ : ∃ hs, Inv (s.begin g₀ g₁) hs := by
    rcases h with h | ⟨hs, h⟩
    · rw [hfirst h.begin_eq]
      exact ⟨_, h.begin g₀⟩
    · exact ⟨hs, by rw [State.begin, if_neg h.begun]; exact h⟩
  by_cases hsize : size = 0
  · refine ⟨0, s.begin g₀ g₁, by rw [hsize]; rfl, by simp [hsize], s.begin_live g₀ g₁,
      fun _ => rfl, .inr ⟨hs, ?_⟩⟩
    rw [if_pos rfl]
    exact hbegun
  · have hpos : 0 < size.toNat := by
      rcases Nat.eq_zero_or_pos size.toNat with h0 | h0
      · exact absurd (UInt32.toNat_inj.mp h0) hsize
      · exact h0
    rcases hbegun.malloc g₀ g₁ g₂ (Int.natCast_pos.mpr hpos) h15 (hgrow hpos) with ⟨p, t, hmalloc, hp, hinv⟩
    -- the first header is made once
    have hagain : (s.begin g₀ g₁).begin g₀ g₁ = s.begin g₀ g₁ := if_neg hbegun.begun
    have hmalloc : s.malloc size.toNat g₀ g₁ g₂ = some (p, t) := by
      rw [← hmalloc]
      unfold State.malloc
      rw [hagain]
    refine ⟨p, t, hmalloc, ⟨fun h0 => absurd h0 hp.ne', fun h0 => absurd h0 hsize⟩,
      State.malloc_live hmalloc, fun h0 => absurd h0 hsize, .inr ?_⟩
    rw [if_neg hp.ne']
    exact hinv

theorem free (h : Good s) {p n : ℤ} (hp : (p, n) ∈ s.live) (g : Bool) :
    ∃ t, s.free p g = some (0, t) ∧ Good { t with live := t.live.filter (·.1 ≠ p) } := by
  rcases h with h | ⟨hs, h⟩
  · rw [h.live] at hp
    cases hp
  · rcases h.free hp g with ⟨t, hfree, hinv⟩
    exact ⟨t, hfree, .inr hinv⟩

/-- **One event.** -/
theorem step (h : Good s) {e : Event} (hgrant : e.Granted s) (hstep : Step s e s') : Good s' := by
  rcases e with ⟨size, g₀, g₁, g₂⟩ | ⟨p, g⟩ | mem
  · rcases hstep with ⟨p, t, hmalloc, rfl⟩
    rcases h.malloc hgrant with ⟨p', t', hmalloc', -, -, -, hgood⟩
    rw [hmalloc] at hmalloc'
    cases hmalloc'
    exact hgood
  · rcases hstep with ⟨⟨n, hp⟩, r, t, hfree, rfl⟩
    rcases h.free hp g with ⟨t', hfree', hgood⟩
    rw [hfree] at hfree'
    cases hfree'
    exact hgood
  · rcases hstep with ⟨hmem, rfl⟩
    rcases h with h | ⟨hs, h⟩
    · exact .inl ⟨h.begin_eq, h.edata, h.live, h.brk_pos, h.brk_lt, h.brk_aligned⟩
    · exact .inr ⟨hs, h.store hmem⟩

end Good

/-- **The heap is sound in every state reached**, and there every call of `free` on a block in use
and every request that is granted returns. -/
theorem heap_run {mem : ℤ → ℤ} {brk : ℤ} {s : State} (hpos : 0 < brk) (hlt : brk < 2 ^ 31)
    (hal : brk % 8 = 0)
    (hrun : Runs Step (fun s e => e.Granted s) (start mem brk) s) :
    Sound s ∧
      (∀ size g₀ g₁ g₂, (Event.malloc size g₀ g₁ g₂).Granted s →
        ∃ p t, s.malloc size.toNat g₀ g₁ g₂ = some (p, t) ∧ (p = 0 ↔ size = 0) ∧
          t.live = s.live ∧ (size = 0 → t = s.begin g₀ g₁)) ∧
      ∀ b ∈ s.live, ∀ g, ∃ t, s.free b.1 g = some (0, t) := by
  have hgood : Good s := hrun.invariant (fun _ _ _ h hok hstep => h.step hok hstep)
    (.inl ⟨rfl, rfl, rfl, hpos, hlt, hal⟩)
  refine ⟨hgood.sound, fun size g₀ g₁ g₂ hgrant => ?_, fun b hb g => ?_⟩
  · rcases hgood.malloc hgrant with ⟨p, t, hmalloc, hp, hlive, hzero, -⟩
    exact ⟨p, t, hmalloc, hp, hlive, hzero⟩
  · rcases hgood.free hb g with ⟨t, hfree, -⟩
    exact ⟨t, hfree⟩

/-- No memory written yet, and a break at a page boundary. -/
def empty : State := start (fun _ => 0) 4096

/-- What a call on the empty heap returns, and the break then. -/
theorem malloc_empty (size : UInt32) (grant₂ : Bool) (p brk : ℤ)
    (h : (empty.malloc size.toNat true true grant₂).map (fun r => (r.1, r.2.brk)) = some (p, brk))
    (hp : p ≠ 0) : ∃ s, Step empty (.malloc size true true grant₂) s ∧
      s.live = [(p, (size.toNat : ℤ))] ∧ s.brk = brk := by
  rcases hmalloc : empty.malloc size.toNat true true grant₂ with _ | ⟨q, t⟩
  · rw [hmalloc] at h
    cases h
  · rw [hmalloc] at h
    cases h
    refine ⟨_, ⟨_, _, hmalloc, rfl⟩, ?_, rfl⟩
    rw [if_neg hp, State.malloc_live hmalloc]
    rfl

/-- A hundred bytes. -/
theorem heap_run_hundred : ∃ s, s.live = [(4112, 100)] ∧ Sound s := by
  rcases malloc_empty 100 true 4112 16384 (by decide +kernel)
    (by decide) with ⟨s, hstep, hlive, -⟩
  have hgrant : (Event.malloc 100 true true true).Granted empty := by
    refine ⟨fun _ => rfl, by decide, ?_⟩
    intro _ _ hlack
    exact absurd hlack (by decide +kernel)
  exact ⟨s, hlive, (heap_run (by decide) (by decide) (by decide) (.single hgrant hstep)).1⟩

/-- The kernel refuses, and the block is behind the break; a request wraps, and the kernel is not
asked. -/
theorem not_sound :
    (∃ s, Runs Step (fun _ _ => True) empty s ∧ s.live = [(4112, 20000)] ∧ s.brk = 16384 ∧
      ¬Sound s) ∧
    ∃ s, Runs Step (fun _ _ => True) empty s ∧ s.live = [(4112, 2 ^ 32 - 8)] ∧ s.brk = 16384 ∧
      ¬Sound s := by
  constructor
  · rcases malloc_empty 20000 false 4112 16384 (by decide +kernel) (by decide) with ⟨s, hstep, hlive, hbrk⟩
    refine ⟨s, .single trivial hstep, hlive, hbrk, fun hsound => ?_⟩
    have := (hsound.below (4112, 20000) (by rw [hlive]; decide)).2
    rw [hbrk] at this
    exact absurd this (by decide)
  · rcases malloc_empty 4294967288 true 4112 16384 (by decide +kernel) (by decide) with ⟨s, hstep, hlive, hbrk⟩
    refine ⟨s, .single trivial hstep, hlive, hbrk, fun hsound => ?_⟩
    have := (hsound.below (4112, 4294967288) (by rw [hlive]; decide)).2
    rw [hbrk] at this
    exact absurd this (by decide)

end Heap
end UnixV6pp
