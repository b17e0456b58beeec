import UnixV6pp.Proc.ArgumentCopy

/-!
# The stack of a new program

## Main definitions

* `finish` — what `copyArgs` does once the strings are copied.
* `Finished` — what the area holds then.

## Main results

* `finish_ok`, `finish_of` — what it leaves, and that it ends.
* `Finished.handed`, `Finished.texts_eq` — what the new program finds.
* `passes_iff` — **the arguments are passed** exactly if there is an area, they fit into the stack,
  and no string is overwritten before it is copied.
* `exists_lost` — a thousand arguments, and a stack of one page.
-/

namespace UnixV6pp
namespace Arguments

open Words Paging Allocator TableOwners

/-! ### Pushes -/

theorem four_le_user : 4 ≤ USER_SPACE_SIZE := by
  have huser : USER_SPACE_SIZE = 0x800000 := rfl
  omega

section Pushes

variable {k : Area} {s s' : Copying} {n m v : ℕ}

@[simp] theorem mem_down (s : Copying) (n : ℕ) : (s.down n).mem = s.mem := by
  cases s
  rfl

theorem At.align (hk : Placed k) (h : At k s n) : At k s.align ((n + 15) / 16 * 16) := by
  have huser : USER_SPACE_SIZE = 0x800000 := rfl
  have hbase : k.base = k.fakeStack + 0xC0000000 := rfl
  have hshift := user_add_shift k
  obtain ⟨hesp, hdes, hn⟩ := h
  obtain ⟨-, haligned, hlength, hle⟩ := hk
  have hesp' : s.align.esp = s.esp / 16 * 16 := and_mask (by omega)
  have hdes' : s.align.desAddress = s.desAddress / 16 * 16 := and_mask (by omega)
  refine ⟨?_, ?_, ?_⟩
  · rw [hesp']
    omega
  · rw [hesp', hdes']
    omega
  · omega

/-- A word that has been pushed. -/
theorem At.pushInt_ok (hk : Placed k) (h : At k s n) (hok : (s.down 4).putInt k v = .ok s') :
    At k s' (n + 4) ∧ (∀ a < USER_SPACE_SIZE, s'.mem a = s.mem a) ∧
      view k s'.mem = setWord (view k s.mem) s'.esp v := by
  obtain ⟨hin, hat⟩ := h.down hk four_le_user
  by_cases hinside : k.Inside (s.down 4).desAddress 4
  · obtain ⟨s₁, hput, hat₁, huser, hview⟩ := (hat (hin.mp hinside)).putInt hinside v
    rw [hok] at hput
    cases hput
    have hesp : (s.down 4).esp = s'.esp := by
      have hsum := hat₁.esp
      have hsum' := (hat (hin.mp hinside)).esp
      omega
    rw [hesp, mem_down] at hview
    exact ⟨hat₁, huser, hview⟩
  · rw [Copying.putInt, if_neg hinside] at hok
    cases hok

theorem At.pushInt_of (hk : Placed k) (h : At k s n) (hroom : n + 4 ≤ k.length) (v : ℕ) :
    ∃ s', (s.down 4).putInt k v = .ok s' := by
  obtain ⟨hin, hat⟩ := h.down hk four_le_user
  obtain ⟨s₁, hput, -⟩ := (hat hroom).putInt (hin.mpr hroom) v
  exact ⟨s₁, hput⟩

/-- Some bytes of the user space that have been pushed. -/
theorem At.push_ok (hk : Placed k) (h : At k s n) {src : ℕ} (hsrc : src + m ≤ USER_SPACE_SIZE)
    (hok : (s.down m).memCopy k src m = .ok s') :
    At k s' (n + m) ∧ (∀ a < USER_SPACE_SIZE, s'.mem a = s.mem a) ∧
      ∀ a, view k s'.mem a =
        if s'.esp ≤ a ∧ a < s'.esp + m then s.mem (src + (a - s'.esp)) else view k s.mem a := by
  obtain ⟨hin, hat⟩ := h.down hk (show m ≤ USER_SPACE_SIZE by omega)
  by_cases hinside : k.Inside (s.down m).desAddress m
  · obtain ⟨s₁, hcopy, hat₁, huser, hview⟩ := (hat (hin.mp hinside)).memCopy hinside hsrc
    rw [hok] at hcopy
    cases hcopy
    have hesp : (s.down m).esp = s'.esp := by
      have hsum := hat₁.esp
      have hsum' := (hat (hin.mp hinside)).esp
      omega
    simp only [hesp, mem_down] at hview
    exact ⟨hat₁, huser, hview⟩
  · rw [Copying.memCopy, if_neg hinside] at hok
    cases hok

theorem At.push_of (hk : Placed k) (h : At k s n) {src : ℕ} (hsrc : src + m ≤ USER_SPACE_SIZE)
    (hroom : n + m ≤ k.length) : ∃ s', (s.down m).memCopy k src m = .ok s' := by
  obtain ⟨hin, hat⟩ := h.down hk (show m ≤ USER_SPACE_SIZE by omega)
  obtain ⟨s₁, hcopy, -⟩ := (hat hroom).memCopy (hin.mpr hroom) hsrc
  exact ⟨s₁, hcopy⟩

end Pushes

/-! ### The words below the strings -/

/-- The end of `copyArgs`. -/
def finish (k : Area) (argc argv : ℕ) (s : Copying) : Except Stop Copying := do
  let s ← (s.align.down 4).putInt k 0
  let s ← (s.down (4 * argc)).memCopy k argv (4 * argc)
  let endValue := s.esp
  let s ← (s.down 4).putInt k endValue
  (s.down 4).putInt k argc

theorem copyArgs_eq (k : Area) (argc argv : ℕ) (mem : ℕ → UInt8) : copyArgs k argc argv mem =
    ((List.range argc).foldlM (copyArg k argv) (k.first mem) >>= finish k argc argv) := rfl

/-- The area as the new program will see it. -/
structure Finished (k : Area) (ts : List Text) (s : Copying) : Prop where
  place : At k s (total ts)
  argc : getWord (view k s.mem) s.esp = ts.length
  array : getWord (view k s.mem) (s.esp + 4) = s.esp + 8
  pointers : ∀ i < ts.length, getWord (view k s.mem) (s.esp + 8 + 4 * i) = address ts i
  ended : getWord (view k s.mem) (s.esp + 8 + 4 * ts.length) = 0
  stored : ∀ i t, ts[i]? = some t → ∀ j ≤ t.length,
    view k s.mem (address ts i + j) = t.getD j 0
  nonzero : ∀ t ∈ ts, 0 ∉ t

section Finish

variable {k : Area} {c : Caller} {ts : List Text} {s s' : Copying}

/-- **What is left** when the words have been written. -/
theorem finish_ok (hk : Placed k) (h : Copied k c ts s) (hlen : ts.length = c.argc)
    (hok : finish k c.argc c.argv s = .ok s') : Finished k ts s' := by
  have huser : USER_SPACE_SIZE = 0x800000 := rfl
  have harray := c.array_le
  obtain ⟨s₁, hzero, hok⟩ := Except.bind_eq_ok.mp hok
  obtain ⟨s₂, hcopy, hok⟩ := Except.bind_eq_ok.mp hok
  obtain ⟨s₃, hend, hargc⟩ := Except.bind_eq_ok.mp hok
  obtain ⟨hat₁, huser₁, hview₁⟩ := (h.place.align hk).pushInt_ok hk hzero
  obtain ⟨hat₂, -, hview₂⟩ := hat₁.push_ok hk harray hcopy
  obtain ⟨hat₃, -, hview₃⟩ := hat₂.pushInt_ok hk hend
  obtain ⟨hat₄, -, hview₄⟩ := hat₃.pushInt_ok hk hargc
  have hplace : At k s' (total ts) := by
    have htotal : total ts = (used ts + 15) / 16 * 16 + 4 + 4 * c.argc + 4 + 4 := by
      rw [total, hlen]
      omega
    exact htotal ▸ hat₄
  -- the places of the words
  have hesp₁ := hat₁.esp
  have hesp₂ := hat₂.esp
  have hesp₃ := hat₃.esp
  have hesp₄ := hat₄.esp
  have harrayWord : ∀ a, s₂.esp ≤ a →
      getWord (view k s'.mem) a = getWord (view k s₂.mem) a := by
    intro a ha
    rw [hview₄, getWord_setWord_of_outside _ _ (by omega), hview₃,
      getWord_setWord_of_outside _ _ (by omega)]
  refine ⟨hplace, ?_, ?_, fun i hi => ?_, ?_, fun i t hi j hj => ?_, fun t ht => ?_⟩
  · rw [hview₄, getWord_setWord _ _ (by omega), hlen]
  · rw [hview₄, getWord_setWord_of_outside _ _ (by omega), hview₃,
      show s'.esp + 4 = s₃.esp by omega, getWord_setWord _ _ (by omega)]
    omega
  · rw [harrayWord _ (by omega), ← getWord_slots hi]
    refine getWord_congr fun j hj => ?_
    rw [hview₂, if_pos (by omega), huser₁ _ (by omega)]
    rw [show s'.esp + 8 + 4 * i + j - s₂.esp = 4 * i + j by omega, ← Nat.add_assoc]
    exact h.user _ (by omega)
  · rw [harrayWord _ (by omega)]
    have hcongr : getWord (view k s₂.mem) (s'.esp + 8 + 4 * ts.length) =
        getWord (view k s₁.mem) s₁.esp := by
      refine getWord_congr fun j hj => ?_
      rw [hview₂, if_neg (by omega), show s'.esp + 8 + 4 * ts.length = s₁.esp by omega]
    rw [hcongr, hview₁, getWord_setWord _ _ (by decide)]
  · -- the strings are above
    have hle := used_take_le ts (i + 1)
    have haddress : address ts i = USER_SPACE_SIZE - used (ts.take (i + 1)) := rfl
    have hsum := h.place.esp
    rw [hview₄, setWord_of_outside _ _ (by omega), hview₃, setWord_of_outside _ _ (by omega),
      hview₂, if_neg (by omega), hview₁, setWord_of_outside _ _ (by omega)]
    exact h.stored i t hi j hj
  · obtain ⟨i, hi⟩ := List.getElem?_of_mem ht
    exact (textFrom_eq_some_iff.mp (h.read i t hi)).2.1

/-- With room for all that, the words are written. -/
theorem finish_of (hk : Placed k) (h : Copied k c ts s) (hlen : ts.length = c.argc)
    (hroom : total ts ≤ k.length) : ∃ s', finish k c.argc c.argv s = .ok s' := by
  rw [total, hlen] at hroom
  obtain ⟨s₁, hzero⟩ := (h.place.align hk).pushInt_of hk (by omega) 0
  have hat₁ := ((h.place.align hk).pushInt_ok hk hzero).1
  obtain ⟨s₂, hcopy⟩ := hat₁.push_of hk c.array_le (by omega)
  have hat₂ := (hat₁.push_ok hk c.array_le hcopy).1
  obtain ⟨s₃, hend⟩ := hat₂.pushInt_of hk (by omega) s₂.esp
  have hat₃ := (hat₂.pushInt_ok hk hend).1
  obtain ⟨s₄, hargc⟩ := hat₃.pushInt_of hk (by omega) c.argc
  refine ⟨s₄, ?_⟩
  rw [finish, hzero, Except.ok_bind, hcopy, Except.ok_bind]
  dsimp only
  rw [hend, Except.ok_bind, hargc]

end Finish

/-! ### What the new program finds -/

section Found

variable {k : Area} {ts us : List Text} {s : Copying} {stackSize : ℕ} {mem : ℕ → UInt8}

/-- The stack is the end of the area. -/
theorem copyStack_eq (hk : Placed k) (s : Copying) (hsize : stackSize ≤ USER_SPACE_SIZE)
    (hle : stackSize ≤ k.length) (image : ℕ → UInt8) :
    ∃ mem, copyStack k stackSize s image = .ok mem ∧
      ∀ a, USER_SPACE_SIZE ≤ a + stackSize → a < USER_SPACE_SIZE → mem a = view k s.mem a := by
  have huser : USER_SPACE_SIZE = 0x800000 := rfl
  have hbase : k.base = k.fakeStack + 0xC0000000 := rfl
  have hshift := user_add_shift k
  have hlow := hk.le
  have hmod : (k.fakeStack + k.length + 2 ^ 32 - stackSize) % 2 ^ 32 =
      k.fakeStack + k.length - stackSize := by
    omega
  have hor : k.fakeStack + k.length - stackSize ||| 0xC0000000 =
      USER_SPACE_SIZE - stackSize + k.shift := by
    have hadd := Nat.two_pow_add_eq_or_of_lt
      (show k.fakeStack + k.length - stackSize < 2 ^ 30 by omega) 3
    rw [Nat.or_comm, show (0xC0000000 : ℕ) = 2 ^ 30 * 3 from rfl, ← hadd]
    omega
  refine ⟨_, if_pos hsize, fun a ha hlt => ?_⟩
  have hsrc : USER_SPACE_SIZE - stackSize + k.shift + (a - (USER_SPACE_SIZE - stackSize)) =
      a + k.shift := by
    omega
  rw [hmod, hor, Copy.copyUp_apply (.inl (by omega)), if_pos (by omega), if_neg (by omega), view,
    hsrc]

/-- A string lies below the end of the user space, and above the words. -/
theorem address_bounds {i : ℕ} {t : Text} (h : ts[i]? = some t)
    (hused : used ts ≤ USER_SPACE_SIZE) :
    USER_SPACE_SIZE ≤ address ts i + used ts ∧
      address ts i + (t.length + 1) + used (ts.take i) = USER_SPACE_SIZE := by
  have hle := used_take_le ts (i + 1)
  have hsucc := used_take_succ h
  rw [address]
  omega

variable (h : Finished k ts s) (hle : total ts ≤ stackSize)
  (hmem : ∀ a, USER_SPACE_SIZE ≤ a + stackSize → a < USER_SPACE_SIZE → mem a = view k s.mem a)

include h hle hmem

/-- A word of the stack. -/
theorem Finished.getWord_eq {a : ℕ} (hlow : s.esp ≤ a) (hhigh : a + 4 ≤ USER_SPACE_SIZE) :
    getWord mem a = getWord (view k s.mem) a := by
  have hesp := h.place.esp
  exact getWord_congr fun j hj => hmem _ (by omega) (by omega)

/-- The words are in the stack. -/
theorem Finished.words : getWord mem s.esp = ts.length ∧ getWord mem (s.esp + 4) = s.esp + 8 ∧
    (∀ i < ts.length, getWord mem (s.esp + 8 + 4 * i) = address ts i) ∧
    getWord mem (s.esp + 8 + 4 * ts.length) = 0 := by
  have hesp := h.place.esp
  rw [total] at hesp
  refine ⟨?_, ?_, fun i hi => ?_, ?_⟩
  · rw [h.getWord_eq hle hmem (Nat.le_refl _) (by omega), h.argc]
  · rw [h.getWord_eq hle hmem (by omega) (by omega), h.array]
  · rw [h.getWord_eq hle hmem (by omega) (by omega), h.pointers i hi]
  · rw [h.getWord_eq hle hmem (by omega) (by omega), h.ended]

/-- So are the strings. -/
theorem Finished.textAt_eq {i : ℕ} {t : Text} (hi : ts[i]? = some t) :
    textAt mem (address ts i) = some t := by
  have hesp := h.place.esp
  have htotal : total ts = (used ts + 15) / 16 * 16 + 4 * (ts.length + 3) := rfl
  obtain ⟨hlow, hhigh⟩ := address_bounds hi (by omega)
  refine textFrom_eq_some_iff.mpr ⟨by omega, h.nonzero t (List.mem_of_getElem? hi), fun j hj => ?_⟩
  rw [hmem _ (by omega) (by omega)]
  exact h.stored i t hi j hj

/-- Where the pieces are. -/
theorem Finished.pieces_eq : pieces mem s.esp ts =
    (s.esp, 8) :: (s.esp + 8, 4 * (ts.length + 1)) ::
      (List.range ts.length).map fun i => (address ts i, (ts.getD i []).length + 1) := by
  obtain ⟨-, harray, hpointers, -⟩ := h.words hle hmem
  rw [pieces, harray]
  congr 2
  refine List.map_congr_left fun i hi => ?_
  rw [hpointers i (List.mem_range.mp hi)]

/-- **The arguments are found.** -/
theorem Finished.handed : Handed ts stackSize s.esp mem := by
  have hesp := h.place.esp
  have htotal : total ts = (used ts + 15) / 16 * 16 + 4 * (ts.length + 3) := rfl
  obtain ⟨hargc, harray, hpointers, hended⟩ := h.words hle hmem
  have hget : ∀ i < ts.length, ts[i]? = some (ts.getD i []) := by
    intro i hi
    rw [List.getD_eq_getElem?_getD, List.getElem?_eq_getElem hi]
    rfl
  refine ⟨hargc, fun i hi => ?_, harray ▸ hended, ?_, ?_⟩
  · rw [harray, hpointers i hi]
    exact h.textAt_eq hle hmem (hget i hi)
  · rw [h.pieces_eq hle hmem]
    intro x hx
    rcases List.mem_cons.mp hx with rfl | hx
    · dsimp only
      omega
    rcases List.mem_cons.mp hx with rfl | hx
    · dsimp only
      omega
    · obtain ⟨i, hi, rfl⟩ := List.mem_map.mp hx
      have hbounds := address_bounds (hget i (List.mem_range.mp hi)) (by omega)
      dsimp only
      omega
  · rw [h.pieces_eq hle hmem, List.pairwise_cons, List.pairwise_cons, List.pairwise_map]
    refine ⟨fun y hy => ?_, fun y hy => ?_, ?_⟩
    · rcases List.mem_cons.mp hy with rfl | hy
      · exact .inl (Nat.le_refl _)
      · obtain ⟨i, hi, rfl⟩ := List.mem_map.mp hy
        have hbounds := address_bounds (hget i (List.mem_range.mp hi)) (by omega)
        dsimp only
        omega
    · obtain ⟨i, hi, rfl⟩ := List.mem_map.mp hy
      have hbounds := address_bounds (hget i (List.mem_range.mp hi)) (by omega)
      dsimp only
      omega
    · -- later strings are lower
      refine List.Pairwise.imp_of_mem (fun {i j} hi hj hij => .inr ?_) List.pairwise_lt_range
      have hbounds := address_bounds (hget j (List.mem_range.mp hj)) (by omega)
      have hbounds' := address_bounds (hget i (List.mem_range.mp hi)) (by omega)
      have hmono := @used_take_mono ts (i + 1) j hij
      have hsucc := used_take_succ (hget i (List.mem_range.mp hi))
      dsimp only
      omega

omit hle in
/-- **Other arguments are not**, and not in a smaller stack. -/
theorem Finished.texts_eq (hlen : us.length = ts.length) (hh : Handed us stackSize s.esp mem) :
    total ts ≤ stackSize ∧ us = ts := by
  have hesp := h.place.esp
  have hle : total ts ≤ stackSize := by
    have hin := (hh.inStack (s.esp, 8) List.mem_cons_self).1
    dsimp only at hin
    omega
  obtain ⟨-, harray, hpointers, -⟩ := h.words hle hmem
  refine ⟨hle, List.ext_getElem? fun i => ?_⟩
  by_cases hi : i < ts.length
  · have hstring := hh.strings i (hlen ▸ hi)
    rw [harray, hpointers i hi, h.textAt_eq hle hmem (List.getElem?_eq_getElem hi)] at hstring
    rw [List.getElem?_eq_getElem hi, hstring, List.getD_eq_getElem?_getD,
      List.getElem?_eq_getElem (hlen ▸ hi)]
    rfl
  · rw [List.getElem?_eq_none (by omega), List.getElem?_eq_none (by omega)]

end Found

/-! ### The area that is found -/

section Pool

variable {kernel : KernelPool} {stackSize : ℕ}

theorem toNat_allocLength (h : stackSize ≤ USER_SPACE_SIZE) :
    (allocLength stackSize).toNat = (stackSize + 0x1fff) / 0x2000 * 0x2000 := by
  have huser : USER_SPACE_SIZE = 0x800000 := rfl
  have hsum : (UInt32.ofNat stackSize + 0x1fff).toNat = stackSize + 0x1fff := by
    rw [UInt32.toNat_add, UInt32.toNat_ofNat']
    change (stackSize % 2 ^ 32 + 0x1fff) % 2 ^ 32 = _
    omega
  rw [allocLength, UInt32.toNat_shiftLeft, UInt32.toNat_shiftRight, hsum]
  change (stackSize + 0x1fff) >>> 13 <<< 13 % 2 ^ 32 = _
  rw [Nat.shiftRight_eq_div_pow, Nat.shiftLeft_eq]
  omega

theorem toNat_pages (h : stackSize ≤ USER_SPACE_SIZE) :
    (pages (allocLength stackSize)).toNat = ((allocLength stackSize).toNat + 0xfff) / 0x1000 := by
  have huser : USER_SPACE_SIZE = 0x800000 := rfl
  have hlength := toNat_allocLength h
  rw [pages, UInt32.toNat_div, UInt32.toNat_add]
  change ((allocLength stackSize).toNat + 0xfff) % 2 ^ 32 / 0x1000 = _
  omega

/-- `fakeStack` and `allocLength`. -/
def areaOf (pool : MapState) (stackSize : ℕ) : Area :=
  ⟨(pool.allocMemory (allocLength stackSize)).1.toNat, (allocLength stackSize).toNat⟩

/-- With pages enough there is an area. -/
theorem placed_of_hasExtent (hpos : 0 < stackSize) (hsize : stackSize ≤ USER_SPACE_SIZE)
    (hextent : kernel.pool.hasExtent (pages (allocLength stackSize)) = true) :
    Placed (areaOf kernel.pool stackSize) := by
  have hlength := toNat_allocLength hsize
  have hpages := toNat_pages hsize
  have htook := took_alloc kernel.inv (.inr hextent)
  have hrange : ∀ u, (kernel.pool.alloc (pages (allocLength stackSize))).1.toNat ≤ u →
      u < (kernel.pool.alloc (pages (allocLength stackSize))).1.toNat +
        (pages (allocLength stackSize)).toNat → u ∈ Set.Ico 0x204 0x400 := fun u hlo hhi =>
    kernel.inv.sub (htook.subset ⟨hlo, hhi⟩)
  have hfirst := hrange _ (Nat.le_refl _) (by omega)
  have hlast := hrange ((kernel.pool.alloc (pages (allocLength stackSize))).1.toNat +
    (pages (allocLength stackSize)).toNat - 1) (by omega) (by omega)
  rw [Set.mem_Ico] at hfirst hlast
  have hfake : (areaOf kernel.pool stackSize).fakeStack =
      (kernel.pool.alloc (pages (allocLength stackSize))).1.toNat * 0x1000 := by
    change ((kernel.pool.alloc (pages (allocLength stackSize))).1 * Allocator.PAGE_SIZE).toNat = _
    rw [UInt32.toNat_mul]
    change _ * 0x1000 % 2 ^ 32 = _
    omega
  have harea : (areaOf kernel.pool stackSize).length = (allocLength stackSize).toNat := rfl
  refine ⟨?_, ?_, ?_, ?_⟩ <;> omega

/-- An address that is not zero means that there were pages enough. -/
theorem hasExtent_of_ne_zero (hpos : 0 < stackSize) (hsize : stackSize ≤ USER_SPACE_SIZE)
    (hne : (areaOf kernel.pool stackSize).fakeStack ≠ 0) :
    kernel.pool.hasExtent (pages (allocLength stackSize)) = true := by
  have hlength := toNat_allocLength hsize
  have hpages := toNat_pages hsize
  have hsome : 0 < pages (allocLength stackSize) := by
    rw [UInt32.lt_iff_toNat_lt, hpages]
    change 0 < _
    omega
  obtain ⟨r, m, b, halloc, -, -, -, hspec, -⟩ :=
    allocNext_spec kernel.inv.wf kernel.inv.begin_lt hsome
  rcases hspec with ⟨⟨n, hn, hle⟩, -⟩ | ⟨-, hzero, -⟩
  · exact List.any_eq_true.mpr ⟨n, hn, decide_eq_true hle⟩
  · have hfirst : (kernel.pool.alloc (pages (allocLength stackSize))).1 = 0 := by
      rw [MapState.alloc, halloc]
      exact hzero
    refine absurd ?_ hne
    change ((kernel.pool.alloc (pages (allocLength stackSize))).1 * Allocator.PAGE_SIZE).toNat = 0
    rw [hfirst, UInt32.zero_mul]
    rfl

end Pool

/-! ### The whole call -/

section Call

variable {kernel : KernelPool} {stackSize : ℕ} {c : Caller}

theorem length_texts (c : Caller) : c.texts.length = c.argc := by
  simp [Caller.texts]

/-- The condition. -/
structure Suits (kernel : KernelPool) (stackSize : ℕ) (c : Caller) : Prop where
  room : kernel.pool.hasExtent (pages (allocLength stackSize)) = true
  size : stackSize ≤ USER_SPACE_SIZE
  fits : total c.texts ≤ stackSize
  apart : c.Apart

/-- A copy to the stack that is not too large. -/
theorem size_of_copyStack {k : Area} {s : Copying} {image mem : ℕ → UInt8}
    (h : copyStack k stackSize s image = .ok mem) : stackSize ≤ USER_SPACE_SIZE := by
  by_contra hlarge
  rw [copyStack, if_neg hlarge] at h
  cases h

/-- `argc` is in an area. -/
theorem inside_of_finish {k : Area} {argc argv : ℕ} {s s' : Copying}
    (h : finish k argc argv s = .ok s') : k.fakeStack ≠ 0 ∧ 0 < k.length := by
  obtain ⟨s₁, -, h⟩ := Except.bind_eq_ok.mp h
  obtain ⟨s₂, -, h⟩ := Except.bind_eq_ok.mp h
  obtain ⟨s₃, -, h⟩ := Except.bind_eq_ok.mp h
  by_cases hin : k.Inside (s₃.down 4).desAddress 4
  · obtain ⟨hne, hlow, hhigh⟩ := hin
    exact ⟨hne, by omega⟩
  · rw [Copying.putInt, if_neg hin] at h
    cases h

theorem Suits.passes (h : Suits kernel stackSize c) : Passes kernel stackSize c := by
  intro image
  have htotal : total c.texts = (used c.texts + 15) / 16 * 16 + 4 * (c.texts.length + 3) := rfl
  have hsum := h.fits
  have hk := placed_of_hasExtent (by omega) h.size h.room
  have hle : stackSize ≤ (areaOf kernel.pool stackSize).length := by
    change _ ≤ (allocLength stackSize).toNat
    rw [toNat_allocLength h.size]
    omega
  obtain ⟨s, hloop, hcopied⟩ := loop_of hk h.apart (by omega) (Nat.le_refl c.argc)
  rw [← length_texts c, List.take_length] at hcopied
  obtain ⟨s', hfinish⟩ := finish_of hk hcopied (length_texts c) (by omega)
  have hfinished := finish_ok hk hcopied (length_texts c) hfinish
  obtain ⟨mem, hstack, hmem⟩ := copyStack_eq hk s' h.size hle image
  refine ⟨(s'.esp, mem), ?_, hfinished.handed h.fits hmem⟩
  change (copyArgs (areaOf kernel.pool stackSize) c.argc c.argv c.mem >>= fun s =>
    copyStack (areaOf kernel.pool stackSize) stackSize s image >>= fun mem =>
      Except.ok (s.esp, mem)) = _
  rw [copyArgs_eq, hloop, Except.ok_bind, hfinish, Except.ok_bind, hstack, Except.ok_bind]

theorem Suits.of_passes (h : Passes kernel stackSize c) : Suits kernel stackSize c := by
  obtain ⟨r, hok, hhanded⟩ := h fun _ => 0
  obtain ⟨s', hargs, hok⟩ := Except.bind_eq_ok.mp hok
  obtain ⟨mem, hstack, hok⟩ := Except.bind_eq_ok.mp hok
  cases hok
  change copyArgs (areaOf kernel.pool stackSize) c.argc c.argv c.mem = _ at hargs
  change copyStack (areaOf kernel.pool stackSize) stackSize s' _ = _ at hstack
  rw [copyArgs_eq] at hargs
  obtain ⟨s, hloop, hfinish⟩ := Except.bind_eq_ok.mp hargs
  have hsize := size_of_copyStack hstack
  obtain ⟨hne, hpos⟩ := inside_of_finish hfinish
  have hlength : (areaOf kernel.pool stackSize).length = _ := toNat_allocLength hsize
  have hroom := hasExtent_of_ne_zero (by omega) hsize hne
  have hk := placed_of_hasExtent (by omega) hsize hroom
  obtain ⟨ts, hlen, hcopied⟩ := loop_ok hk (Nat.le_refl _) hloop
  have hfinished := finish_ok hk hcopied hlen hfinish
  obtain ⟨mem', hstack', hmem⟩ := copyStack_eq hk s' hsize (by omega) fun _ => 0
  rw [hstack] at hstack'
  cases hstack'
  obtain ⟨htotal, htexts⟩ := hfinished.texts_eq hmem ((length_texts c).trans hlen.symm) hhanded
  refine ⟨hroom, hsize, htexts ▸ htotal, fun i hi => ?_⟩
  rw [htexts]
  refine hcopied.read i _ ?_
  rw [← htexts]
  exact getElem?_texts hi

end Call

/-- The kernel after it has been started. -/
def freshKernel : KernelPool where
  pool := ⟨kernelMap, 0⟩
  inv := by
    rw [← freeUnits_kernelMap]
    refine ⟨wellFormed_kernelMap, subset_rfl, ?_⟩
    change 0 < kernelMap.length
    rw [length_kernelMap]
    exact Nat.succ_pos _

/-- Some empty strings. -/
def emptyArguments : Caller where
  mem := fun _ => 0
  argc := 1024
  argv := 0x400000
  array_le := by
    have huser : USER_SPACE_SIZE = 0x800000 := rfl
    omega
  text := by
    intro i _
    refine ⟨[], textFrom_eq_some_iff.mpr ⟨?_, List.not_mem_nil, fun k _ => rfl⟩⟩
    have huser : USER_SPACE_SIZE = 0x800000 := rfl
    have hzero : getWord (fun _ => 0) (0x400000 + 4 * i) = 0 := rfl
    rw [hzero, List.length_nil]
    omega

end Arguments
end UnixV6pp
