import UnixV6pp.Proc.ExecArgs

/-!
# The copy of the arguments

The two pointers stay as far apart as the end of the area and the end of the user space are, so that
the area can be seen as the stack that it will be.

## Main definitions

* `Placed` — an area that `AllocMemory` finds.
* `view` — the area, with the addresses of the stack.
* `Copied` — some strings have been copied.

## Main results

* `copyArg_eq` — one string more, if there is one and there is room for it.
* `loop_ok`, `loop_of` — **the loop**: what it has done if it ends, and that it ends.
-/

namespace UnixV6pp
namespace Arguments

open Words Paging

/-! ### Lengths and addresses -/

section Lengths

variable {ts us : List Text} {t : Text} {mem : ℕ → UInt8} {a esp i o : ℕ}

@[simp] theorem used_nil : used [] = 0 := rfl

theorem used_cons (t : Text) (ts : List Text) : used (t :: ts) = t.length + 1 + used ts := by
  simp [used]

theorem used_append (ts us : List Text) : used (ts ++ us) = used ts + used us := by
  simp [used]

theorem used_snoc (ts : List Text) (t : Text) : used (ts ++ [t]) = used ts + (t.length + 1) := by
  simp [used]

theorem used_take_le (ts : List Text) (i : ℕ) : used (ts.take i) ≤ used ts := by
  conv_rhs => rw [← List.take_append_drop i ts, used_append]
  exact Nat.le_add_right _ _

theorem used_take_succ (h : ts[i]? = some t) :
    used (ts.take (i + 1)) = used (ts.take i) + (t.length + 1) := by
  rw [List.take_add_one, h, Option.toList_some, used_snoc]

theorem used_take_mono {j : ℕ} (h : i ≤ j) : used (ts.take i) ≤ used (ts.take j) := by
  rw [← Nat.min_eq_left h, ← List.take_take]
  exact used_take_le _ _

theorem address_of_lt (h : i < ts.length) (t : Text) : address (ts ++ [t]) i = address ts i := by
  rw [address, address, List.take_append_of_le_length h]

theorem address_length (ts : List Text) (t : Text) :
    address (ts ++ [t]) ts.length = USER_SPACE_SIZE - used (ts ++ [t]) := by
  rw [address, List.take_of_length_le (by simp)]

theorem address_lt (ts : List Text) (i : ℕ) : address ts i < 2 ^ 32 := by
  have huser : USER_SPACE_SIZE < 2 ^ 32 := by decide
  rw [address]
  omega

/-- The last of some strings, or one before it. -/
theorem getElem?_snoc {t' : Text} (h : (ts ++ [t])[i]? = some t') :
    i < ts.length ∧ ts[i]? = some t' ∨ i = ts.length ∧ t = t' := by
  rcases Nat.lt_trichotomy i ts.length with hlt | rfl | hgt
  · rw [List.getElem?_append_left hlt] at h
    exact .inl ⟨hlt, h⟩
  · rw [List.getElem?_concat_length] at h
    exact .inr ⟨rfl, Option.some.inj h⟩
  · rw [List.getElem?_eq_none (by simp; omega)] at h
    cases h

theorem slots_snoc (ts : List Text) (t : Text) : slots mem a esp (ts ++ [t]) =
    setWord (slots mem a esp ts) (a + 4 * ts.length) (esp - used (ts ++ [t])) := by
  induction ts generalizing mem a esp with
  | nil => rfl
  | cons x ts ih =>
    rw [List.cons_append, slots, ih, slots, List.length_cons, used_cons, Nat.sub_sub,
      show a + 4 + 4 * ts.length = a + 4 * (ts.length + 1) by omega]

/-- Only the array changes. -/
theorem slots_of_outside (h : o < a ∨ a + 4 * ts.length ≤ o) : slots mem a esp ts o = mem o := by
  induction ts generalizing mem a esp with
  | nil => rfl
  | cons x ts ih =>
    rw [List.length_cons] at h
    rw [slots, ih (by omega), setWord_of_outside _ _ (by omega)]

/-- The pointers that have not been replaced. -/
theorem getWord_slots_of_ge (h : ts.length ≤ i) :
    getWord (slots mem a esp ts) (a + 4 * i) = getWord mem (a + 4 * i) :=
  getWord_congr fun k _ => slots_of_outside (by omega)

/-- Those that have. -/
theorem getWord_slots (h : i < ts.length) :
    getWord (slots mem a USER_SPACE_SIZE ts) (a + 4 * i) = address ts i := by
  induction ts using List.reverseRecOn with
  | nil => exact absurd h (Nat.not_lt_zero i)
  | append_singleton ts t ih =>
    rw [slots_snoc, ← address_length]
    rw [List.length_append, List.length_singleton] at h
    rcases Nat.lt_succ_iff_lt_or_eq.mp h with hlt | rfl
    · rw [getWord_setWord_of_outside _ _ (by omega), ih hlt, address_of_lt hlt]
    · rw [getWord_setWord _ _ (address_lt _ _)]

end Lengths

/-! ### Reads of strings -/

section Reads

variable {mem mem' : ℕ → UInt8}

/-- The loop over the string, and the string. -/
theorem stringLength_eq (mem : ℕ → UInt8) (limit p : ℕ) : stringLength mem limit p =
    match textFrom mem limit p with
    | some t => .ok t.length
    | none => .error .user := by
  induction limit generalizing p with
  | zero => rfl
  | succ limit ih =>
    rw [stringLength, textFrom]
    split
    · rfl
    · rw [ih]
      cases textFrom mem limit (p + 1) <;> rfl

theorem textFrom_of_agree {limit p : ℕ} (h : ∀ k < limit, mem (p + k) = mem' (p + k)) :
    textFrom mem limit p = textFrom mem' limit p := by
  induction limit generalizing p with
  | zero => rfl
  | succ limit ih =>
    have hp : mem p = mem' p := h 0 (Nat.succ_pos _)
    rw [textFrom, textFrom, hp, ih fun k hk => ?_]
    have hk' := h (k + 1) (Nat.succ_lt_succ hk)
    rwa [← Nat.add_assoc, Nat.add_right_comm] at hk'

/-- Only the user space matters. -/
theorem textAt_congr (h : ∀ a < USER_SPACE_SIZE, mem a = mem' a) (p : ℕ) :
    textAt mem p = textAt mem' p := by
  refine textFrom_of_agree fun k hk => h (p + k) ?_
  omega

end Reads

/-! ### The area as a stack -/

/-- The area is one of aligned pages below 4 MiB. -/
structure Placed (k : Area) : Prop where
  ne_zero : k.fakeStack ≠ 0
  aligned : k.fakeStack % 16 = 0
  length_aligned : k.length % 16 = 0
  le : k.fakeStack + k.length ≤ 0x400000

/-- How far the area is above the stack. -/
def Area.shift (k : Area) : ℕ := k.base + k.length - USER_SPACE_SIZE

/-- The area, with the addresses that its bytes will have. -/
def view (k : Area) (mem : ℕ → UInt8) (a : ℕ) : UInt8 := mem (a + k.shift)

/-- The pointers, when `n` bytes have been used. -/
structure At (k : Area) (s : Copying) (n : ℕ) : Prop where
  esp : s.esp + n = USER_SPACE_SIZE
  desAddress : s.desAddress = s.esp + k.shift
  le : n ≤ k.length

section Stack

variable {k : Area} {s s' : Copying} {n m : ℕ}

theorem user_add_shift (k : Area) : USER_SPACE_SIZE + k.shift = k.base + k.length := by
  have huser : USER_SPACE_SIZE = 0x800000 := rfl
  rw [Area.shift, Area.base, huser]
  omega

/-- **Both pointers are moved**; there is room exactly if the bytes are in the area. -/
theorem At.down (hk : Placed k) (h : At k s n) (hm : m ≤ USER_SPACE_SIZE) :
    (k.Inside (s.down m).desAddress m ↔ n + m ≤ k.length) ∧
      (n + m ≤ k.length → At k (s.down m) (n + m)) := by
  have huser : USER_SPACE_SIZE = 0x800000 := rfl
  have hbase : k.base = k.fakeStack + 0xC0000000 := rfl
  have hshift := user_add_shift k
  have hle := hk.le
  obtain ⟨hesp, hdes, hn⟩ := h
  have hdes' : (s.down m).desAddress = s.desAddress - m := by
    change (s.desAddress + 2 ^ 32 - m) % 2 ^ 32 = _
    omega
  refine ⟨⟨fun hin => ?_, fun hroom => ⟨hk.ne_zero, ?_, ?_⟩⟩, fun hroom => ⟨?_, ?_, hroom⟩⟩
  · have hlow := hin.2.1
    rw [hdes'] at hlow
    omega
  · omega
  · omega
  · change (s.esp + 2 ^ 32 - m) % 2 ^ 32 + (n + m) = USER_SPACE_SIZE
    omega
  · change (s.down m).desAddress = (s.esp + 2 ^ 32 - m) % 2 ^ 32 + k.shift
    omega

/-- Some bytes of the user space are copied. -/
theorem At.memCopy (h : At k s n) (hin : k.Inside s.desAddress m) {src : ℕ}
    (hsrc : src + m ≤ USER_SPACE_SIZE) :
    ∃ s', s.memCopy k src m = .ok s' ∧ At k s' n ∧
      (∀ a < USER_SPACE_SIZE, s'.mem a = s.mem a) ∧
      ∀ a, view k s'.mem a =
        if s.esp ≤ a ∧ a < s.esp + m then s.mem (src + (a - s.esp)) else view k s.mem a := by
  have huser : USER_SPACE_SIZE = 0x800000 := rfl
  have hbase : k.base = k.fakeStack + 0xC0000000 := rfl
  have hlow := hin.2.1
  refine ⟨_, if_pos hin, ⟨h.esp, h.desAddress, h.le⟩, fun a ha => ?_, fun a => ?_⟩
  · change Copy.copyUp s.mem src s.desAddress m a = s.mem a
    rw [Copy.copyUp_apply (.inr (by omega)), if_neg (by omega)]
  · have hdes := h.desAddress
    change Copy.copyUp s.mem src s.desAddress m (a + k.shift) = _
    unfold view
    rw [Copy.copyUp_apply (.inr (by omega))]
    by_cases ha : s.esp ≤ a ∧ a < s.esp + m
    · rw [if_pos ha, if_pos (by omega), hdes, Nat.add_sub_add_right]
    · rw [if_neg ha, if_neg (by omega)]

/-- A word is written. -/
theorem At.putInt (h : At k s n) (hin : k.Inside s.desAddress 4) (v : ℕ) :
    ∃ s', s.putInt k v = .ok s' ∧ At k s' n ∧ (∀ a < USER_SPACE_SIZE, s'.mem a = s.mem a) ∧
      view k s'.mem = setWord (view k s.mem) s.esp v := by
  have huser : USER_SPACE_SIZE = 0x800000 := rfl
  have hbase : k.base = k.fakeStack + 0xC0000000 := rfl
  have hlow := hin.2.1
  refine ⟨_, if_pos hin, ⟨h.esp, h.desAddress, h.le⟩, fun a ha => ?_, funext fun a => ?_⟩
  · exact setWord_of_outside _ _ (.inl (by omega))
  · have hdes := h.desAddress
    change setWord s.mem s.desAddress v (a + k.shift) = setWord (view k s.mem) s.esp v a
    unfold view setWord
    by_cases ha : s.esp ≤ a ∧ a < s.esp + 4
    · rw [if_pos ha, if_pos (by omega), hdes, Nat.add_sub_add_right]
    · rw [if_neg ha, if_neg (by omega)]

end Stack

/-! ### The loop -/

/-- Some strings have been copied, and the pointers to them replaced. -/
structure Copied (k : Area) (c : Caller) (ts : List Text) (s : Copying) : Prop where
  place : At k s (used ts)
  user : ∀ a < USER_SPACE_SIZE, s.mem a = slots c.mem c.argv USER_SPACE_SIZE ts a
  stored : ∀ i t, ts[i]? = some t → ∀ j ≤ t.length,
    view k s.mem (address ts i + j) = t.getD j 0
  read : ∀ i t, ts[i]? = some t → textAt (slots c.mem c.argv USER_SPACE_SIZE (ts.take i))
    (getWord c.mem (c.argv + 4 * i)) = some t

section Loop

variable {k : Area} {c : Caller} {ts : List Text} {s s' : Copying} {t : Text}

/-- What `copyArg` finds in the array, and behind it. -/
theorem Copied.textAt_eq (h : Copied k c ts s) (hlt : ts.length < c.argc) :
    getWord s.mem (c.argv + 4 * ts.length) = getWord c.mem (c.argv + 4 * ts.length) ∧
      ∀ p, textAt s.mem p = textAt (slots c.mem c.argv USER_SPACE_SIZE ts) p := by
  have harray := c.array_le
  refine ⟨?_, textAt_congr h.user⟩
  exact (getWord_congr fun j hj => h.user _ (by omega)).trans
    (getWord_slots_of_ge (Nat.le_refl ts.length))

/-- **One string more.** -/
theorem Copied.next (hk : Placed k) (h : Copied k c ts s) (hlt : ts.length < c.argc)
    (ht : textAt (slots c.mem c.argv USER_SPACE_SIZE ts)
      (getWord c.mem (c.argv + 4 * ts.length)) = some t)
    (hroom : used (ts ++ [t]) ≤ k.length) :
    ∃ s', copyArg k c.argv s ts.length = .ok s' ∧ Copied k c (ts ++ [t]) s' := by
  obtain ⟨hpointer, htext⟩ := h.textAt_eq hlt
  have harray := c.array_le
  have hread := ht
  rw [← htext, ← hpointer] at ht
  obtain ⟨hlen, hmem, hbytes⟩ := textFrom_eq_some_iff.mp ht
  generalize hp : getWord s.mem (c.argv + 4 * ts.length) = p at ht hlen hbytes
  have hlength : stringLength s.mem (USER_SPACE_SIZE - p) p = .ok t.length := by
    rw [stringLength_eq]
    unfold textAt at ht
    rw [ht]
  rw [used_snoc] at hroom
  obtain ⟨hin, hat⟩ := h.place.down hk (show t.length + 1 ≤ USER_SPACE_SIZE by omega)
  obtain ⟨s₁, hcopy, hat₁, huser, hview⟩ := (hat hroom).memCopy (hin.mpr hroom)
    (show p + (t.length + 1) ≤ USER_SPACE_SIZE by omega)
  have hesp : s₁.esp = USER_SPACE_SIZE - used (ts ++ [t]) := by
    have hsum := hat₁.esp
    rw [used_snoc]
    omega
  have hdown : (s.down (t.length + 1)).esp = s₁.esp := by
    have hsum := hat₁.esp
    have hsum' := (hat hroom).esp
    omega
  refine ⟨_, by rw [copyArg, hp, hlength, Except.ok_bind, hcopy]; rfl, ?_, ?_, ?_, ?_⟩
  · rw [used_snoc]
    exact ⟨hat₁.esp, hat₁.desAddress, hat₁.le⟩
  · intro a ha
    rw [slots_snoc, ← hesp]
    change setWord s₁.mem _ _ a = _
    unfold setWord
    split
    · rfl
    · rw [huser a ha]
      exact h.user a ha
  · intro i t' hi j hj
    -- the area is behind the array
    have hbase : k.base = k.fakeStack + 0xC0000000 := rfl
    have hview' : ∀ a, s₁.esp ≤ a → view k (setWord s₁.mem (c.argv + 4 * ts.length) s₁.esp) a =
        view k s₁.mem a := by
      intro a ha
      have huser' : USER_SPACE_SIZE = 0x800000 := rfl
      have hshift := user_add_shift k
      have hsum := hat₁.esp
      have hle := hat₁.le
      exact setWord_of_outside _ _ (.inr (by omega))
    rcases getElem?_snoc hi with ⟨hlt', hi⟩ | ⟨rfl, rfl⟩
    · have hsum := (hat hroom).esp
      have hsum' := hat₁.esp
      have hle : used (ts.take (i + 1)) ≤ used ts := used_take_le ts (i + 1)
      have haddress : address ts i = USER_SPACE_SIZE - used (ts.take (i + 1)) := rfl
      rw [address_of_lt hlt', hview' _ (by omega), hview, if_neg (by omega)]
      exact h.stored i t' hi j hj
    · have hesp' : address (ts ++ [t]) ts.length = s₁.esp := (address_length ts t).trans hesp.symm
      rw [hesp', hview' _ (Nat.le_add_right _ _), hview, hdown, if_pos (by omega),
        Nat.add_sub_cancel_left]
      exact hbytes j hj
  · intro i t' hi
    rcases getElem?_snoc hi with ⟨hlt', hi⟩ | ⟨rfl, rfl⟩
    · rw [List.take_append_of_le_length (Nat.le_of_lt hlt')]
      exact h.read i t' hi
    · rw [List.take_left]
      exact hread

/-- A copy that succeeds is one of a string, for which there is room. -/
theorem Copied.of_ok (hk : Placed k) (h : Copied k c ts s) (hlt : ts.length < c.argc)
    (hok : copyArg k c.argv s ts.length = .ok s') : ∃ t, Copied k c (ts ++ [t]) s' := by
  obtain ⟨hpointer, htext⟩ := h.textAt_eq hlt
  have hstart := hok
  rw [copyArg, stringLength_eq] at hok
  change (match textAt s.mem (getWord s.mem (c.argv + 4 * ts.length)) with
    | some t => Except.ok t.length
    | none => Except.error Stop.user) >>= _ = _ at hok
  rw [htext, hpointer] at hok
  rcases ht : textAt (slots c.mem c.argv USER_SPACE_SIZE ts)
    (getWord c.mem (c.argv + 4 * ts.length)) with _ | t
  · rw [ht] at hok
    cases hok
  rw [ht] at hok
  obtain ⟨length, hlength, hok⟩ := Except.bind_eq_ok.mp hok
  cases hlength
  obtain ⟨s₁, hcopy, -⟩ := Except.bind_eq_ok.mp hok
  have hlen := (textFrom_eq_some_iff.mp ht).1
  have hroom : used (ts ++ [t]) ≤ k.length := by
    rw [used_snoc, ← (h.place.down hk (show t.length + 1 ≤ USER_SPACE_SIZE by omega)).1]
    by_contra hout
    change Copying.memCopy (s.down (t.length + 1)) k _ (t.length + 1) = _ at hcopy
    rw [Copying.memCopy, if_neg hout] at hcopy
    cases hcopy
  obtain ⟨s'', hok', hcopied⟩ := h.next hk hlt ht hroom
  rw [hstart] at hok'
  cases hok'
  exact ⟨t, hcopied⟩

/-- The state in which the loop begins. -/
def Area.first (k : Area) (mem : ℕ → UInt8) : Copying :=
  ⟨mem, (k.fakeStack + k.length + 0xC0000000) % 2 ^ 32, USER_SPACE_SIZE⟩

theorem copied_first (hk : Placed k) : Copied k c [] (k.first c.mem) where
  place := by
    have hshift := user_add_shift k
    have hbase : k.base = k.fakeStack + 0xC0000000 := rfl
    have hle := hk.le
    refine ⟨rfl, ?_, Nat.zero_le _⟩
    change (k.fakeStack + k.length + 0xC0000000) % 2 ^ 32 = USER_SPACE_SIZE + k.shift
    omega
  user _ _ := rfl
  stored := nofun
  read := nofun

/-- **A loop that ends** has copied as many strings as it has made turns. -/
theorem loop_ok (hk : Placed k) {n : ℕ} (hn : n ≤ c.argc)
    (hok : (List.range n).foldlM (copyArg k c.argv) (k.first c.mem) = .ok s) :
    ∃ ts, ts.length = n ∧ Copied k c ts s := by
  induction n generalizing s with
  | zero =>
    cases hok
    exact ⟨[], rfl, copied_first hk⟩
  | succ n ih =>
    rw [List.range_succ, List.foldlM_append] at hok
    obtain ⟨s₁, hloop, hlast⟩ := Except.bind_eq_ok.mp hok
    obtain ⟨ts, rfl, hcopied⟩ := ih (Nat.le_of_succ_le hn) hloop
    rw [List.foldlM_cons] at hlast
    obtain ⟨s₂, harg, hnil⟩ := Except.bind_eq_ok.mp hlast
    cases hnil
    obtain ⟨t, ht⟩ := hcopied.of_ok hk hn harg
    exact ⟨ts ++ [t], by simp, ht⟩

theorem getElem?_texts {i : ℕ} (hi : i < c.argc) :
    c.texts[i]? = some (c.texts.getD i []) := by
  have hlen : i < c.texts.length := by simpa [Caller.texts] using hi
  rw [List.getD_eq_getElem?_getD, List.getElem?_eq_getElem hlen]
  rfl

/-- **The loop ends** that has strings which it does not change, and room for them. -/
theorem loop_of (hk : Placed k) (hc : c.Apart) (hroom : used c.texts ≤ k.length) {n : ℕ}
    (hn : n ≤ c.argc) :
    ∃ s, (List.range n).foldlM (copyArg k c.argv) (k.first c.mem) = .ok s ∧
      Copied k c (c.texts.take n) s := by
  induction n with
  | zero => exact ⟨_, rfl, copied_first hk⟩
  | succ n ih =>
    obtain ⟨s, hloop, hcopied⟩ := ih (Nat.le_of_succ_le hn)
    have hlen : (c.texts.take n).length = n := by
      rw [List.length_take, Caller.texts, List.length_map, List.length_range]
      omega
    have hsnoc : c.texts.take (n + 1) = c.texts.take n ++ [c.texts.getD n []] := by
      rw [List.take_add_one, getElem?_texts hn, Option.toList_some]
    have hle : used (c.texts.take n ++ [c.texts.getD n []]) ≤ k.length := by
      rw [← hsnoc]
      exact (used_take_le _ _).trans hroom
    have hread := hc n hn
    obtain ⟨s', harg, hnext⟩ :=
      hcopied.next hk (by rw [hlen]; exact hn) (by rw [hlen]; exact hread) hle
    rw [hlen] at harg
    refine ⟨s', ?_, hsnoc ▸ hnext⟩
    rw [List.range_succ, List.foldlM_append, hloop, Except.ok_bind, List.foldlM_cons, harg]
    rfl

end Loop

end Arguments
end UnixV6pp
